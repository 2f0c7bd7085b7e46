import Pushdown.Proofs.CallOrder

/-!
# Writes that reach copies

`direct_writes_best_effort`: a direct write makes its `reads`, which are the copies that it has to store and the
keys of the rows that it is going to touch, then its mutation, and then patches the copies of these rows, one key
after the other (`patchCalls`). Only what fails up to the mutation fails the write.
-/

namespace Pushdown

open List Attempt CopyFetch DirectPlan

namespace CopyFetch

def calls (fetch : CopyFetch) : List Call :=
  match fetch.source with
  | some (collection, filter) => [.findOne collection filter]
  | none => []

end CopyFetch

/-- One patch for every key of the right shape and every table that may hold copies. -/
def Propagation.patchCalls (p : Propagation) (keys : List Bson) : List Call :=
  (keys.filterMap fun key => (keyParts key p.keyColumns).toOption).flatMap fun parts =>
    p.patches.map fun patch => .mutate (patch.mutation parts)

theorem Propagation.flatMap_followUps (p : Propagation) (keys : List Bson) :
    (p.followUps keys).flatMap FollowUp.calls = p.patchCalls keys := by
  rw [followUps, patchCalls, flatMap_assoc, filterMap_eq_flatMap_toList, flatMap_assoc]
  refine flatMap_congr fun key _ => ?_
  cases keyParts key p.keyColumns with
  | ok parts =>
    rw [flatMap_map]
    simp [FollowUp.calls, Except.toOption, map_eq_flatMap]
  | error e => rfl

namespace DirectPlan

def reads (plan : DirectPlan) : List Call :=
  plan.copies.flatMap CopyFetch.calls ++ plan.propagation.toList.map fun p => .aggregate p.keyQuery

def followUps (plan : DirectPlan) (keys : List Bson) : List FollowUp :=
  plan.propagation.toList.flatMap (·.followUps keys)

def patchCalls (plan : DirectPlan) (keys : List Bson) : List Call :=
  plan.propagation.toList.flatMap (·.patchCalls keys)

end DirectPlan

namespace DocumentStore

variable {σ : Type} {store : DocumentStore σ} {s : σ}

/-- The store answers the call and does not fail. -/
def Answers (store : DocumentStore σ) (s : σ) : Call → Prop
  | .aggregate request => ∃ documents, (store.aggregate request s).1 = .ok documents
  | .findOne collection filter => ∃ found, (store.findOne collection filter s).1 = .ok found
  | .mutate m => ∃ r, (store.apply m s).1 = .ok r

/-- The store answers calls that are made one after the other. -/
def Answered (store : DocumentStore σ) : List Call → σ → Prop
  | [], _ => True
  | call :: calls, s => store.Answers s call ∧ Answered store calls (store.call s call)

theorem answered_append {calls more : List Call} :
    store.Answered (calls ++ more) s ↔ store.Answered calls s ∧ store.Answered more (store.after calls s) := by
  induction calls generalizing s with
  | nil => exact (iff_of_eq (true_and _)).symm
  | cons call calls ih =>
    rw [cons_append, Answered, ih, Answered, and_assoc]
    rfl

/-- The copy that is fetched; none when there is no such row, or no source. -/
def resolved (store : DocumentStore σ) (fetch : CopyFetch) (s : σ) : ResolvedCopy where
  field := fetch.field
  document :=
    match fetch.source with
    | some (collection, filter) =>
      match (store.findOne collection filter s).1 with
      | .ok (some d) => some (Document.erase d "_id")
      | _ => none
    | none => none

def unresolvedWarning? (store : DocumentStore σ) (fetch : CopyFetch) (s : σ) : Option String :=
  match fetch.source with
  | some (collection, filter) =>
    match (store.findOne collection filter s).1 with
    | .ok none =>
      some ("no row of '" ++ collection ++ "' matches " ++ Document.text filter ++ ", '" ++ fetch.field ++
        "' is left empty")
    | _ => none
  | none => none

def copiesFetched (store : DocumentStore σ) (fetches : List CopyFetch) (s : σ) : List ResolvedCopy :=
  store.inTurn CopyFetch.calls store.resolved fetches s

def unresolvedWarnings (store : DocumentStore σ) (fetches : List CopyFetch) (s : σ) : List String :=
  (store.inTurn CopyFetch.calls store.unresolvedWarning? fetches s).filterMap id

def keysRead (store : DocumentStore σ) (plan : DirectPlan) (s : σ) : List Bson :=
  plan.propagation.toList.flatMap fun p =>
    match (store.aggregate p.keyQuery (store.after (plan.copies.flatMap CopyFetch.calls) s)).1 with
    | .ok documents => documents.filterMap fun d => Document.get? d "_id"
    | .error _ => []

def mainMutation (store : DocumentStore σ) (plan : DirectPlan) (s : σ) : Mutation :=
  plan.withCopies (store.copiesFetched plan.copies s)

def fetchCopy (store : DocumentStore σ) (fetch : CopyFetch) (o : WriteOutcome) :
    Attempt σ WriteError (ResolvedCopy × WriteOutcome) :=
  match fetch.source with
  | none => pure (⟨fetch.field, none⟩, o)
  | some (collection, filter) => do
    match ← Attempt.failingAs (fun s => store.findOne collection filter s) WriteError.store with
    | some d => pure (⟨fetch.field, some (Document.erase d "_id")⟩, o)
    | none =>
      pure (⟨fetch.field, none⟩, o.warn ("no row of '" ++ collection ++ "' matches " ++
        Document.text filter ++ ", '" ++ fetch.field ++ "' is left empty"))

theorem resolveCopies_cons (store : DocumentStore σ) (fetch : CopyFetch) (fetches : List CopyFetch)
    (o : WriteOutcome) :
    store.resolveCopies (fetch :: fetches) o = do
      let (copy, o) ← store.fetchCopy fetch o
      let (copies, o) ← store.resolveCopies fetches o
      return (copy :: copies, o) := by
  rw [resolveCopies, fetchCopy]
  cases fetch.source with
  | none => rfl
  | some source =>
    dsimp only
    rw [bind_assoc]
    congr 1
    funext found
    cases found <;> rfl

variable {fetch : CopyFetch} {fetches : List CopyFetch}

theorem fetchCopy_of_answered (h : store.Answered fetch.calls s) (o : WriteOutcome) :
    store.fetchCopy fetch o s =
      (.ok (store.resolved fetch s, o.warnAll (store.unresolvedWarning? fetch s).toList),
        store.after fetch.calls s) := by
  rw [calls] at h ⊢
  rw [fetchCopy, resolved, unresolvedWarning?]
  cases hsource : fetch.source with
  | none =>
    simp only [Option.toList_none, WriteOutcome.warnAll_nil]
    rfl
  | some source =>
    obtain ⟨collection, filter⟩ := source
    rw [hsource] at h
    obtain ⟨⟨found, hfound⟩, -⟩ := h
    have hstep : Attempt.failingAs (fun s => store.findOne collection filter s) WriteError.store s =
        (.ok found, (store.findOne collection filter s).2) := by
      rw [failingAs_eq, hfound]
      rfl
    refine (bind_of_ok hstep _).trans ?_
    simp only [hfound]
    cases found with
    | none => rfl
    | some d =>
      simp only [Option.toList_none, WriteOutcome.warnAll_nil]
      rfl

theorem fetchCopy_of_not_answered (h : ¬store.Answered fetch.calls s) (o : WriteOutcome) :
    ∃ e s', store.fetchCopy fetch o s = (.error e, s') := by
  rw [calls] at h
  rw [fetchCopy]
  cases hsource : fetch.source with
  | none =>
    rw [hsource] at h
    exact absurd trivial h
  | some source =>
    obtain ⟨collection, filter⟩ := source
    rw [hsource] at h
    cases hfound : (store.findOne collection filter s).1 with
    | ok found => exact absurd ⟨⟨found, hfound⟩, trivial⟩ h
    | error e =>
      have hstep : Attempt.failingAs (fun s => store.findOne collection filter s) WriteError.store s =
          (.error (.store e), (store.findOne collection filter s).2) := by
        rw [failingAs_eq, hfound]
        rfl
      exact ⟨_, _, bind_of_error hstep _⟩

theorem resolveCopies_of_answered (h : store.Answered (fetches.flatMap calls) s) (o : WriteOutcome) :
    store.resolveCopies fetches o s =
      (.ok (store.copiesFetched fetches s, o.warnAll (store.unresolvedWarnings fetches s)),
        store.after (fetches.flatMap calls) s) := by
  induction fetches generalizing s o with
  | nil => exact congrArg (fun o => (Except.ok ([], o), s)) o.warnAll_nil.symm
  | cons fetch fetches ih =>
    rw [flatMap_cons, answered_append] at h
    have hwarnings : store.unresolvedWarnings (fetch :: fetches) s =
        (store.unresolvedWarning? fetch s).toList ++
          store.unresolvedWarnings fetches (store.after fetch.calls s) := by
      rw [unresolvedWarnings, inTurn, filterMap_cons]
      cases store.unresolvedWarning? fetch s <;> rfl
    rw [resolveCopies_cons, bind_of_ok (fetchCopy_of_answered h.1 o)]
    refine (bind_of_ok (ih h.2 _) _).trans ?_
    rw [hwarnings, WriteOutcome.warnAll_append, flatMap_cons, after_append]
    rfl

theorem resolveCopies_of_not_answered (h : ¬store.Answered (fetches.flatMap calls) s) (o : WriteOutcome) :
    ∃ e s', store.resolveCopies fetches o s = (.error e, s') := by
  induction fetches generalizing s o with
  | nil => exact absurd trivial h
  | cons fetch fetches ih =>
    rw [flatMap_cons, answered_append] at h
    rw [resolveCopies_cons]
    by_cases hfirst : store.Answered fetch.calls s
    · obtain ⟨e, s', hrest⟩ := ih (fun hrest => h ⟨hfirst, hrest⟩)
        (o.warnAll (store.unresolvedWarning? fetch s).toList)
      rw [bind_of_ok (fetchCopy_of_answered hfirst o)]
      exact ⟨e, s', bind_of_error hrest _⟩
    · obtain ⟨e, s', hfetch⟩ := fetchCopy_of_not_answered hfirst o
      exact ⟨e, s', bind_of_error hfetch _⟩

variable {plan : DirectPlan}

def prepare (store : DocumentStore σ) (plan : DirectPlan) (o : WriteOutcome) :
    Attempt σ WriteError ((List ResolvedCopy × WriteOutcome) × List Bson) := do
  let r ← store.resolveCopies plan.copies o
  match plan.propagation with
  | some p => do
    let documents ← store.read p.keyQuery
    pure (r, documents.filterMap fun d => Document.get? d "_id")
  | none => pure (r, [])

def finish (store : DocumentStore σ) (plan : DirectPlan) (keys : List Bson) (o : WriteOutcome) :
    Attempt σ WriteError WriteOutcome :=
  match plan.propagation with
  | some p => fun s =>
    let (o, s) := (store.propagate plan.table p keys o).run s
    (.ok o, s)
  | none => pure o

theorem runDirect_eq (store : DocumentStore σ) (plan : DirectPlan) (o : WriteOutcome) :
    store.runDirect plan o = (do
      let ((copies, o), keys) ← store.prepare plan o
      let (n, _) ← store.mutate (plan.withCopies copies)
      store.finish plan keys { o with affected := o.affected + n }) := by
  rw [runDirect, prepare, bind_assoc]
  congr 1
  funext r
  unfold finish
  cases plan.propagation with
  | none => rfl
  | some p =>
    dsimp only
    rw [bind_assoc]
    rfl

theorem prepare_of_answered (h : store.Answered plan.reads s) (o : WriteOutcome) :
    store.prepare plan o s =
      (.ok ((store.copiesFetched plan.copies s, o.warnAll (store.unresolvedWarnings plan.copies s)),
        store.keysRead plan s), store.after plan.reads s) := by
  rw [reads, answered_append] at h
  rw [prepare, bind_of_ok (resolveCopies_of_answered h.1 o), keysRead, reads, after_append]
  cases hp : plan.propagation with
  | none => rfl
  | some p =>
    rw [hp] at h
    obtain ⟨-, ⟨documents, hdocuments⟩, -⟩ := h
    have hread : store.read p.keyQuery (store.after (plan.copies.flatMap calls) s) =
        (.ok documents,
          (store.aggregate p.keyQuery (store.after (plan.copies.flatMap calls) s)).2) := by
      rw [read, failingAs_eq, hdocuments]
      rfl
    refine (bind_of_ok hread _).trans ?_
    simp only [Option.toList_some, flatMap_singleton, hdocuments]
    rfl

theorem prepare_of_not_answered (h : ¬store.Answered plan.reads s) (o : WriteOutcome) :
    ∃ e s', store.prepare plan o s = (.error e, s') := by
  rw [reads, answered_append] at h
  rw [prepare]
  by_cases hcopies : store.Answered (plan.copies.flatMap calls) s
  · rw [bind_of_ok (resolveCopies_of_answered hcopies o)]
    cases hp : plan.propagation with
    | none =>
      rw [hp] at h
      exact absurd ⟨hcopies, trivial⟩ h
    | some p =>
      rw [hp] at h
      cases hread : (store.aggregate p.keyQuery (store.after (plan.copies.flatMap calls) s)).1 with
      | ok documents => exact absurd ⟨hcopies, ⟨documents, hread⟩, trivial⟩ h
      | error e =>
        have hfails : store.read p.keyQuery (store.after (plan.copies.flatMap calls) s) =
            (.error (.store e),
              (store.aggregate p.keyQuery (store.after (plan.copies.flatMap calls) s)).2) := by
          rw [read, failingAs_eq, hread]
          rfl
        exact ⟨_, _, bind_of_error hfails _⟩
  · obtain ⟨e, s', hfails⟩ := resolveCopies_of_not_answered hcopies o
    exact ⟨e, s', bind_of_error hfails _⟩

theorem calls_prepare (store : DocumentStore σ) (plan : DirectPlan) (o : WriteOutcome) :
    store.Calls (store.prepare plan o) (store.recorded.prepare plan o) Reading := by
  rw [prepare, prepare]
  refine (calls_resolveCopies store plan.copies o).reading_bind fun r => ?_
  cases plan.propagation with
  | none => exact .reading_pure _
  | some p => exact (calls_read store p.keyQuery).reading_bind fun _ => .reading_pure _

theorem finish_eq (store : DocumentStore σ) (plan : DirectPlan) (keys : List Bson) (o : WriteOutcome) (s : σ) :
    store.finish plan keys o s =
      (.ok (o.warnAll (store.followUpWarnings plan.table (plan.followUps keys) s)),
        store.after (plan.patchCalls keys) s) := by
  rw [finish, followUps, patchCalls]
  cases plan.propagation with
  | none => exact congrArg (fun o => (Except.ok o, s)) o.warnAll_nil.symm
  | some p =>
    simp only [StateT.run, propagate_eq, Option.toList_some, flatMap_singleton, p.flatMap_followUps]

theorem mutate_eq (store : DocumentStore σ) (m : Mutation) (s : σ) :
    store.mutate m s = ((store.apply m s).1.mapError .store, store.after [.mutate m] s) :=
  failingAs_eq ..

theorem run_of_failed_mutation (h : store.Answered plan.reads s) {cause : StoreError}
    (hmain : (store.apply (store.mainMutation plan s) (store.after plan.reads s)).1 = .error cause) :
    store.run (.direct plan) s =
      (.error (.store cause), store.after (plan.reads ++ [.mutate (store.mainMutation plan s)]) s) := by
  have hmutate := mutate_eq store (store.mainMutation plan s) (store.after plan.reads s)
  rw [hmain, ← after_append] at hmutate
  rw [run, runDirect_eq, bind_of_ok (prepare_of_answered h {})]
  exact bind_of_error hmutate _

theorem run_of_mutation (h : store.Answered plan.reads s) {n : UInt64} {id : Option Bson}
    (hmain : (store.apply (store.mainMutation plan s) (store.after plan.reads s)).1 = .ok (n, id)) :
    store.run (.direct plan) s =
      (.ok { affected := 0 + n
             warnings := store.unresolvedWarnings plan.copies s ++
               store.followUpWarnings plan.table (plan.followUps (store.keysRead plan s))
                 (store.after (plan.reads ++ [.mutate (store.mainMutation plan s)]) s) },
        store.after (plan.reads ++ .mutate (store.mainMutation plan s) ::
          plan.patchCalls (store.keysRead plan s)) s) := by
  have hmutate := mutate_eq store (store.mainMutation plan s) (store.after plan.reads s)
  rw [hmain, ← after_append] at hmutate
  rw [run, runDirect_eq, bind_of_ok (prepare_of_answered h {})]
  refine ((bind_of_ok hmutate _).trans (finish_eq ..)).trans ?_
  rw [← after_append, append_assoc]
  rfl

theorem recorded_answered (store : DocumentStore σ) (calls : List Call) (s : σ) (log : List Call) :
    store.recorded.Answered calls (s, log) ↔ store.Answered calls s := by
  induction calls generalizing s log with
  | nil => exact Iff.rfl
  | cons call calls ih =>
    have hanswers : store.recorded.Answers (s, log) call ↔ store.Answers s call := by
      cases call with
      | aggregate | findOne => exact Iff.rfl
      | mutate m => rw [Answers, recorded_apply, Answers]
    rw [Answered, Answered, hanswers, recorded_call, ih]

theorem recorded_keysRead (store : DocumentStore σ) (plan : DirectPlan) (s : σ) (log : List Call) :
    store.recorded.keysRead plan (s, log) = store.keysRead plan s := by
  rw [keysRead, recorded_after]
  rfl

theorem recorded_mainMutation (store : DocumentStore σ) (plan : DirectPlan) (s : σ) (log : List Call) :
    store.recorded.mainMutation plan (s, log) = store.mainMutation plan s := by
  have hcopies : store.recorded.copiesFetched plan.copies (s, log) = store.copiesFetched plan.copies s :=
    recorded_inTurn store calls (fun _ _ _ => rfl) plan.copies s log
  rw [mainMutation, hcopies, mainMutation]

/-- With every store, and from every state of it, a direct write whose reads are `Answered` and whose mutation is
made succeeds with the number that the mutation gives. It then has sent one patch for every key of the right shape
that was read and every patch of the plan, in order, and it warns of every copy that was not found, every key of the
wrong shape and every patch that failed, as these occurred. Where the mutation fails, it sends no patch; where a
read fails, not even the mutation. -/
theorem direct_writes_best_effort (store : DocumentStore σ) (plan : DirectPlan) (s : σ) :
    (∀ n id, store.Answered plan.reads s →
      (store.apply (store.mainMutation plan s) (store.after plan.reads s)).1 = .ok (n, id) →
      ∃ o, (store.run (.direct plan) s).1 = .ok o ∧ o.affected = n ∧
        (store.recorded.run (.direct plan) (s, [])).2.2 =
          plan.reads ++ .mutate (store.mainMutation plan s) :: plan.patchCalls (store.keysRead plan s) ∧
        o.warnings = store.unresolvedWarnings plan.copies s ++
          store.followUpWarnings plan.table (plan.followUps (store.keysRead plan s))
            (store.after (plan.reads ++ [.mutate (store.mainMutation plan s)]) s)) ∧
    (∀ cause, store.Answered plan.reads s →
      (store.apply (store.mainMutation plan s) (store.after plan.reads s)).1 = .error cause →
      (store.run (.direct plan) s).1 = .error (.store cause) ∧
        (store.recorded.run (.direct plan) (s, [])).2.2 =
          plan.reads ++ [.mutate (store.mainMutation plan s)]) ∧
    (¬store.Answered plan.reads s →
      (∃ e, (store.run (.direct plan) s).1 = .error e) ∧
        ∀ call ∈ (store.recorded.run (.direct plan) (s, [])).2.2, call.isRead) := by
  have happly (r : Except StoreError (UInt64 × Option Bson))
      (hmain : (store.apply (store.mainMutation plan s) (store.after plan.reads s)).1 = r) :
      (store.recorded.apply (store.recorded.mainMutation plan (s, []))
        (store.recorded.after plan.reads (s, []))).1 = r := by
    rw [recorded_mainMutation, recorded_after, recorded_apply]
    exact hmain
  refine ⟨fun n id hreads hmain => ?_, fun cause hreads hmain => ?_, fun hreads => ?_⟩
  · have hlog := congrArg Prod.snd (run_of_mutation ((recorded_answered ..).mpr hreads) (happly _ hmain))
    dsimp only at hlog
    rw [recorded_mainMutation, recorded_keysRead, recorded_after] at hlog
    exact ⟨_, congrArg Prod.fst (run_of_mutation hreads hmain), UInt64.zero_add n, by rw [hlog]; rfl, rfl⟩
  · have hlog := congrArg Prod.snd
      (run_of_failed_mutation ((recorded_answered ..).mpr hreads) (happly _ hmain))
    rw [recorded_mainMutation, recorded_after] at hlog
    exact ⟨congrArg Prod.fst (run_of_failed_mutation hreads hmain), by rw [hlog]; rfl⟩
  · obtain ⟨e, s', hfails⟩ := prepare_of_not_answered hreads {}
    obtain ⟨r, made, hs, hs', hmade⟩ := calls_prepare store plan {} s []
    rw [hfails] at hs
    cases hs
    rw [run, runDirect_eq, bind_of_error hfails, run, runDirect_eq, bind_of_error hs']
    exact ⟨⟨e, rfl⟩, hmade⟩

def statePatch (holder : String) : CopyPatch where
  collection := holder
  keyPaths := ["land", "state_no"]
  copyPath := "state"
  arrayFilter := none
  change := .set [("name", .string "Cal")]

def renamedStates : DirectPlan where
  table := "state"
  mutation := .update { collection := "state", filter := [], update := [] }
  copies := [⟨"land", some ("land", [("_id", .int32 7)])⟩]
  propagation := some {
    keyQuery := { collection := "state", pipeline := [] }
    keyColumns := ["land", "no"]
    patches := [statePatch "customer", statePatch "branch"] }

/-- The land is not found, one of three keys is of the wrong shape, and the second patch fails. -/
def faultyScript : Script where
  findOnes := [.ok none]
  aggregates :=
    let state (no : Int32) : Document := [("_id", .document [("land", .int32 7), ("no", .int32 no)])]
    [.ok [state 1, [("_id", .int32 5)], state 2]]
  updates := [.ok 3, .ok 1, .error (.driver "down"), .ok 1, .ok 1]

/-- Four patches are sent for the two keys of the right shape. There is a warning each of the land, of the patch
that failed and of the other key. -/
theorem direct_writes_best_effort_states :
    Script.store.Answered renamedStates.reads faultyScript ∧
      (Script.store.apply (Script.store.mainMutation renamedStates faultyScript)
        (Script.store.after renamedStates.reads faultyScript)).1 = .ok (3, none) ∧
      ∃ o, (Script.store.run (.direct renamedStates) faultyScript).1 = .ok o ∧ o.affected = 3 ∧
        (Script.store.recorded.run (.direct renamedStates) (faultyScript, [])).2.2 =
          renamedStates.reads ++ .mutate (Script.store.mainMutation renamedStates faultyScript) ::
            [.mutate ((statePatch "customer").mutation [.int32 7, .int32 1]),
              .mutate ((statePatch "branch").mutation [.int32 7, .int32 1]),
              .mutate ((statePatch "customer").mutation [.int32 7, .int32 2]),
              .mutate ((statePatch "branch").mutation [.int32 7, .int32 2])] ∧
        o.warnings =
          ["no row of 'land' matches \x7b \"_id\": 7 \x7d, 'land' is left empty",
            "copies of 'state' in 'branch' were not refreshed: store driver error: down",
            "copies of 'state' keyed 5 were not refreshed: expected 2 key values, found 1"] := by
  have hreads : Script.store.Answered renamedStates.reads faultyScript :=
    ⟨⟨_, rfl⟩, ⟨_, rfl⟩, trivial⟩
  have hmain : (Script.store.apply (Script.store.mainMutation renamedStates faultyScript)
      (Script.store.after renamedStates.reads faultyScript)).1 = .ok (3, none) := rfl
  obtain ⟨o, hrun, haffected, hlog, hwarnings⟩ :=
    (direct_writes_best_effort Script.store renamedStates faultyScript).1 3 none hreads hmain
  refine ⟨hreads, hmain, o, hrun, haffected, hlog, hwarnings.trans ?_⟩
  decide +kernel

end DocumentStore

end Pushdown
