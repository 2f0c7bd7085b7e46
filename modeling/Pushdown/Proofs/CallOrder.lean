import Pushdown.Proofs.Outcome
import Pushdown.Store.Scripted
import Pushdown.Write.Execution

/-!
# Reads come before mutations

`reads_before_mutations`: an update or a delete first reads all that it needs (`Reading`), then works out its
mutations, and then makes them (`Mutating`). `Calls` ties a step to the calls that a `recorded` store lists.
-/

namespace Pushdown

open List Attempt

def Call.isRead : Call → Bool
  | .aggregate _ => true
  | .findOne .. => true
  | .mutate _ => false

def WriteOutcome.warnAll (o : WriteOutcome) (warnings : List String) : WriteOutcome :=
  { o with warnings := o.warnings ++ warnings }

theorem WriteOutcome.warnAll_nil (o : WriteOutcome) : o.warnAll [] = o := by
  simp [warnAll]

theorem WriteOutcome.warnAll_append (o : WriteOutcome) (first rest : List String) :
    o.warnAll (first ++ rest) = (o.warnAll first).warnAll rest := by
  simp [warnAll]

/-- What is left to do for the copies of the written rows: nothing but a warning for a key of the wrong
shape, and a patch for each table that may hold copies of the row with the key. -/
inductive FollowUp where
  | malformed (key : Bson) (e : ConversionError)
  | patch (patch : CopyPatch) (parts : List Bson)

def FollowUp.calls : FollowUp → List Call
  | .malformed .. => []
  | .patch p parts => [.mutate (p.mutation parts)]

def Propagation.followUps (p : Propagation) (keys : List Bson) : List FollowUp :=
  keys.flatMap fun key =>
    match keyParts key p.keyColumns with
    | .ok parts => p.patches.map (.patch · parts)
    | .error e => [.malformed key e]

namespace DocumentStore

variable {σ α β : Type} {store : DocumentStore σ}

def call (store : DocumentStore σ) (s : σ) : Call → σ
  | .aggregate request => (store.aggregate request s).2
  | .findOne collection filter => (store.findOne collection filter s).2
  | .mutate m => (store.apply m s).2

def after (store : DocumentStore σ) (calls : List Call) (s : σ) : σ := calls.foldl store.call s

theorem after_append (store : DocumentStore σ) (calls more : List Call) (s : σ) :
    store.after (calls ++ more) s = store.after more (store.after calls s) :=
  foldl_append

/-- The step is made of calls, which a store that keeps a list of them finds at the end of its list, and
`p` holds of its result, the state that it starts from and the calls. -/
def Calls (store : DocumentStore σ) (x : Attempt σ WriteError α)
    (x' : Attempt (σ × List Call) WriteError α) (p : Except WriteError α → σ → List Call → Prop) : Prop :=
  ∀ s calls, ∃ r made, x s = (r, store.after made s) ∧
    x' (s, calls) = (r, (store.after made s, calls ++ made)) ∧ p r s made

def Reading (_ : Except WriteError α) (_ : σ) (calls : List Call) : Prop := ∀ call ∈ calls, call.isRead

/-- Of mutations that are made from `s` on, the last one fails with `e`. -/
def LastFails (store : DocumentStore σ) (s : σ) (mutations : List Mutation) (e : WriteError) : Prop :=
  ∃ before m cause, mutations = before ++ [m] ∧ e = .store cause ∧
    (store.apply m (store.after (before.map .mutate) s)).1 = .error cause

/-- All calls are mutations, and a failure is that of the last one. -/
def Mutating (store : DocumentStore σ) (r : Except WriteError α) (s : σ) (calls : List Call) : Prop :=
  ∃ mutations, calls = mutations.map .mutate ∧ ∀ e, r = .error e → store.LastFails s mutations e

/-- Reads come before mutations, and a failure after a mutation is that of the last one. -/
def Ordered (store : DocumentStore σ) (r : Except WriteError α) (s : σ) (calls : List Call) : Prop :=
  ∃ reads mutations, calls = reads ++ mutations.map .mutate ∧ (∀ call ∈ reads, call.isRead) ∧
    ∀ e, r = .error e → mutations ≠ [] → store.LastFails (store.after reads s) mutations e

namespace Calls

variable {x : Attempt σ WriteError α} {x' : Attempt (σ × List Call) WriteError α}
  {f : α → Attempt σ WriteError β} {f' : α → Attempt (σ × List Call) WriteError β}
  {p : Except WriteError α → σ → List Call → Prop} {q r : Except WriteError β → σ → List Call → Prop}

theorem bind (hx : store.Calls x x' p) (hf : ∀ a, store.Calls (f a) (f' a) q)
    (herror : ∀ e s made, p (.error e) s made → r (.error e) s made)
    (hok : ∀ a s made b more, p (.ok a) s made → q b (store.after made s) more → r b s (made ++ more)) :
    store.Calls (x >>= f) (x' >>= f') r := by
  intro s calls
  obtain ⟨a, made, hs, hs', hp⟩ := hx s calls
  cases a with
  | error e =>
    exact ⟨_, made, bind_of_error hs f, bind_of_error hs' f', herror e s made hp⟩
  | ok a =>
    obtain ⟨b, more, ht, ht', hq⟩ := hf a (store.after made s) (calls ++ made)
    refine ⟨b, made ++ more, ?_, ?_, hok a s made b more hp hq⟩
    · rw [bind_of_ok hs, ht, after_append]
    · rw [bind_of_ok hs', ht', after_append, append_assoc]

theorem silent (h : ∀ s calls, ∃ r, x s = (r, s) ∧ x' (s, calls) = (r, (s, calls))) : store.Calls x x' Reading := by
  intro s calls
  obtain ⟨r, hx, hx'⟩ := h s calls
  exact ⟨r, [], hx, by rw [hx', append_nil]; rfl, by simp [Reading]⟩

theorem reading_pure (a : α) : store.Calls (pure a) (pure a) Reading :=
  silent fun _ _ => ⟨.ok a, rfl, rfl⟩

theorem mutating_pure (a : α) : store.Calls (pure a) (pure a) store.Mutating := by
  intro s calls
  refine ⟨.ok a, [], rfl, by rw [append_nil]; rfl, [], rfl, fun e he => ?_⟩
  cases he

theorem reading_bind (hx : store.Calls x x' Reading) (hf : ∀ a, store.Calls (f a) (f' a) Reading) :
    store.Calls (x >>= f) (x' >>= f') Reading :=
  hx.bind hf (fun _ _ _ hmade => hmade) fun _ _ _ _ _ hmade hmore => forall_mem_append.mpr ⟨hmade, hmore⟩

theorem mutating_bind (hx : store.Calls x x' store.Mutating) (hf : ∀ a, store.Calls (f a) (f' a) store.Mutating) :
    store.Calls (x >>= f) (x' >>= f') store.Mutating := by
  refine hx.bind hf ?_ ?_
  · rintro e s made ⟨mutations, rfl, hfails⟩
    refine ⟨mutations, rfl, fun e' he => hfails e' ?_⟩
    cases he
    rfl
  · rintro a s made b more ⟨first, rfl, -⟩ ⟨mutations, rfl, hfails⟩
    refine ⟨first ++ mutations, by rw [map_append], fun e he => ?_⟩
    obtain ⟨before, m, cause, rfl, hcause, hm⟩ := hfails e he
    refine ⟨first ++ before, m, cause, by rw [append_assoc], hcause, ?_⟩
    rw [map_append, after_append, hm]

theorem ordered_bind (hx : store.Calls x x' Reading) (hf : ∀ a, store.Calls (f a) (f' a) store.Ordered) :
    store.Calls (x >>= f) (x' >>= f') store.Ordered := by
  refine hx.bind hf ?_ ?_
  · intro e s made hreads
    exact ⟨made, [], by simp, hreads, fun _ _ hne => absurd rfl hne⟩
  · rintro a s made b more hmade ⟨reads, mutations, rfl, hreads, hfails⟩
    refine ⟨made ++ reads, mutations, by rw [append_assoc], forall_mem_append.mpr ⟨hmade, hreads⟩, ?_⟩
    rw [after_append]
    exact hfails

theorem ordered (hx : store.Calls x x' store.Mutating) : store.Calls x x' store.Ordered := by
  intro s calls
  obtain ⟨r, made, hs, hs', mutations, rfl, hfails⟩ := hx s calls
  exact ⟨r, _, hs, hs', [], mutations, rfl, by simp, fun e he _ => hfails e he⟩

end Calls

theorem recorded_apply (store : DocumentStore σ) (m : Mutation) (s : σ) (calls : List Call) :
    store.recorded.apply m (s, calls) = ((store.apply m s).1, ((store.apply m s).2, calls ++ [.mutate m])) := by
  cases m with
  | insert collection document =>
    simp only [apply, recorded, noting]
    rcases store.insert collection document s with ⟨_ | _, _⟩ <;> rfl
  | update request =>
    simp only [apply, recorded, noting]
    rcases store.update request s with ⟨_ | _, _⟩ <;> rfl
  | remove collection filter =>
    simp only [apply, recorded, noting]
    rcases store.remove collection filter s with ⟨_ | _, _⟩ <;> rfl

theorem recorded_call (store : DocumentStore σ) (s : σ) (log : List Call) (call : Call) :
    store.recorded.call (s, log) call = (store.call s call, log ++ [call]) := by
  cases call with
  | aggregate | findOne => rfl
  | mutate m =>
    rw [DocumentStore.call, recorded_apply]
    rfl

theorem recorded_after (store : DocumentStore σ) (calls : List Call) (s : σ) (log : List Call) :
    store.recorded.after calls (s, log) = (store.after calls s, log ++ calls) := by
  induction calls generalizing s log with
  | nil => rw [append_nil]; rfl
  | cons call calls ih =>
    show store.recorded.after calls (store.recorded.call (s, log) call) = _
    rw [recorded_call, ih, append_assoc]
    rfl

theorem failingAs_eq {ε δ : Type} (x : Attempt σ ε α) (f : ε → δ) (s : σ) :
    x.failingAs f s = ((x s).1.mapError f, (x s).2) := by
  rw [Attempt.failingAs]
  rcases x s with ⟨_ | _, _⟩ <;> rfl

section

variable (store : DocumentStore σ)

theorem calls_mutate (m : Mutation) : store.Calls (store.mutate m) (store.recorded.mutate m) store.Mutating := by
  intro s calls
  refine ⟨_, [.mutate m], failingAs_eq .., ?_, [m], rfl, fun e he => ?_⟩
  · rw [mutate, failingAs_eq, recorded_apply]
    rfl
  · cases hm : (store.apply m s).1 with
    | ok r =>
      rw [hm] at he
      cases he
    | error cause =>
      rw [hm] at he
      cases he
      exact ⟨[], m, cause, rfl, rfl, hm⟩

theorem calls_read (request : AggregateRequest) :
    store.Calls (store.read request) (store.recorded.read request) Reading := by
  intro s calls
  refine ⟨_, [.aggregate request], failingAs_eq .., ?_, by simp [Reading, Call.isRead]⟩
  rw [read, failingAs_eq]
  rfl

theorem calls_findOne (collection : String) (filter : Document) :
    store.Calls (Attempt.failingAs (fun s => store.findOne collection filter s) WriteError.store)
      (Attempt.failingAs (fun s => store.recorded.findOne collection filter s) WriteError.store) Reading := by
  intro s calls
  refine ⟨_, [.findOne collection filter], failingAs_eq .., ?_, by simp [Reading, Call.isRead]⟩
  rw [failingAs_eq]
  rfl

theorem calls_resolveCopies (fetches : List CopyFetch) (o : WriteOutcome) :
    store.Calls (store.resolveCopies fetches o) (store.recorded.resolveCopies fetches o) Reading := by
  induction fetches generalizing o with
  | nil => exact .reading_pure _
  | cons fetch fetches ih =>
    rw [resolveCopies, resolveCopies]
    have hrest (copy : ResolvedCopy) (o : WriteOutcome) :
        store.Calls (store.resolveCopies fetches o >>= fun r => pure (copy :: r.1, r.2))
          (store.recorded.resolveCopies fetches o >>= fun r => pure (copy :: r.1, r.2)) Reading :=
      (ih o).reading_bind fun _ => .reading_pure _
    split
    · exact hrest _ o
    · refine (calls_findOne store _ _).reading_bind fun found => ?_
      cases found with
      | none => exact hrest _ _
      | some d => exact hrest _ o

theorem calls_runUpdates (plan : NestedWrite) (updates : List UpdateRequest) (o : WriteOutcome) :
    store.Calls (store.runUpdates plan updates o) (store.recorded.runUpdates plan updates o) store.Mutating := by
  induction updates generalizing o with
  | nil => exact .mutating_pure _
  | cons u updates ih =>
    rw [runUpdates, runUpdates]
    exact (calls_mutate store (.update u)).mutating_bind fun _ => ih _

end

theorem stateM_bind (x : StateM σ α) (f : α → StateM σ β) (s : σ) : (x >>= f) s = f (x s).1 (x s).2 := rfl

/-- What each item gives in the state that the calls for the items before it leave. -/
def inTurn (store : DocumentStore σ) (calls : α → List Call) (result : α → σ → β) : List α → σ → List β
  | [], _ => []
  | a :: items, s => result a s :: store.inTurn calls result items (store.after (calls a) s)

theorem inTurn_append (store : DocumentStore σ) (calls : α → List Call) (result : α → σ → β)
    (items more : List α) (s : σ) :
    store.inTurn calls result (items ++ more) s =
      store.inTurn calls result items s ++ store.inTurn calls result more (store.after (items.flatMap calls) s) := by
  induction items generalizing s with
  | nil => rfl
  | cons a items ih =>
    rw [cons_append, inTurn, ih, inTurn, flatMap_cons, after_append]
    rfl

theorem recorded_inTurn (store : DocumentStore σ) (calls : α → List Call) {result : α → σ → β}
    {result' : α → σ × List Call → β} (h : ∀ a s log, result' a (s, log) = result a s) (items : List α)
    (s : σ) (log : List Call) :
    store.recorded.inTurn calls result' items (s, log) = store.inTurn calls result items s := by
  induction items generalizing s log with
  | nil => rfl
  | cons a items ih => rw [inTurn, inTurn, h, recorded_after, ih]

def followUpWarning? (store : DocumentStore σ) (table : String) : FollowUp → σ → Option String
  | .malformed key e, _ =>
    some ("copies of '" ++ table ++ "' keyed " ++ key.text ++ " were not refreshed: " ++ e.report.message)
  | .patch patch parts, s =>
    match (store.apply (patch.mutation parts) s).1 with
    | .ok _ => none
    | .error e =>
      some ("copies of '" ++ table ++ "' in '" ++ patch.collection ++ "' were not refreshed: " ++ e.report.message)

def followUpWarnings (store : DocumentStore σ) (table : String) (ups : List FollowUp) (s : σ) : List String :=
  (store.inTurn FollowUp.calls (store.followUpWarning? table) ups s).filterMap id

section

variable (store : DocumentStore σ)

theorem followUpWarnings_append (table : String) (ups more : List FollowUp) (s : σ) :
    store.followUpWarnings table (ups ++ more) s =
      store.followUpWarnings table ups s ++
        store.followUpWarnings table more (store.after (ups.flatMap FollowUp.calls) s) := by
  rw [followUpWarnings, inTurn_append, filterMap_append]
  rfl

theorem recorded_followUpWarnings (table : String) (ups : List FollowUp) (s : σ) (log : List Call) :
    store.recorded.followUpWarnings table ups (s, log) = store.followUpWarnings table ups s := by
  rw [followUpWarnings, recorded_inTurn store FollowUp.calls, followUpWarnings]
  rintro (_ | _) s log
  · rfl
  · rw [followUpWarning?, recorded_apply]
    rfl

theorem patchCopies_eq (table : String) (parts : List Bson) (patches : List CopyPatch) (o : WriteOutcome) (s : σ) :
    store.patchCopies table parts patches o s =
      (o.warnAll (store.followUpWarnings table (patches.map (.patch · parts)) s),
        store.after ((patches.map (FollowUp.patch · parts)).flatMap FollowUp.calls) s) := by
  induction patches generalizing o s with
  | nil => exact Prod.ext (o.warnAll_nil).symm rfl
  | cons patch patches ih =>
    rw [patchCopies, stateM_bind, ExceptT.run]
    refine (ih _ _).trans (Prod.ext ?_ rfl)
    rw [map_cons, ← singleton_append, followUpWarnings_append, WriteOutcome.warnAll_append]
    refine congrArg (WriteOutcome.warnAll · _) ?_
    rw [followUpWarnings, inTurn, inTurn, followUpWarning?]
    cases (store.apply (patch.mutation parts) s).1 with
    | ok => exact (o.warnAll_nil).symm
    | error => rfl

/-- Whatever fails on the way, every follow-up is done, and the outcome gets the warnings about those that
fail. -/
theorem propagate_eq (table : String) (p : Propagation) (keys : List Bson) (o : WriteOutcome) (s : σ) :
    store.propagate table p keys o s =
      (o.warnAll (store.followUpWarnings table (p.followUps keys) s),
        store.after ((p.followUps keys).flatMap FollowUp.calls) s) := by
  induction keys generalizing o s with
  | nil => exact Prod.ext (o.warnAll_nil).symm rfl
  | cons key keys ih =>
    rw [propagate, Propagation.followUps, flatMap_cons, ← Propagation.followUps,
      followUpWarnings_append, WriteOutcome.warnAll_append, flatMap_append, after_append]
    cases keyParts key p.keyColumns with
    | ok parts =>
      refine (stateM_bind ..).trans ?_
      rw [patchCopies_eq]
      exact ih _ _
    | error e => exact ih _ s

theorem calls_propagate (table : String) (p : Propagation) (keys : List Bson) (o : WriteOutcome) :
    store.Calls
      (fun s => (.ok (store.propagate table p keys o s).1, (store.propagate table p keys o s).2))
      (fun s => (.ok (store.recorded.propagate table p keys o s).1,
        (store.recorded.propagate table p keys o s).2)) store.Mutating := by
  intro s log
  have hcalls : ∃ mutations : List Mutation,
      (p.followUps keys).flatMap FollowUp.calls = mutations.map .mutate := by
    induction p.followUps keys with
    | nil => exact ⟨[], rfl⟩
    | cons up ups ih =>
      obtain ⟨mutations, hrest⟩ := ih
      cases up with
      | malformed => exact ⟨mutations, hrest⟩
      | patch patch parts => exact ⟨patch.mutation parts :: mutations, by rw [flatMap_cons, hrest]; rfl⟩
  obtain ⟨mutations, hmutations⟩ := hcalls
  refine ⟨.ok (o.warnAll (store.followUpWarnings table (p.followUps keys) s)), mutations.map .mutate, ?_, ?_,
    mutations, rfl, fun e he => ?_⟩
  · simp only [propagate_eq, hmutations]
  · simp only [propagate_eq, recorded_followUpWarnings, recorded_after, hmutations]
  · cases he

theorem calls_runDirect (plan : DirectPlan) (o : WriteOutcome) :
    store.Calls (store.runDirect plan o) (store.recorded.runDirect plan o) store.Ordered := by
  rw [runDirect, runDirect]
  refine (calls_resolveCopies store plan.copies o).ordered_bind fun r => ?_
  cases plan.propagation with
  | none => exact ((calls_mutate store _).mutating_bind fun _ => .mutating_pure _).ordered
  | some p =>
    refine (calls_read store p.keyQuery).ordered_bind fun documents => ?_
    exact ((calls_mutate store _).mutating_bind fun _ => calls_propagate store _ _ _ _).ordered

theorem calls_runPull (plan : PullPlan) (o : WriteOutcome) :
    store.Calls (store.runPull plan o) (store.recorded.runPull plan o) store.Ordered := by
  rw [runPull, runPull]
  refine (calls_read store plan.countQuery).ordered_bind fun documents => ?_
  dsimp only
  split
  · exact ((calls_mutate store _).mutating_bind fun _ => .mutating_pure _).ordered
  · exact (Calls.mutating_pure _).ordered

theorem calls_runNested (plan : NestedWrite) (o : WriteOutcome) :
    store.Calls (store.runNested plan o) (store.recorded.runNested plan o) store.Ordered := by
  rw [runNested, runNested]
  refine (calls_read store plan.read).ordered_bind fun documents => ?_
  refine (calls_resolveCopies store plan.copies o).ordered_bind fun r => ?_
  -- the rows are chosen and the updates worked out here, without a call
  refine Calls.ordered_bind (.silent fun s calls => ⟨_, rfl, rfl⟩) fun completed => ?_
  exact ((calls_runUpdates store plan _ _).mutating_bind fun _ => .mutating_pure _).ordered

end

/-- With every store, and from every state of it, an update or delete is `Ordered`. So whatever fails other than a
mutation (a read, the fetch of a copy, the filter, a conversion) does so before the first mutation. -/
theorem reads_before_mutations (store : DocumentStore σ) (plan : WritePlan) (hplan : ∀ p, plan ≠ .insert p) (s : σ) :
    ∃ r reads mutations, (∀ call ∈ reads, call.isRead) ∧
      store.run plan s = (r, store.after (reads ++ mutations.map .mutate) s) ∧
      (store.recorded.run plan (s, [])).2.2 = reads ++ mutations.map .mutate ∧
      ∀ e, r = .error e → mutations ≠ [] → ∃ before m cause, mutations = before ++ [m] ∧
        e = .store cause ∧
        (store.apply m (store.after (reads ++ before.map .mutate) s)).1 = .error cause := by
  have hcalls : store.Calls (store.run plan) (store.recorded.run plan) store.Ordered := by
    cases plan with
    | insert p => exact absurd rfl (hplan p)
    | direct p => exact calls_runDirect store p {}
    | pull p => exact calls_runPull store p {}
    | nested p => exact calls_runNested store p {}
  obtain ⟨r, _, hs, hs', reads, mutations, rfl, hreads, hfails⟩ := hcalls s []
  refine ⟨r, reads, mutations, hreads, hs, by rw [hs', nil_append], fun e he hne => ?_⟩
  obtain ⟨before, m, cause, hlast, hcause, hm⟩ := hfails e he hne
  exact ⟨before, m, cause, hlast, hcause, by rw [after_append, hm]⟩

def clearedLines : NestedWrite where
  table := "line"
  collection := "order"
  hops := [⟨.merge, { name := "", parent := "order", child := "line", columns := []
                      referencedColumns := [], association := .many }⟩]
  read := { collection := "order", pipeline := [] }
  filter := none
  columns := []
  action := .delete
  copies := [⟨"product", some ("product", [("_id", .int32 7)])⟩]

def failingScript : Script where
  aggregates :=
    let order (id : Int32) : Document := [("_id", .int32 id), ("line", .array [.document []])]
    [.ok [order 1, order 2]]
  updates := [.ok 1, .error (.driver "down")]

theorem reads_before_failed_update :
    (∀ p, WritePlan.nested clearedLines ≠ .insert p) ∧
    (Script.store.run (.nested clearedLines) failingScript).1 = .error (.store (.driver "down")) ∧
    ∃ reads before m, (∀ call ∈ reads, call.isRead) ∧
      (Script.store.recorded.run (.nested clearedLines) (failingScript, [])).2.2 =
        reads ++ (before ++ [m]).map .mutate ∧
      (Script.store.apply m (Script.store.after (reads ++ before.map .mutate) failingScript)).1 =
        .error (.driver "down") := by
  have hplan : ∀ p, WritePlan.nested clearedLines ≠ .insert p := by simp
  have hfails : (Script.store.run (.nested clearedLines) failingScript).1 =
      .error (.store (.driver "down")) := rfl
  obtain ⟨r, reads, mutations, hreads, hrun, hcalls, hlast⟩ :=
    reads_before_mutations Script.store (.nested clearedLines) hplan failingScript
  rw [hrun] at hfails
  have hsome : ((Script.store.recorded.run (.nested clearedLines) (failingScript, [])).2.2).all
      Call.isRead = false := rfl
  have hne : mutations ≠ [] := by
    rintro rfl
    rw [hcalls, map_nil, append_nil, List.all_eq_true.mpr hreads] at hsome
    cases hsome
  obtain ⟨before, m, cause, rfl, hcause, hm⟩ := hlast _ hfails hne
  cases hcause
  exact ⟨hplan, by rw [hrun, hfails], reads, before, m, hreads, hcalls, hm⟩

end DocumentStore

end Pushdown
