import Pushdown.Write.Completion

/-!
# Execution of write plans

A plan is carried out in a fixed order: what has to be read is read, then the mutation is made, and
then, where copies are concerned, the copies are changed. What fails after the mutation is reported
as a warning.
-/

namespace Pushdown

structure WriteOutcome where
  affected : UInt64 := 0
  generatedKey : Option Value := none
  /-- What failed after the mutation was made, and copies that could not be found. -/
  warnings : List String := []

namespace WriteOutcome

def warn (o : WriteOutcome) (warning : String) : WriteOutcome :=
  { o with warnings := o.warnings ++ [warning] }

end WriteOutcome

namespace DocumentStore

variable {σ : Type} (store : DocumentStore σ)

def apply : Mutation → Attempt σ StoreError (UInt64 × Option Bson)
  | .insert collection document => fun s =>
    match store.insert collection document s with
    | (.ok id, s) => (.ok (1, some id), s)
    | (.error e, s) => (.error e, s)
  | .update request => fun s =>
    match store.update request s with
    | (.ok n, s) => (.ok (n, none), s)
    | (.error e, s) => (.error e, s)
  | .remove collection filter => fun s =>
    match store.remove collection filter s with
    | (.ok n, s) => (.ok (n, none), s)
    | (.error e, s) => (.error e, s)

def read (request : AggregateRequest) : Attempt σ WriteError (List Document) :=
  Attempt.failingAs (fun s => store.aggregate request s) WriteError.store

def mutate (m : Mutation) : Attempt σ WriteError (UInt64 × Option Bson) :=
  (store.apply m).failingAs WriteError.store

/-- Fetches the copies one after the other. One that is not found is left empty, with a warning. -/
def resolveCopies : List CopyFetch → WriteOutcome → Attempt σ WriteError (List ResolvedCopy × WriteOutcome)
  | [], o => pure ([], o)
  | fetch :: fetches, o => do
    let (copy, o) ←
      match fetch.source with
      | none => pure ((⟨fetch.field, none⟩ : ResolvedCopy), o)
      | some (collection, filter) => do
        match ← Attempt.failingAs (fun s => store.findOne collection filter s) WriteError.store with
        | some d => pure (⟨fetch.field, some (Document.erase d "_id")⟩, o)
        | none =>
          pure (⟨fetch.field, none⟩, o.warn ("no row of '" ++ collection ++ "' matches " ++
            Document.text filter ++ ", '" ++ fetch.field ++ "' is left empty"))
    let (copies, o) ← resolveCopies fetches o
    return (copy :: copies, o)

/-- Notes the key that the store gave to a new row. The row is stored by now, so a key of the wrong
kind only warns. -/
def noteKey (plan : InsertPlan) (id : Option Bson) (o : WriteOutcome) : Attempt σ WriteError WriteOutcome := fun s =>
  match plan.generatedKey, id with
  | some (column, type), some id =>
    match Value.ofStored (store.fetch s) type id with
    | .ok key => (.ok { o with generatedKey := some key }, s)
    | .error e =>
      (.ok (o.warn ("the key generated for '" ++ plan.table ++ "'.'" ++ column ++
        "' cannot be returned: " ++ e.report.message)), s)
  | _, _ => (.ok o, s)

def runInsertRow (plan : InsertPlan) (r : InsertRow) (o : WriteOutcome) : Attempt σ WriteError WriteOutcome := do
  let (copies, o) ← store.resolveCopies r.copies o
  let m := r.mutation copies
  let (n, id) ← store.mutate m
  let o :=
    if n = 0 then
      o.warn
        ("no parent row in '" ++ m.collection ++ "' holds the new row of '" ++ plan.table ++ "'")
    else
      o
  store.noteKey plan id { o with affected := o.affected + n }

def runInsert (plan : InsertPlan) : List InsertRow → WriteOutcome → Attempt σ WriteError WriteOutcome
  | [], o => pure o
  | r :: rows, o => do runInsert plan rows (← store.runInsertRow plan r o)

/-- Changes copies by all patches. A patch that fails is passed over, with a warning. -/
def patchCopies (table : String) (key : List Bson) : List CopyPatch → WriteOutcome → StateM σ WriteOutcome
  | [], o => pure o
  | patch :: patches, o => do
    let o :=
      match ← (store.apply (patch.mutation key)).run with
      | .ok _ => o
      | .error e =>
        o.warn ("copies of '" ++ table ++ "' in '" ++ patch.collection ++
          "' were not refreshed: " ++ e.report.message)
    patchCopies table key patches o

/-- Changes the copies of the rows with the given keys. A key of the wrong shape is passed over,
with a warning. -/
def propagate (table : String) (p : Propagation) : List Bson → WriteOutcome → StateM σ WriteOutcome
  | [], o => pure o
  | key :: keys, o => do
    let o ←
      match keyParts key p.keyColumns with
      | .ok parts => store.patchCopies table parts p.patches o
      | .error e =>
        pure (o.warn ("copies of '" ++ table ++ "' keyed " ++ key.text ++ " were not refreshed: " ++
          e.report.message))
    propagate table p keys o

/-- Carries out a direct write. Keys are read before the mutation, since a removal leaves none. -/
def runDirect (plan : DirectPlan) (o : WriteOutcome) : Attempt σ WriteError WriteOutcome := do
  let (copies, o) ← store.resolveCopies plan.copies o
  let keys ←
    match plan.propagation with
    | some p => do
      let documents ← store.read p.keyQuery
      pure (documents.filterMap fun d => Document.get? d "_id")
    | none => pure []
  let (n, _) ← store.mutate (plan.withCopies copies)
  let o := { o with affected := o.affected + n }
  match plan.propagation with
  | some p => fun s =>
    let (o, s) := (store.propagate plan.table p keys o).run s
    (.ok o, s)
  | none => pure o

def counted (documents : List Document) : UInt64 :=
  match documents.head?.bind fun d => Document.get? d "n" with
  | some (.int32 n) => n.toInt64.toUInt64
  | some (.int64 n) => n.toUInt64
  | _ => 0

def runPull (plan : PullPlan) (o : WriteOutcome) : Attempt σ WriteError WriteOutcome := do
  let removed := counted (← store.read plan.countQuery)
  if removed > 0 then
    let _ ← store.mutate (.update plan.mutation)
  return { o with affected := o.affected + removed }

/-- Sends the updates of a nested write. One that finds nothing is reported by a warning. -/
def runUpdates (plan : NestedWrite) : List UpdateRequest → WriteOutcome → Attempt σ WriteError WriteOutcome
  | [], o => pure o
  | u :: updates, o => do
    let (n, _) ← store.mutate (.update u)
    let o :=
      if n = 0 then
        o.warn ("a document of '" ++ plan.collection ++ "' changed while '" ++ plan.table ++
          "' was being written")
      else
        o
    runUpdates plan updates o

def runNested (plan : NestedWrite) (o : WriteOutcome) : Attempt σ WriteError WriteOutcome := do
  let documents ← store.read plan.read
  let (copies, o) ← store.resolveCopies plan.copies o
  let completed ← fun s => (plan.complete (store.fetch s) copies documents, s)
  let o ← store.runUpdates plan completed.updates o
  return { o with affected := o.affected + UInt64.ofNat completed.affected }

def run : WritePlan → Attempt σ WriteError WriteOutcome
  | .insert plan => store.runInsert plan plan.rows {}
  | .direct plan => store.runDirect plan {}
  | .pull plan => store.runPull plan {}
  | .nested plan => store.runNested plan {}

end DocumentStore

end Pushdown
