import Pushdown.Query.Filter
import Pushdown.Write.Insert

/-!
# Planned updates and deletes

Rows with documents of their own are changed by the store alone. Merged rows are deleted by one
update when the condition reads nothing but the row, and are otherwise read first.
-/

namespace Pushdown

namespace WriteContext

variable {σ : Type}

def condition (c : WriteContext σ) (l : Layout) (filter : Option Expression) (mode : Mode) :
    Planning σ (Option Condition) :=
  match filter with
  | none => pure none
  | some e => do
    let context : Context σ :=
      { catalog := c.catalog, top := l.collection, objects := c.objects, options := c.options
        sources := [{ name := l.table, table := l.table, hops := l.hops, optional := false }]
        mode := mode }
    let terms := e.conjuncts.map fun e =>
      if e.containsAggregate then throw (.aggregateNotAllowed e.sql) else e.filter context .raw
    let compiled : Compiling σ (List Condition) := Attempt.all terms
    let conditions ← fun s =>
      let (r, d) := compiled { objects := s }
      (r.mapError WriteError.query, d.objects)
    return Condition.all conditions

def standaloneFilter (c : WriteContext σ) (l : Layout) (filter : Option Expression) : Planning σ Document := do
  return ((← c.condition l filter .standalone).map Condition.toDocument).getD []

/-- The column and the value of an assignment. Keys cannot be changed. -/
def assignment (t : Table) (l : Layout) (a : Assignment) : Except WriteError (String × Value) := do
  let column ← t.spelled a.column
  if t.isPrimaryKeyColumn column then
    throw (.primaryKeyUpdate column)
  else if Text.hasName l.inheritedColumns column then
    throw (.unsupported
      ("moving a row of '" ++ t.name ++ "' to another parent through '" ++ column ++ "'"))
  else
    return (column, ← a.value.constant)

/-- A copy to clear, when columns that refer to it are assigned and one of them is NULL. All of them
have to be assigned, or none. -/
def clearedCopy (assigned : ColumnValues) (embed : Link) : Except WriteError (Option CopyFetch) :=
  let values := embed.columns.filterMap fun column => assigned.find? fun v => Text.same v.1 column
  if values.isEmpty then .ok none
  else if values.length ≠ embed.columns.length then
    .error (.unsupported s!"partial update of the reference '{embed.name}'")
  else if values.any (·.2.isNull) then .ok (some ⟨embed.child, none⟩)
  else .ok none

def refreshedCopies (c : WriteContext σ) (l : Layout) (assigned : ColumnValues) : Planning σ (List CopyFetch) := do
  let cleared ← Attempt.ofExcept (l.embeddedKeys.mapM (clearedCopy assigned))
  let fetched ← c.copyFetches l assigned
  return cleared.filterMap id ++ fetched

def propagation (c : WriteContext σ) (l : Layout) (filter : Document) (change : CopyChange) :
    Planning σ (Option Propagation) :=
  if l.isEmbeddable && c.options.propagateCopies && !l.copyTargets.isEmpty then do
    let patches ← Attempt.ofExcept (c.catalog.copyPatches l change)
    return some {
      keyQuery := {
        collection := l.collection
        pipeline := [
          [("$match", .document filter)], [("$project", .document [("_id", .int32 1)])]] }
      keyColumns := l.primaryKey
      patches := patches }
  else
    pure none

def nestedColumn (c : WriteContext σ) (l : Layout) (column : Column) : Except WriteError NestedColumn := do
  let location ← (c.catalog.locate l.collection l.hops column.name).mapError WriteError.layout
  return ⟨column.name, location, column.type⟩

/-- The documents that may hold rows, reduced to their keys and the field with the rows. -/
def nestedRead (l : Layout) : AggregateRequest :=
  { collection := l.collection
    pipeline := [
      [("$match", .document [(Hop.path l.hops, .document [("$exists", .boolean true)])])],
      [("$project", .document (Document.ofFields
        (("_id", .int32 1) :: (l.hops.head?.toList.map fun h => (h.field, .int32 1)))))]] }

def nested (c : WriteContext σ) (l : Layout) (filter : Option Expression) (action : NestedAction)
    (copies : List CopyFetch) : Planning σ WritePlan := do
  let table ← c.table l.table
  let columns ← Attempt.ofExcept (table.columns.mapM (c.nestedColumn l))
  return .nested {
    table := table.name
    collection := l.collection
    hops := l.hops
    read := nestedRead l
    filter := filter
    columns := columns
    action := action
    copies := copies }

def planUpdate (c : WriteContext σ) (update : Update) : Planning σ WritePlan := do
  let table ← c.table update.table
  let l ← c.layout table.name
  let assigned ← Attempt.ofExcept (update.assignments.mapM (assignment table l))
  if assigned.isEmpty then
    throw (.unsupported "UPDATE without assignments")
  let copies ← c.refreshedCopies l assigned
  let fields ← assigned.mapM c.storeColumn
  if l.isMerged then
    c.nested l update.filter (.update fields) copies
  else
    let filter ← c.standaloneFilter l update.filter
    let copied := fields.filter fun f => !table.isPrimaryKeyColumn f.1
    let propagation ← c.propagation l filter (.set copied)
    return .direct {
      table := table.name
      mutation := .update {
        collection := l.collection, filter := filter, update := Changes.ofAssignments fields }
      copies := copies
      propagation := propagation }

def pull (c : WriteContext σ) (l : Layout) (filter : Option Expression)
    (condition : Option Condition) : Planning σ PullPlan := do
  let hops := l.hops
  let array := Hop.path hops
  let holding : Document :=
    match condition with
    | some q => (Condition.elemMatch array q).toDocument
    | none => [(array, .document [("$exists", .boolean true)])]
  let pulled := (condition.map Condition.toDocument).getD []
  let flattened := ((HopPlan.starts hops).filter fun hs => hs.getLast?.any Hop.isArray).map
    fun hs => ([("$unwind", .string ("$" ++ Hop.path hs))] : Document)
  let full ← c.standaloneFilter l filter
  let tested : List Document := if full.isEmpty then [] else [[("$match", .document full)]]
  return {
    table := l.table
    countQuery := {
      collection := l.collection
      pipeline := flattened ++ tested ++ [[("$count", .string "n")]] }
    mutation := {
      collection := l.collection
      filter := holding
      update := [("$pull", .document [(Hop.allPositions hops, .document pulled)])] } }

/-- A delete of merged rows by one update, if the condition reads nothing but the row. -/
def fastDelete (c : WriteContext σ) (l : Layout) (filter : Option Expression) :
    Planning σ (Option Condition ⊕ Unit) := fun s =>
  match c.condition l filter .element s with
  | (.ok condition, s) => (.ok (.inl condition), s)
  | (.error (.query (.notElementLocal _)), s) => (.ok (.inr ()), s)
  | (.error e, s) => (.error e, s)

def planDelete (c : WriteContext σ) (delete : Delete) : Planning σ WritePlan := do
  let table ← c.table delete.table
  let l ← c.layout table.name
  if !l.isMerged then
    let filter ← c.standaloneFilter l delete.filter
    let propagation ← c.propagation l filter .unset
    return .direct {
      table := table.name
      mutation := .remove l.collection filter
      copies := []
      propagation := propagation }
  else if l.hops.getLast?.any Hop.isArray && c.options.pullFastPath then
    match ← c.fastDelete l delete.filter with
    | .inl condition => return .pull (← c.pull l delete.filter condition)
    | .inr () => c.nested l delete.filter .delete []
  else
    c.nested l delete.filter .delete []

def plan (c : WriteContext σ) : Command → Planning σ WritePlan
  | .insert i => do return .insert (← c.planInsert i)
  | .update u => c.planUpdate u
  | .delete d => c.planDelete d
  | .select _ => throw (.unsupported "SELECT is not a write")

end WriteContext

end Pushdown
