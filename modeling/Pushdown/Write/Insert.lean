import Pushdown.Options
import Pushdown.Sql.Printer
import Pushdown.Write.Address

/-!
# Planned inserts

The stored form of new rows: the row's own key in `_id`, every other column under its name unless
it is NULL. The columns that link a merged row to the row that holds it are not stored again.
-/

namespace Pushdown

abbrev ColumnValues := List (String × Value)

/-- The value of a column; none when there is none or it is NULL. -/
def ColumnValues.value? (values : ColumnValues) (column : String) : Option Value :=
  match values.find? fun v => Text.same v.1 column with
  | some (_, v) => if v.isNull then none else some v
  | none => none

def Expression.constant : Expression → Except WriteError Value
  | .literal v => .ok v
  | e => .error (.nonLiteralValue e.sql)

def Table.spelled (t : Table) (column : String) : Except WriteError String :=
  match t.column? column with
  | some c => .ok c.name
  | none => .error (.unknownColumn t.name column)

/-- A step in the planning of a write, over the state of the store of large objects. -/
abbrev Planning (σ α : Type) := Attempt σ WriteError α

structure WriteContext (σ : Type) where
  catalog : Catalog
  options : Options := {}
  objects : LargeObjects σ

namespace WriteContext

variable {σ : Type}

def table (c : WriteContext σ) (name : String) : Planning σ Table :=
  Attempt.ofExcept ((c.catalog.table name).mapError .layout)

def layout (c : WriteContext σ) (name : String) : Planning σ Layout :=
  Attempt.ofExcept ((c.catalog.layout name).mapError .layout)

def store (c : WriteContext σ) (v : Value) : Planning σ Bson :=
  (v.toStored c.objects).failingAs .conversion

def storeColumn (c : WriteContext σ) (v : String × Value) : Planning σ (String × Bson) := do
  return (v.1, ← c.store v.2)

/-- The `_id` of a row, when its key is complete. A row of a merged table has to have one. -/
def rowId (c : WriteContext σ) (l : Layout) (values : ColumnValues) : Planning σ (Option Bson) :=
  if l.idColumns.isEmpty then
    pure none
  else
    match l.idColumns.mapM values.value? with
    | some key => do
      return some (← (Value.toKey c.objects l.idColumns key).failingAs .conversion)
    | none => if l.isMerged then throw (.missingKey l.table) else pure none

def hasOwnField (l : Layout) (v : String × Value) : Bool :=
  !v.2.isNull && !Text.hasName l.idColumns v.1 && !Text.hasName l.inheritedColumns v.1

def rowDocument (c : WriteContext σ) (l : Layout) (values : ColumnValues) : Planning σ Document := do
  let id ← c.rowId l values
  let fields ← (values.filter (hasOwnField l)).mapM c.storeColumn
  return Document.ofFields ((id.toList.map fun b => ("_id", b)) ++ fields)

def referringValue (embed : Link) (parts : List Value) (keyColumn : String) : Except WriteError Value :=
  match (embed.referencedColumns.findIdx? (Text.same · keyColumn)).bind (parts[·]?) with
  | some v => .ok v
  | none =>
    .error (.unsupported
      s!"reference '{embed.name}' does not use the primary key of '{embed.child}'")

def copyFetch (c : WriteContext σ) (values : ColumnValues) (embed : Link) : Planning σ (Option CopyFetch) :=
  match embed.columns.mapM values.value? with
  | none => pure none
  | some parts => do
    let referenced ← c.layout embed.child
    let key ← referenced.primaryKey.mapM fun column => do
      c.store (← Attempt.ofExcept (referringValue embed parts column))
    return some {
      field := embed.child
      source :=
        some (referenced.collection, [("_id", keyOfParts referenced.primaryKey key)]) }

def copyFetches (c : WriteContext σ) (l : Layout) (values : ColumnValues) : Planning σ (List CopyFetch) := do
  let fetches ← l.embeddedKeys.mapM (c.copyFetch values)
  return fetches.filterMap id

def parentKey (c : WriteContext σ) (l : Layout) (merge : Link) (values : ColumnValues) :
    Planning σ (List (String × Bson)) :=
  (merge.columns.zip merge.referencedColumns).mapM fun (column, referenced) =>
    match values.value? column with
    | some v => c.storeColumn (referenced, v)
    | none => throw (.missingParentKey l.table)

def insertTarget (c : WriteContext σ) (l : Layout) (values : ColumnValues) : Planning σ InsertTarget :=
  match l.mergeKey? with
  | none => pure (.collection l.collection)
  | some merge => do
    let key ← c.parentKey l merge values
    let address ← Attempt.ofExcept (c.catalog.locateParent l.collection l.hops.dropLast key)
    return .parent l.collection address.filter (Path.extend address.path l.table)
      address.arrayFilters (merge.association == .many)

def insertRow (c : WriteContext σ) (l : Layout) (values : ColumnValues) : Planning σ InsertRow := do
  let row ← c.rowDocument l values
  let copies ← c.copyFetches l values
  let target ← c.insertTarget l values
  return ⟨target, row, copies⟩

def rowValues (columns : List String) (row : List Expression) : Except WriteError ColumnValues :=
  if row.length = columns.length then do
    return columns.zip (← row.mapM Expression.constant)
  else
    .error (.columnCount columns.length row.length)

def planInsert (c : WriteContext σ) (insert : Insert) : Planning σ InsertPlan := do
  let table ← c.table insert.table
  let l ← c.layout table.name
  let columns ← Attempt.ofExcept (insert.columns.mapM table.spelled)
  let generated := table.generatedKeyColumn?.filter fun k => !Text.hasName columns k.name
  if generated.isSome && l.isMerged then
    throw (.unsupported s!"generated keys for the merged table '{table.name}'")
  let rows ← insert.rows.mapM fun row => do
    c.insertRow l (← Attempt.ofExcept (rowValues columns row))
  return {
    table := table.name, rows := rows, generatedKey := generated.map fun k => (k.name, k.type) }

end WriteContext

end Pushdown
