import Pushdown.Layout.Location
import Pushdown.Sql.Expression
import Pushdown.Store.Basic

/-!
# Write plans

A write is planned without a look at the stored documents. A plan says what to read first, and how
the mutations follow from what was read.
-/

namespace Pushdown

/-- A copy to be fetched before a row is written. Without a source the copy is cleared. -/
structure CopyFetch where
  field : String
  /-- The collection of the row to copy, and the condition that finds it. -/
  source : Option (String × Document)

/-- A fetched copy; none when there is no such row or the copy is cleared. -/
structure ResolvedCopy where
  field : String
  document : Option Document

/-- Changes to a document, as the operators of an update with the paths they apply to. -/
abbrev Changes := Document

namespace Changes

def clear (changes : Changes) (path : String) : Changes :=
  Document.insertUnder changes "$unset" path (.string "")

def assign (changes : Changes) (path : String) (value : Bson) : Changes :=
  Document.insertUnder changes "$set" path value

/-- Replaces the field at `path`, or removes it when the value is null. -/
def assignOrClear (changes : Changes) (path : String) (value : Bson) : Changes :=
  if value.isNull then clear changes path else assign changes path value

def writeCopies (changes : Changes) (path : String) (copies : List ResolvedCopy) : Changes :=
  copies.foldl
    (fun changes copy =>
      match copy.document with
      | some d => assign changes (Path.extend path copy.field) (.document d)
      | none => clear changes (Path.extend path copy.field))
    changes

def operator (op : String) (fields : Document) : Changes :=
  if fields.isEmpty then [] else [(op, .document fields)]

/-- All assignments: first the fields that are replaced, then those that are removed. -/
def ofAssignments (fields : List (String × Bson)) : Changes :=
  operator "$set" (Document.ofFields (fields.filter (!·.2.isNull))) ++
    operator "$unset"
      (Document.ofFields ((fields.filter (·.2.isNull)).map fun f => (f.1, .string "")))

end Changes

inductive InsertTarget where
  | collection (name : String)
  /-- Into the row that holds it: at the end of an array, or as its only sub-document. -/
  | parent (collection : String) (filter : Document) (path : String) (arrayFilters : List Document)
      (many : Bool)

structure InsertRow where
  target : InsertTarget
  row : Document
  copies : List CopyFetch

namespace InsertRow

def withCopies (row : Document) (copies : List ResolvedCopy) : Document :=
  copies.foldl
    (fun row copy =>
      match copy.document with
      | some d => Document.insert row copy.field (.document d)
      | none => row)
    row

def mutation (r : InsertRow) (copies : List ResolvedCopy) : Mutation :=
  let row := withCopies r.row copies
  match r.target with
  | .collection name => .insert name row
  | .parent collection filter path arrayFilters many =>
    .update {
      collection := collection
      filter := filter
      update := [(if many then "$push" else "$set", .document [(path, .document row)])]
      arrayFilters := arrayFilters
      multi := false }

end InsertRow

structure InsertPlan where
  table : String
  rows : List InsertRow
  /-- The key column that the store assigns, with its type. -/
  generatedKey : Option (String × SqlType)

inductive CopyChange where
  /-- New values by column; null clears the field. -/
  | set (fields : List (String × Bson))
  /-- The row is gone, and so are its copies. -/
  | unset

structure CopyPatch where
  collection : String
  /-- The paths of the referring columns, in the order of the key of the copied table. -/
  keyPaths : List String
  copyPath : String
  /-- The identifier in `copyPath` and the paths of the referring columns below the elements it
  stands for, when the copies lie in an array. -/
  arrayFilter : Option (String × List String)
  change : CopyChange

namespace CopyPatch

def changes (p : CopyPatch) : Changes :=
  match p.change with
  | .set fields => Changes.ofAssignments (fields.map fun f => (p.copyPath ++ "." ++ f.1, f.2))
  | .unset => [("$unset", .document [(p.copyPath, .string "")])]

def arrayFilters (p : CopyPatch) (key : List Bson) : List Document :=
  match p.arrayFilter with
  | some (identifier, fields) =>
    [Document.ofFields ((fields.map fun f => identifier ++ "." ++ f).zip key)]
  | none => []

def mutation (p : CopyPatch) (key : List Bson) : Mutation :=
  .update {
    collection := p.collection
    filter := Document.ofFields (p.keyPaths.zip key)
    update := p.changes
    arrayFilters := p.arrayFilters key }

end CopyPatch

structure Propagation where
  keyQuery : AggregateRequest
  keyColumns : List String
  patches : List CopyPatch

structure DirectPlan where
  table : String
  mutation : Mutation
  copies : List CopyFetch
  propagation : Option Propagation

def DirectPlan.withCopies (p : DirectPlan) (copies : List ResolvedCopy) : Mutation :=
  match p.mutation with
  | .update u => .update { u with update := Changes.writeCopies u.update "" copies }
  | m => m

structure PullPlan where
  table : String
  countQuery : AggregateRequest
  mutation : UpdateRequest

inductive NestedAction where
  /-- New values by field; null clears the field. -/
  | update (fields : List (String × Bson))
  | delete

structure NestedColumn where
  name : String
  location : Location
  type : SqlType

/-- An UPDATE or DELETE of merged rows in two phases: the top-level documents that may hold such
rows are read, and the rows are then selected here and written by their positions. -/
structure NestedWrite where
  table : String
  collection : String
  hops : List Hop
  read : AggregateRequest
  filter : Option Expression
  columns : List NestedColumn
  action : NestedAction
  copies : List CopyFetch

inductive WritePlan where
  | insert (plan : InsertPlan)
  | direct (plan : DirectPlan)
  | pull (plan : PullPlan)
  | nested (plan : NestedWrite)

end Pushdown
