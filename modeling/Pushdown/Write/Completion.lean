import Pushdown.Write.Evaluation
import Pushdown.Write.Plan
import Pushdown.Write.Row

/-!
# Completion of nested writes

The second phase of a write to merged rows: of the documents that were read, the rows that the
filter accepts are written by their positions, or taken out of the arrays that hold them.
-/

namespace Pushdown

namespace NestedWrite

def columnValue (w : NestedWrite) (fetch : String → Except StoreError (List UInt8)) (r : Row)
    (ref : ColumnRef) : Except WriteError Value :=
  if !ref.table.isEmpty && !Text.same ref.table w.table then
    .error (.query (.unknownSource ref.table))
  else
    match w.columns.find? fun c => Text.same c.name ref.column with
    | none => .error (.unknownColumn w.table ref.column)
    | some column =>
      match r.valueAt? column.location.depth column.location.field with
      | some b => (Value.ofStored fetch column.type b).mapError .conversion
      | none => .ok .null

def selects (w : NestedWrite) (fetch : String → Except StoreError (List UInt8)) (r : Row) : Except WriteError Bool :=
  match w.filter with
  | some e => e.accepts (w.columnValue fetch r)
  | none => .ok true

structure Selected where
  row : Row
  chosen : Bool

def selection (w : NestedWrite) (fetch : String → Except StoreError (List UInt8)) (d : Document) :
    Except WriteError (List Selected) :=
  ((Row.ofTop w.collection d).walk w.hops).mapM fun r => do
    return ⟨r, ← w.selects fetch r⟩

def updateChanges (fields : List (String × Bson)) (copies : List ResolvedCopy) (rows : List Selected) : Changes :=
  (rows.filter (·.chosen)).foldl
    (fun changes s =>
      let path := s.row.positionalPath
      Changes.writeCopies
        (fields.foldl (fun changes f => changes.assignOrClear (path ++ "." ++ f.1) f.2) changes)
        path copies)
    []

/-- Clears the chosen rows that are the only ones of their kind in the rows that hold them. -/
def clearSingle (rows : List Selected) : Changes :=
  (rows.filter fun s => s.chosen && s.row.index?.isNone).foldl
    (fun changes s => changes.clear s.row.positionalPath) []

def containers (rows : List Selected) : List String :=
  ((rows.filter (·.row.index?.isSome)).map (·.row.containerPath)).eraseDups

/-- Replaces the array at `path` by its rows that are not chosen, if some are. -/
def shrinkArray (rows : List Selected) (changes : Changes) (path : String) : Changes :=
  let held := rows.filter fun s => s.row.index?.isSome && s.row.containerPath == path
  if held.any (·.chosen) then
    changes.assign path (.array ((held.filter (!·.chosen)).map fun s => .document s.row.row))
  else
    changes

def deleteChanges (rows : List Selected) : Changes :=
  (containers rows).foldl (shrinkArray rows) (clearSingle rows)

def changes (w : NestedWrite) (copies : List ResolvedCopy) (rows : List Selected) : Changes :=
  match w.action with
  | .update fields => updateChanges fields copies rows
  | .delete => deleteChanges rows

structure Completed where
  updates : List UpdateRequest
  affected : Nat

/-- The update of one document. One without an `_id` cannot be addressed and is passed over. -/
def completeDocument (w : NestedWrite) (fetch : String → Except StoreError (List UInt8))
    (copies : List ResolvedCopy) (d : Document) : Except WriteError Completed :=
  match Document.get? d "_id" with
  | none => .ok ⟨[], 0⟩
  | some id => do
    let rows ← w.selection fetch d
    let changes := w.changes copies rows
    return {
      updates :=
        if changes.isEmpty then []
        else [{ collection := w.collection, filter := [("_id", id)], update := changes
                multi := false }]
      affected := rows.countP (·.chosen) }

def complete (w : NestedWrite) (fetch : String → Except StoreError (List UInt8))
    (copies : List ResolvedCopy) (documents : List Document) : Except WriteError Completed := do
  let parts ← documents.mapM (w.completeDocument fetch copies)
  return ⟨parts.flatMap (·.updates), (parts.map (·.affected)).foldr (· + ·) 0⟩

end NestedWrite

end Pushdown
