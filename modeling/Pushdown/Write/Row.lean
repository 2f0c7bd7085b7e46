import Pushdown.Bson.Path
import Pushdown.Layout.Basic

/-!
# Rows inside documents

A row of a merged table lies inside a fetched top-level document: below a field of the row that
holds it, and at a position when that field is an array.
-/

namespace Pushdown

structure RowStep where
  table : String
  field : String
  index : Option Nat
  row : Document

/-- A row inside a top-level document, with the steps that lead down to it. -/
structure Row where
  topTable : String
  top : Document
  steps : List RowStep

namespace Row

def ofTop (table : String) (document : Document) : Row := ⟨table, document, []⟩

def table (r : Row) : String := ((r.steps.getLast?).map (·.table)).getD r.topTable

def row (r : Row) : Document := ((r.steps.getLast?).map (·.row)).getD r.top

/-- The field that holds the row; the top-level document is held by none. -/
def field? (r : Row) : Option String := (r.steps.getLast?).map (·.field)

def index? (r : Row) : Option Nat := (r.steps.getLast?).bind (·.index)

def ancestor (r : Row) (depth : Nat) : Row := { r with steps := r.steps.take depth }

def holder? (r : Row) : Option Row :=
  if r.steps.isEmpty then none else some (r.ancestor (r.steps.length - 1))

def lineage (r : Row) : List Row := (List.range (r.steps.length + 1)).map r.ancestor

def below (r : Row) (step : RowStep) : Row := { r with steps := r.steps ++ [step] }

/-- The nested rows among the items of an array, with their positions from `start` on. -/
def arrayRows (hop : Hop) : Nat → List Bson → List RowStep
  | _, [] => []
  | start, .document d :: items =>
    ⟨hop.link.child, hop.field, some start, d⟩ :: arrayRows hop (start + 1) items
  | start, _ :: items => arrayRows hop (start + 1) items

/-- The rows one hop below a row. A missing field holds none. -/
def children (hop : Hop) (r : Row) : List Row :=
  match Document.get? r.row hop.field with
  | some (.array items) => (arrayRows hop 0 items).map r.below
  | some (.document d) => [r.below ⟨hop.link.child, hop.field, none, d⟩]
  | _ => []

def walk (r : Row) (hops : List Hop) : List Row :=
  hops.foldl (fun rows hop => rows.flatMap (children hop)) [r]

def topId? (r : Row) : Option Bson := Document.get? r.top "_id"

def stepPath (path : String) (s : RowStep) : String :=
  let field := Path.extend path s.field
  match s.index with
  | some i => field ++ "." ++ toString i
  | none => field

def positionalPath (r : Row) : String := r.steps.foldl stepPath ""

/-- The path of the field that holds the row, without its own position. -/
def containerPath (r : Row) : String :=
  match r.steps.getLast? with
  | some s => Path.extend (r.ancestor (r.steps.length - 1)).positionalPath s.field
  | none => ""

def valueAt? (r : Row) (depth : Nat) (path : String) : Option Bson :=
  if depth ≤ r.steps.length then Document.atPath? (r.ancestor depth).row path else none

end Row

end Pushdown
