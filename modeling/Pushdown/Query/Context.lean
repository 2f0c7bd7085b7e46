import Pushdown.Layout.Location
import Pushdown.Options
import Pushdown.Query.Placement
import Pushdown.Query.Registry
import Pushdown.Sql.Printer

/-!
# Contexts

What expressions are compiled against: the tables they may read and where these lie, and what has
been met so far.
-/

namespace Pushdown

inductive Mode where
  /-- In a pipeline, where computed predicates can be computed ahead of the match. -/
  | pipeline
  | standalone
  | element
deriving DecidableEq

inductive Scope where
  /-- Fields of the stored document. -/
  | raw
  /-- Grouping keys and aggregates. -/
  | grouped
deriving DecidableEq

structure Context (σ : Type) where
  catalog : Catalog
  top : String
  sources : List Source
  objects : LargeObjects σ
  options : Options := {}
  mode : Mode

inductive AccumulatorFunction where
  | sum
  | avg
  | min
  | max
deriving DecidableEq

/-- An aggregate computed while grouping, and the field that it is given out under. -/
structure Accumulator where
  name : String
  function : AccumulatorFunction
  arg : Bson

/-- What has been met so far, and the state of the store of large objects. -/
structure Draft (σ : Type) where
  registry : Registry := []
  /-- Predicates to be computed ahead of the match, under the fields they are computed into. -/
  helperFields : List (String × Bson) := []
  accumulators : List Accumulator := []
  objects : σ

abbrev Compiling (σ α : Type) := Attempt (Draft σ) QueryError α

structure ResolvedColumn where
  path : String
  type : SqlType
deriving DecidableEq

namespace Context

variable {σ : Type}

def hasColumn (c : Context σ) (column : String) (s : Source) : Except QueryError Bool := do
  let t ← (c.catalog.table s.table).mapError .layout
  return (t.column? column).isSome

def sourceOf (c : Context σ) (ref : ColumnRef) : Except QueryError Source :=
  if !ref.table.isEmpty then
    match c.sources.find? fun s => Text.same s.name ref.table with
    | some s => .ok s
    | none => .error (.unknownSource ref.table)
  else do
    match ← c.sources.filterM (c.hasColumn ref.column) with
    | [s] => return s
    | [] => throw (.unknownColumn ref.column)
    | _ => throw (.ambiguousColumn ref.column)

def resolve (c : Context σ) (ref : ColumnRef) : Except QueryError ResolvedColumn := do
  let s ← c.sourceOf ref
  let t ← (c.catalog.table s.table).mapError .layout
  match t.column? ref.column with
  | none => throw (.unknownColumn ref.column)
  | some column =>
    let l ← (c.catalog.locate c.top s.hops ref.column).mapError .layout
    match c.mode with
    | .element =>
      if l.depth = s.hops.length then return ⟨l.field, column.type⟩
      else throw (.notElementLocal ref.column)
    | _ => return ⟨l.path s.hops, column.type⟩

def store (c : Context σ) (v : Value) : Compiling σ Bson :=
  ((v.toStored c.objects).failingAs QueryError.conversion).within (·.objects)
    fun d s => { d with objects := s }

/-- Marks a constant as one. -/
def wrapLiteral (c : Context σ) (b : Bson) : Except QueryError Bson :=
  if c.options.literalExpressions then .ok (.op "$literal" b)
  else
    .error (.unsupported ("the constant " ++ b.text ++ " cannot be expressed without $literal"))

end Context

namespace Compiling

variable {σ : Type}

def groupedPath? (fingerprint : String) : Compiling σ (Option String) := do
  return (← get).registry.groupedPath? fingerprint

def updateRegistry (f : Registry → Registry) : Compiling σ Unit :=
  modify fun d => { d with registry := f d.registry }

end Compiling

end Pushdown
