import Pushdown.Condition
import Pushdown.Query.Context

/-!
# Pipelines

A compiled query, with one field for each position among its stages, and the stages as the store
reads them.
-/

namespace Pushdown

inductive GroupKeys where
  | none
  | single (key : Bson)
  | compound (keys : List (String × Bson))

structure Group where
  keys : GroupKeys
  accumulators : List Accumulator

inductive ProjectedField where
  | keep
  | computed (e : Bson)

structure Projection where
  fields : List (String × ProjectedField)
  /-- Leaves `_id` out, which is kept otherwise. -/
  excludeId : Bool

structure SortKey where
  path : String
  ascending : Bool
deriving DecidableEq

structure Pipeline where
  collection : String
  prestages : Prestages := []
  /-- Present when the filter tests computed values, which are computed here. -/
  earlyProjection : Option Projection := none
  filter : Option Condition := none
  group : Option Group := none
  having : Option Condition := none
  projection : Option Projection := none
  sort : List SortKey := []
  skip : Option Int64 := none
  limit : Option Int64 := none

def GroupKeys.toBson : GroupKeys → Bson
  | .none => .null
  | .single key => key
  | .compound keys => .document (Document.ofFields keys)

def AccumulatorFunction.operator : AccumulatorFunction → String
  | .sum => "$sum"
  | .avg => "$avg"
  | .min => "$min"
  | .max => "$max"

namespace Group

def toDocument (g : Group) : Document :=
  g.accumulators.foldl (fun d a => Document.insert d a.name (.op a.function.operator a.arg))
    [("_id", g.keys.toBson)]

end Group

def ProjectedField.toBson : ProjectedField → Bson
  | .keep => .int32 1
  | .computed e => e

namespace Projection

def toDocument (p : Projection) : Document :=
  p.fields.foldl (fun d f => Document.insert d f.1 f.2.toBson)
    (if p.excludeId then [("_id", .int32 0)] else [])

end Projection

namespace SortKey

def toDocument (keys : List SortKey) : Document :=
  Document.ofFields (keys.map fun k => (k.path, .int32 (if k.ascending then 1 else -1)))

end SortKey

namespace Pipeline

def stage? {α : Type} (op : String) (f : α → Bson) (part : Option α) : List Document :=
  match part with
  | some a => [[(op, f a)]]
  | none => []

def stages (p : Pipeline) : List Document :=
  p.prestages.map Prestage.toDocument
    ++ stage? "$project" (fun q => .document q.toDocument) p.earlyProjection
    ++ stage? "$match" (fun q => .document q.toDocument) p.filter
    ++ stage? "$group" (fun g => .document g.toDocument) p.group
    ++ stage? "$match" (fun q => .document q.toDocument) p.having
    ++ stage? "$project" (fun q => .document q.toDocument) p.projection
    ++ (if p.sort.isEmpty then [] else [[("$sort", .document (SortKey.toDocument p.sort))]])
    ++ stage? "$skip" .int64 p.skip
    ++ stage? "$limit" .int64 p.limit

end Pipeline

end Pushdown
