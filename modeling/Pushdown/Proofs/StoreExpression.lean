import Pushdown.Query.Registry
import Pushdown.Proofs.StoreOrder

/-!
# The store's expression language

`compute?`: the value of an expression that is computed for a document. Comparisons have two values: they follow the
order of all values, in which one that is not there and null have their places (`orderMaybe`).
-/

namespace Pushdown

def isMarked (name : String) : Bool := name.toList.head? == some '$'

namespace Bson

mutual

/-- The value at a path, as expressions read it. An array on the way stands for the values that are
found in its items. -/
def read? (names : List String) : Bson → Option Bson
  | .document fields =>
    match names with
    | [] => some (.document fields)
    | name :: names => readField? name names fields
  | .array items =>
    match names with
    | [] => some (.array items)
    | name :: names => some (.array (readItems name names items))
  | b =>
    match names with
    | [] => some b
    | _ :: _ => none

def readField? (name : String) (names : List String) : List (String × Bson) → Option Bson
  | [] => none
  | (key, b) :: fields => if key = name then read? names b else readField? name names fields

def readItems (name : String) (names : List String) : List Bson → List Bson
  | [] => []
  | b :: items =>
    match read? (name :: names) b with
    | some found => found :: readItems name names items
    | none => readItems name names items

end

def orderMaybe : Option Bson → Option Bson → Ordering
  | none, none => .eq
  | none, some b => compare 0 b.rank
  | some a, none => compare a.rank 0
  | some a, some b => order a b

def isTruthy : Option Bson → Bool
  | none => false
  | some b =>
    match b with
    | .null | .undefined => false
    | .boolean b => b
    | .int32 n => n != 0
    | .int64 n => n != 0
    | .double x => x != 0.0
    | _ => true

def comparisonOf? (op : String) : Option MatchOp :=
  [MatchOp.eq, .ne, .lt, .lte, .gt, .gte].find? fun m => m.name == op

/-- The value of an operator for the values of its operands. There is none for operators that are
not used in predicates. -/
def operate? (op : String) (args : List (Option Bson)) : Option Bson :=
  match comparisonOf? op, args with
  | some m, [a, b] => some (.boolean (m.holds (orderMaybe a b)))
  | _, _ =>
    match op, args with
    | "$and", args => some (.boolean (args.all isTruthy))
    | "$or", args => some (.boolean (args.any isTruthy))
    | "$not", [a] => some (.boolean !(isTruthy a))
    | "$in", [a, some (.array items)] => some (.boolean (items.any fun b => orderMaybe a (some b) == .eq))
    | "$ifNull", [a, b] => if a.all isNullish then b else a
    | _, _ => none

mutual

def compute? (root : Bson) : Bson → Option Bson
  | .string s =>
    if isMarked s then read? (Path.split (Path.afterMark s)) root else some (.string s)
  | .array items => some (.array ((computeAll root items).map (·.getD .null)))
  | .document fields => computeFields? root fields
  | b => some b

def computeAll (root : Bson) : List Bson → List (Option Bson)
  | [] => []
  | e :: es => compute? root e :: computeAll root es

def computeFields? (root : Bson) : List (String × Bson) → Option Bson
  | [] => some (.document [])
  | (name, e) :: rest =>
    if name = "$literal" then some e
    else if isMarked name then
      match e with
      | .array args => operate? name (computeAll root args)
      | e => operate? name [compute? root e]
    else
      match computeFields? root rest with
      | some (.document fields) =>
        match compute? root e with
        | some b => some (.document ((name, b) :: fields))
        | none => some (.document fields)
      | _ => none

end

end Bson

end Pushdown
