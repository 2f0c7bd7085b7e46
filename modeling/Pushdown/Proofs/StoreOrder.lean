import Pushdown.Condition
import Pushdown.Sql.Value

/-!
# The order of stored values

`order`: the store orders all values, first by kind (`rank`), then within a kind. Numbers are one kind, whatever
their width, and are ordered by what they stand for; NaN comes before all others (`orderFloat`). A value that is not
there comes before null, and null before every value of a kind that columns have.
-/

namespace Pushdown

def MatchOp.holds : MatchOp → Ordering → Bool
  | .eq, o => o == .eq
  | .ne, o => o != .eq
  | .lt, o => o == .lt
  | .lte, o => o != .gt
  | .gt, o => o == .gt
  | .gte, o => o != .lt

theorem MatchOp.holds_negate (op : MatchOp) (o : Ordering) : op.negate.holds o = !op.holds o := by
  cases op <;> cases o <;> rfl

namespace Bson

def rank : Bson → Int
  | .minKey => -1
  | .undefined => 0
  | .null => 5
  | .int32 _ | .int64 _ | .double _ => 10
  | .string _ | .symbol _ => 15
  | .document _ => 20
  | .array _ => 25
  | .binary .. => 30
  | .objectId _ => 35
  | .boolean _ => 40
  | .dateTime _ => 45
  | .timestamp .. => 47
  | .regex .. => 50
  | .javaScript _ => 60
  | .maxKey => 127

def isNaN : Bson → Bool
  | .double x => x.isNaN
  | _ => false

def isArray : Bson → Bool
  | .array _ => true
  | _ => false

def isNullish (b : Bson) : Bool := b.rank == 0 || b.rank == 5

/-- The order of two numbers of double precision, with NaN before all others. -/
def orderFloat (x y : Float) : Ordering :=
  match compareFloat x y with
  | some o => o
  | none => if x.isNaN then (if y.isNaN then .eq else .lt) else .gt

/-- The order of an integer and a number of double precision. Integers of at most 53 bits have an
exact counterpart of double precision; beyond them such numbers have no fraction. -/
def orderIntFloat (n : Int) (x : Float) : Ordering :=
  if x.isNaN then .gt
  else if -9007199254740992 ≤ n ∧ n ≤ 9007199254740992 then orderFloat (Float.ofInt n) x
  else
    match BinaryReal.ofFloat x with
    | .infinite negative => if negative then .gt else .lt
    | r => compare n (r.truncate?.getD 0)

def whole? : Bson → Option Int
  | .int32 n => some n.toInt
  | .int64 n => some n.toInt
  | _ => none

/-- The order of two values of one kind, where that kind is not made of other values. -/
def orderScalars (a b : Bson) : Ordering :=
  match a, b with
  | .double x, .double y => orderFloat x y
  | .double x, b => (orderIntFloat (b.whole?.getD 0) x).swap
  | a, .double y => orderIntFloat (a.whole?.getD 0) y
  | .string s, .string t => compare s t
  | .string s, .symbol t => compare s t
  | .symbol s, .string t => compare s t
  | .symbol s, .symbol t => compare s t
  | .binary t xs, .binary u ys =>
    ((compare xs.length ys.length).then (compare t u)).then (List.compareLex compare xs ys)
  | .objectId xs, .objectId ys => List.compareLex compare xs ys
  | .boolean x, .boolean y => compare x y
  | .dateTime m, .dateTime n => compare m.toInt n.toInt
  | .timestamp t i, .timestamp u j => (compare t u).then (compare i j)
  | .regex p o, .regex q u => (compare p q).then (compare o u)
  | .javaScript s, .javaScript t => compare s t
  | a, b => compare (a.whole?.getD 0) (b.whole?.getD 0)

mutual

def order : Bson → Bson → Ordering
  | .array as, .array bs => orderItems as bs
  | .document fs, .document gs => orderFields fs gs
  | a, b => (compare a.rank b.rank).then (orderScalars a b)

def orderItems : List Bson → List Bson → Ordering
  | [], [] => .eq
  | [], _ :: _ => .lt
  | _ :: _, [] => .gt
  | a :: as, b :: bs => (order a b).then (orderItems as bs)

/-- Documents are ordered field by field: by kind, then by name, then by value. -/
def orderFields : List (String × Bson) → List (String × Bson) → Ordering
  | [], [] => .eq
  | [], _ :: _ => .lt
  | _ :: _, [] => .gt
  | (j, a) :: fs, (k, b) :: gs =>
    (((compare a.rank b.rank).then (compare j k)).then (order a b)).then (orderFields fs gs)

end

end Bson

end Pushdown
