import Pushdown.Decimal.Notation
import Pushdown.Decimal.Reading

/-!
# JSON values

The tree of a JSON text, and the shapes that the library's own formats are made of: a *record* has
named fields, and may also be given as the array of their values in order; a *variant* is a name, or
an object whose only field carries what belongs to it.
-/

namespace Pushdown

/-- A JSON value. A number is kept as it is written, an object in the order of its fields. -/
inductive Json where
  | null
  | bool (b : Bool)
  | number (text : String)
  | string (s : String)
  | array (items : List Json)
  | object (fields : List (String × Json))
deriving Inhabited

namespace Json

mutual

def depth : Json → Nat
  | .array items => depthItems items + 1
  | .object fields => depthFields fields + 1
  | _ => 0

def depthItems : List Json → Nat
  | [] => 0
  | j :: js => max (depth j) (depthItems js)

def depthFields : List (String × Json) → Nat
  | [] => 0
  | (_, j) :: js => max (depth j) (depthFields js)

end

mutual

/-- The value with the arrays and objects below `levels` levels of nesting cut off. In their place
stands a number without digits, which no reader takes for anything. -/
def cutBelow : Nat → Json → Json
  | _, .null => .null
  | _, .bool b => .bool b
  | _, .number text => .number text
  | _, .string s => .string s
  | 0, .array _ => .number ""
  | 0, .object _ => .number ""
  | levels + 1, .array items => .array (cutItems levels items)
  | levels + 1, .object fields => .object (cutFields levels fields)

def cutItems : Nat → List Json → List Json
  | _, [] => []
  | levels, j :: js => cutBelow levels j :: cutItems levels js

def cutFields : Nat → List (String × Json) → List (String × Json)
  | _, [] => []
  | levels, (name, j) :: js => (name, cutBelow levels j) :: cutFields levels js

end

/-- How deep the arrays and objects of a text may be nested where they are read. -/
def nestingLimit : Nat := 127

/-- What `f` reads from a value. It fails on parts that are nested too deep, unless it passes over
them. -/
def read? {α : Type} (f : Json → Option α) (j : Json) : Option α := f (j.cutBelow nestingLimit)

def ofInt (n : Int) : Json := .number (toString n)

def ofStrings (ss : List String) : Json := .array (ss.map .string)

/-- A floating-point number. JSON has no infinities and no NaN; `null` stands for them. -/
def ofFloat (x : Float) : Json :=
  if x.isFinite then .number (NumberStyle.jsonDouble.text (.ofFloat x)) else .null

def ofFloat32 (x : Float32) : Json :=
  if x.isFinite then .number (NumberStyle.jsonSingle.text (.ofFloat32 x)) else .null

def ofOption {α : Type} (f : α → Json) : Option α → Json
  | none => .null
  | some a => f a

def field? (name : String) : Json → Option Json
  | .object fields => List.lookup name fields
  | _ => none

def bool? : Json → Option Bool
  | .bool b => some b
  | _ => none

def string? : Json → Option String
  | .string s => some s
  | _ => none

def char? : Json → Option Char
  | .string s =>
    match s.toList with
    | [c] => some c
    | _ => none
  | _ => none

def isNegative : Json → Bool
  | .number text => (splitSign text.toList).1
  | _ => false

/-- A number written as an integer, without fraction or exponent. -/
def int? : Json → Option Int
  | .number text => readInt? text
  | _ => none

/-- An integer from `low` to `high`, as the types of at most 64 bits take it. A negative zero is a
floating-point number to them. -/
def intWithin? (low high : Int) (j : Json) : Option Int :=
  match j.int? with
  | some n => if j.isNegative && n == 0 then none else if low ≤ n ∧ n ≤ high then some n else none
  | none => none

def float? : Json → Option Float
  | .number text =>
    match readFloat? text with
    | some x => if x.isFinite then some x else none
    | none => none
  | _ => none

/-- The finite number of single precision nearest to a JSON number. A negative integer that fits in
64 bits only without its sign is rounded to double precision first. -/
def float32? (j : Json) : Option Float32 :=
  let x :=
    match j.intWithin? (-18446744073709551615) (-9223372036854775809) with
    | some _ => j.float?.map Float.toFloat32
    | none =>
      match j with
      | .number text => readFloat32? text
      | _ => none
  x.filter Float32.isFinite

def list? {α : Type} (f : Json → Option α) : Json → Option (List α)
  | .array items => items.mapM f
  | _ => none

def option? {α : Type} (f : Json → Option α) : Json → Option (Option α)
  | .null => some none
  | j => (f j).map some

/-- The fields of a record in the order of `names`, those that are left out as nothing. A record is
an object, where fields of other names are passed over, or an array with no more items than
names. -/
def record? (names : List String) : Json → Option (List (Option Json))
  | .object fields => some (names.map fun name => List.lookup name fields)
  | .array items =>
    if items.length ≤ names.length then
      some (items.map some ++ List.replicate (names.length - items.length) none)
    else
      none
  | _ => none

def required {α : Type} (f : Json → Option α) : Option Json → Option α
  | some j => f j
  | none => none

def defaulted {α : Type} (value : α) (f : Json → Option α) : Option Json → Option α
  | some j => f j
  | none => some value

def variant? : Json → Option (String × Option Json)
  | .string name => some (name, none)
  | .object [(name, payload)] => some (name, some payload)
  | _ => none

def plain? {α : Type} (value : α) : Option Json → Option α
  | none => some value
  | some .null => some value
  | some _ => none

def named? {α : Type} (name : α → String) (all : List α) (j : Json) : Option α :=
  match j.variant? with
  | some (text, payload) => (all.find? (name · == text)).bind (plain? · payload)
  | none => none

def tagged (name : String) (payload : Json) : Json := .object [(name, payload)]

end Json

end Pushdown
