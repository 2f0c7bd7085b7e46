import Pushdown.Calendar.Text
import Pushdown.Decimal.Notation
import Pushdown.Sql.Type
import Pushdown.Text.Hex
import Pushdown.Text.Quoted

/-!
# Relational values

The values of the relational side, their order, and their SQL literals. Decimals are held as their
text; the store only ever sees them as numbers of double precision.
-/

namespace Pushdown

structure BigInteger where
  val : Int
  lower : -170141183460469231731687303715884105728 ≤ val
  upper : val ≤ 170141183460469231731687303715884105727
deriving DecidableEq

namespace BigInteger

def clamp (n : Int) : BigInteger :=
  ⟨max (-170141183460469231731687303715884105728) (min 170141183460469231731687303715884105727 n),
    by omega, by omega⟩

def ofInt? (n : Int) : Option BigInteger :=
  if h : -170141183460469231731687303715884105728 ≤ n ∧
      n ≤ 170141183460469231731687303715884105727 then
    some ⟨n, h.1, h.2⟩
  else
    none

end BigInteger

inductive Value where
  | null
  | boolean (b : Bool)
  | byte (n : Int8)
  | short (n : Int16)
  | integer (n : Int32)
  | long (n : Int64)
  | float (x : Float32)
  | double (x : Float)
  | bigInteger (n : BigInteger)
  | bigDecimal (text : String)
  | char (c : Char)
  | string (s : String)
  | date (d : Date)
  | time (t : Time)
  | timestamp (t : Timestamp)
  | varbinary (bytes : List UInt8)
  | blob (bytes : List UInt8)
  | clob (s : String)
  | xml (s : String)
  | array (items : List Value)

/-- The order of two floating-point numbers. NaN has no place in it. -/
def compareFloat (x y : Float) : Option Ordering :=
  if x < y then some .lt
  else if x == y then some .eq
  else if y < x then some .gt
  else none

namespace Value

def isNull : Value → Bool
  | .null => true
  | _ => false

mutual

/-- The type of a value. NULL has none, nor has an array without an item that has one. -/
def type? : Value → Option SqlType
  | .null => none
  | .boolean _ => some .boolean
  | .byte _ => some .byte
  | .short _ => some .short
  | .integer _ => some .integer
  | .long _ => some .long
  | .float _ => some .float
  | .double _ => some .double
  | .bigInteger _ => some .bigInteger
  | .bigDecimal _ => some .bigDecimal
  | .char _ => some .char
  | .string _ => some .string
  | .date _ => some .date
  | .time _ => some .time
  | .timestamp _ => some .timestamp
  | .varbinary _ => some .varbinary
  | .blob _ => some .blob
  | .clob _ => some .clob
  | .xml _ => some .xml
  | .array items => (firstType? items).map .array

def firstType? : List Value → Option SqlType
  | [] => none
  | v :: vs =>
    match type? v with
    | some t => some t
    | none => firstType? vs

end

def float? : Value → Option Float
  | .byte n => some (Float.ofInt n.toInt)
  | .short n => some (Float.ofInt n.toInt)
  | .integer n => some (Float.ofInt n.toInt)
  | .long n => some (Float.ofInt n.toInt)
  | .float x => some x.toFloat
  | .double x => some x
  | .bigInteger n => some (Float.ofInt n.val)
  | .bigDecimal text => readFloat? text
  | _ => none

def text? : Value → Option String
  | .char c => some (String.ofList [c])
  | .string s => some s
  | .clob s => some s
  | .xml s => some s
  | _ => none

def bytes? : Value → Option (List UInt8)
  | .varbinary bytes => some bytes
  | .blob bytes => some bytes
  | _ => none

/-- The order of two values of kinds that are neither numeric nor text. A date stands before all
later moments of its day. -/
def compareKinds : Value → Value → Option Ordering
  | .boolean a, .boolean b => some (compare a b)
  | .date a, .date b => some (compare a.day b.day)
  | .time a, .time b => some (a.compare b)
  | .timestamp a, .timestamp b => some (a.compare b)
  | .date a, .timestamp b => some (Timestamp.compare ⟨a, .midnight⟩ b)
  | .timestamp a, .date b => some (a.compare ⟨b, .midnight⟩)
  | a, b =>
    match a.bytes?, b.bytes? with
    | some xs, some ys => some (List.compareLex compare xs ys)
    | _, _ => none

/-- The order of two values: numbers across widths, texts across kinds, moments with moments, bytes
with bytes. Other pairs, and pairs with NULL, are not comparable. -/
def compare? (a b : Value) : Option Ordering :=
  match a.float?, b.float? with
  | some x, some y => compareFloat x y
  | _, _ =>
    match a.text?, b.text? with
    | some s, some t => some (compare s t)
    | _, _ => compareKinds a b

mutual

def literal : Value → String
  | .null => "NULL"
  | .boolean b => if b then "TRUE" else "FALSE"
  | .byte n => toString n.toInt
  | .short n => toString n.toInt
  | .integer n => toString n.toInt
  | .long n => toString n.toInt
  | .float x => NumberStyle.literal.text (.ofFloat32 x)
  | .double x => NumberStyle.literal.text (.ofFloat x)
  | .bigInteger n => toString n.val
  | .bigDecimal text => text
  | .char c => Text.quoted '\'' (String.ofList [c])
  | .string s => Text.quoted '\'' s
  | .clob s => Text.quoted '\'' s
  | .xml s => Text.quoted '\'' s
  | .date d => "DATE '" ++ d.text ++ "'"
  | .time t => "TIME '" ++ t.text ++ "'"
  | .timestamp t => "TIMESTAMP '" ++ t.text " " ++ "'"
  | .varbinary bytes => "X'" ++ Text.hexUpper bytes ++ "'"
  | .blob bytes => "X'" ++ Text.hexUpper bytes ++ "'"
  | .array items => "[" ++ literals items ++ "]"

def literals : List Value → String
  | [] => ""
  | [v] => literal v
  | v :: vs => literal v ++ ", " ++ literals vs

end

end Value

end Pushdown
