import Pushdown.Decimal.Rounding

/-!
# Reading numbers

Decimal texts as integers and as floating-point numbers. A decimal is rounded to the nearest
floating-point number; one that is too large becomes infinite.
-/

namespace Pushdown

def digitValue (c : Char) : Nat := c.toNat - '0'.toNat

def digitsValue (cs : List Char) : Nat := cs.foldl (fun n c => 10 * n + digitValue c) 0

def readDigits? (cs : List Char) : Option Nat :=
  if !cs.isEmpty && cs.all Char.isDigit then some (digitsValue cs) else none

def splitSign : List Char → Bool × List Char
  | '-' :: cs => (true, cs)
  | '+' :: cs => (false, cs)
  | cs => (false, cs)

def readInt? (s : String) : Option Int :=
  let (negative, cs) := splitSign s.toList
  (readDigits? cs).map fun n => if negative then -(n : Int) else n

def readIndex? (s : String) : Option Nat :=
  match s.toList with
  | '+' :: cs => readDigits? cs
  | cs => readDigits? cs

/-- An exponent mark and a signed integer. The empty list means no exponent. -/
def readExponent? : List Char → Option Int
  | [] => some 0
  | c :: cs =>
    if c = 'e' ∨ c = 'E' then
      let (negative, ds) := splitSign cs
      (readDigits? ds).map fun n => if negative then -(n : Int) else n
    else
      none

/-- Digits with an optional point and exponent; at least one digit stands next to the point. -/
def readDecimal? (cs : List Char) : Option Decimal :=
  let whole := cs.takeWhile Char.isDigit
  let afterWhole := cs.dropWhile Char.isDigit
  let (fraction, afterFraction) :=
    match afterWhole with
    | '.' :: ds => (ds.takeWhile Char.isDigit, ds.dropWhile Char.isDigit)
    | ds => ([], ds)
  if whole.isEmpty && fraction.isEmpty then
    none
  else
    (readExponent? afterFraction).map fun e =>
      ⟨digitsValue (whole ++ fraction), e - fraction.length⟩

/-- A number of double precision: a decimal, or a word for infinity or NaN in any case, after an
optional sign. -/
def readFloat? (s : String) : Option Float :=
  let (negative, cs) := splitSign s.toList
  let word := String.ofList (cs.map Char.toLower)
  if word = "inf" ∨ word = "infinity" then
    some (if negative then -(1.0 / 0.0) else 1.0 / 0.0)
  else if word = "nan" then
    some (0.0 / 0.0)
  else
    (readDecimal? cs).map (·.toFloat negative)

def readFloat32? (s : String) : Option Float32 :=
  let (negative, cs) := splitSign s.toList
  (readDecimal? cs).map (·.toFloat32 negative)

end Pushdown
