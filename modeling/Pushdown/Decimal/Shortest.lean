import Pushdown.Decimal.Binary

/-!
# Shortest decimals

The fewest decimal digits that still single out a binary floating-point number among its
neighbours. Of the decimals with that many digits the one nearest to the number is taken.
-/

namespace Pushdown

inductive Tie where
  | up
  | toEven

structure Decimal where
  digits : Nat
  exponent : Int
deriving DecidableEq

namespace Decimal

def width (n : Nat) : Nat := (Nat.toDigits 10 n).length

def strip : Nat → Decimal → Decimal
  | 0, d => d
  | fuel + 1, d =>
    if d.digits ≠ 0 ∧ d.digits % 10 = 0 then strip fuel ⟨d.digits / 10, d.exponent + 1⟩ else d

/-- The place of the decimal point: the decimal lies between `10 ^ (point - 1)` and `10 ^ point`. -/
def point (d : Decimal) : Int := d.exponent + width d.digits

end Decimal

/-- A positive number `value / unit` with the open or closed interval of the reals that round to
it. -/
structure RoundingInterval where
  value : Nat
  low : Nat
  high : Nat
  unit : Nat
  closed : Bool

namespace RoundingInterval

/-- The interval of `mantissa * 2 ^ exponent`, in units of a quarter of `2 ^ exponent`. Its ends
belong to it when the mantissa is even. -/
def ofBinary (mantissa : Nat) (exponent : Int) (narrowBelow : Bool) : RoundingInterval :=
  let scale := Nat.pow 2 exponent.toNat
  { value := 4 * mantissa * scale
    low := (4 * mantissa - (if narrowBelow then 1 else 2)) * scale
    high := (4 * mantissa + 2) * scale
    unit := 4 * Nat.pow 2 (-exponent).toNat
    closed := mantissa % 2 == 0 }

def point (r : RoundingInterval) : Int :=
  if r.unit ≤ r.value then
    Decimal.width (r.value / r.unit)
  else
    1 - (Decimal.width ((r.unit - 1) / r.value) : Int)

def holds (r : RoundingInterval) (n : Nat) (e : Int) : Bool :=
  let lhs := n * Nat.pow 10 e.toNat * r.unit
  let scale := Nat.pow 10 (-e).toNat
  if r.closed then
    decide (r.low * scale ≤ lhs) && decide (lhs ≤ r.high * scale)
  else
    decide (r.low * scale < lhs) && decide (lhs < r.high * scale)

/-- The decimal with grid `10 ^ e` that is nearest to the value, among those in the interval. -/
def onGrid? (r : RoundingInterval) (tie : Tie) (e : Int) : Option Decimal :=
  let num := r.value * Nat.pow 10 (-e).toNat
  let den := r.unit * Nat.pow 10 e.toNat
  let down := num / den
  match r.holds down e, r.holds (down + 1) e with
  | false, false => none
  | true, false => some ⟨down, e⟩
  | false, true => some ⟨down + 1, e⟩
  | true, true =>
    let rest := 2 * (num % den)
    if rest < den then some ⟨down, e⟩
    else if den < rest then some ⟨down + 1, e⟩
    else
      match tie with
      | .up => some ⟨down + 1, e⟩
      | .toEven => some ⟨if down % 2 = 0 then down else down + 1, e⟩

/-- The first grid with a decimal in the interval, from the coarsest one on. -/
def search (r : RoundingInterval) (tie : Tie) : Nat → Int → Decimal
  | 0, e => ⟨r.value * Nat.pow 10 (-e).toNat / (r.unit * Nat.pow 10 e.toNat), e⟩
  | fuel + 1, e =>
    match r.onGrid? tie e with
    | some d => d
    | none => search r tie fuel (e - 1)

/-- The shortest decimal in the interval. Seventeen digits always suffice for the formats here. -/
def shortest (r : RoundingInterval) (tie : Tie) : Decimal :=
  (r.search tie 17 (r.point - 1)).strip 20

end RoundingInterval

end Pushdown
