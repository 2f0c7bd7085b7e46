import Pushdown.Decimal.Shortest

/-!
# Rounding to a binary format

The number of a binary format that is nearest to a fraction, or to a decimal. Of two equally near
ones that with the even bit pattern is taken, and what is too large becomes infinite. The result is
a bit pattern: the patterns of the numbers from zero to infinity are in the order of the numbers, so
a mantissa that is rounded up to the next power of two carries over into the exponent.
-/

namespace Pushdown

/-- The integer nearest to `num / den`, the even one of two. -/
def roundDiv (num den : Nat) : Nat :=
  let down := num / den
  let rest := 2 * (num % den)
  if rest < den then down
  else if den < rest then down + 1
  else down + down % 2

/-- The greatest `e` with `2 ^ e ≤ num / den`, for a positive fraction. -/
def log2Ratio (num den : Nat) : Int :=
  let e : Int := (num.log2 : Int) - den.log2
  if den * Nat.pow 2 e.toNat ≤ num * Nat.pow 2 (-e).toNat then e else e - 1

namespace BinaryFormat

def infinityBits (f : BinaryFormat) : Nat :=
  (Nat.pow 2 f.exponentBits - 1) * Nat.pow 2 f.fractionBits

def signed (f : BinaryFormat) (negative : Bool) (bits : Nat) : Nat :=
  if negative then Nat.pow 2 (f.fractionBits + f.exponentBits) + bits else bits

def nearestBits (f : BinaryFormat) (num den : Nat) : Nat :=
  if num = 0 then
    0
  else
    let exponent := max f.leastExponent (log2Ratio num den - f.fractionBits)
    let mantissa := roundDiv (num * Nat.pow 2 (-exponent).toNat) (den * Nat.pow 2 exponent.toNat)
    min f.infinityBits ((exponent - f.leastExponent).toNat * Nat.pow 2 f.fractionBits + mantissa)

end BinaryFormat

namespace Decimal

/-- The bit pattern of the number nearest to a decimal. Decimals far outside of the range of every
format here are not spelled out. -/
def nearestBits (f : BinaryFormat) (d : Decimal) : Nat :=
  if d.digits = 0 ∨ d.point < -400 then 0
  else if 400 < d.point then f.infinityBits
  else f.nearestBits (d.digits * Nat.pow 10 d.exponent.toNat) (Nat.pow 10 (-d.exponent).toNat)

def toFloat (negative : Bool) (d : Decimal) : Float :=
  .ofBits (UInt64.ofNat (BinaryFormat.double.signed negative (d.nearestBits .double)))

def toFloat32 (negative : Bool) (d : Decimal) : Float32 :=
  .ofBits (UInt32.ofNat (BinaryFormat.single.signed negative (d.nearestBits .single)))

end Decimal

end Pushdown
