/-!
# Binary floating-point numbers taken apart

A finite number is `mantissa * 2 ^ exponent`. All exact work on floating-point numbers (writing them
with few digits, cutting them down to integers) starts from this form.
-/

namespace Pushdown

structure BinaryFormat where
  fractionBits : Nat
  exponentBits : Nat

namespace BinaryFormat

def single : BinaryFormat := ⟨23, 8⟩

def double : BinaryFormat := ⟨52, 11⟩

def leastExponent (f : BinaryFormat) : Int :=
  2 - (Nat.pow 2 (f.exponentBits - 1) : Int) - (f.fractionBits : Int)

end BinaryFormat

inductive BinaryReal where
  | nan
  | infinite (negative : Bool)
  /-- The number `mantissa * 2 ^ exponent`. `narrowBelow` says that the next smaller number is only
  half as far away as the next larger one. -/
  | finite (negative : Bool) (mantissa : Nat) (exponent : Int) (narrowBelow : Bool)

namespace BinaryReal

def ofBits (f : BinaryFormat) (bits : Nat) : BinaryReal :=
  let fraction := bits % Nat.pow 2 f.fractionBits
  let field := bits / Nat.pow 2 f.fractionBits % Nat.pow 2 f.exponentBits
  let negative := bits / Nat.pow 2 (f.fractionBits + f.exponentBits) % 2 == 1
  if field = Nat.pow 2 f.exponentBits - 1 then
    if fraction = 0 then .infinite negative else .nan
  else if field = 0 then
    .finite negative fraction f.leastExponent false
  else
    .finite negative (Nat.pow 2 f.fractionBits + fraction) (f.leastExponent + (field - 1 : Nat))
      (fraction == 0 && decide (1 < field))

def ofFloat (x : Float) : BinaryReal := ofBits .double x.toBits.toNat

def ofFloat32 (x : Float32) : BinaryReal := ofBits .single x.toBits.toNat

/-- The number cut down to an integer, toward zero. There is none for NaN and the infinities. -/
def truncate? : BinaryReal → Option Int
  | .finite negative m q _ =>
    let size : Nat := if 0 ≤ q then m * Nat.pow 2 q.toNat else m / Nat.pow 2 (-q).toNat
    some (if negative then -(size : Int) else size)
  | _ => none

def isIntegral : BinaryReal → Bool
  | .finite _ m q _ => decide (0 ≤ q) || m % Nat.pow 2 (-q).toNat == 0
  | _ => false

/-- The integer nearest to the number, toward zero, among `low` to `high`. NaN gives zero. -/
def saturate (low high : Int) (x : BinaryReal) : Int :=
  match x with
  | .nan => 0
  | .infinite negative => if negative then low else high
  | x => max low (min high (x.truncate?.getD 0))

end BinaryReal

end Pushdown
