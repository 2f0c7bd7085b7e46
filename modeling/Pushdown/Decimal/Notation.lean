import Pushdown.Decimal.Shortest

/-!
# Number texts

How a floating-point number is written: positionally or with an exponent, with or without a fraction
when it is whole. The styles used by the library are values of `NumberStyle`.
-/

namespace Pushdown

structure NumberStyle where
  /-- The numbers written positionally, by the place of their decimal point. -/
  positional : Int → Bool
  /-- A whole number written positionally ends in `.0`. -/
  wholeFraction : Bool
  /-- An exponent that is not negative has a plus sign. -/
  plusSign : Bool
  tie : Tie

namespace NumberStyle

/-- Literals and answers: positional from `0.0001` up to below `10 ^ 16`, with a fraction. -/
def literal : NumberStyle :=
  { positional := fun p => decide (-3 ≤ p) && decide (p ≤ 16), wholeFraction := true
    plusSign := false, tie := .up }

/-- Running text: always positional, with a fraction only where there is one. -/
def running : NumberStyle :=
  { positional := fun _ => true, wholeFraction := false, plusSign := false, tie := .up }

def jsonDouble : NumberStyle :=
  { positional := fun p => decide (-5 < p) && decide (p ≤ 16), wholeFraction := true
    plusSign := true, tie := .toEven }

def jsonSingle : NumberStyle :=
  { positional := fun p => decide (-6 < p) && decide (p ≤ 13), wholeFraction := true
    plusSign := true, tie := .toEven }

end NumberStyle

namespace Decimal

def positionalText (wholeFraction : Bool) (d : Decimal) : String :=
  let digits := Nat.toDigits 10 d.digits
  let whole := if wholeFraction then ".0" else ""
  if 0 ≤ d.exponent then
    String.ofList (digits ++ List.replicate d.exponent.toNat '0') ++ whole
  else
    let places := (-d.exponent).toNat
    if places < digits.length then
      String.ofList (digits.take (digits.length - places)) ++ "." ++
        String.ofList (digits.drop (digits.length - places))
    else
      "0." ++ String.ofList (List.replicate (places - digits.length) '0' ++ digits)

def scientificText (plusSign : Bool) (d : Decimal) : String :=
  let exponent := d.point - 1
  let power := (if plusSign && decide (0 ≤ exponent) then "+" else "") ++ toString exponent
  match Nat.toDigits 10 d.digits with
  | [] => "0"
  | [c] => String.ofList [c] ++ "e" ++ power
  | c :: cs => String.ofList [c] ++ "." ++ String.ofList cs ++ "e" ++ power

end Decimal

def NumberStyle.text (style : NumberStyle) : BinaryReal → String
  | .nan => "NaN"
  | .infinite negative => if negative then "-inf" else "inf"
  | .finite negative m q narrow =>
    (if negative then "-" else "") ++
      if m = 0 then
        if style.wholeFraction then "0.0" else "0"
      else
        let d := (RoundingInterval.ofBinary m q narrow).shortest style.tie
        if style.positional d.point then
          d.positionalText style.wholeFraction
        else
          d.scientificText style.plusSign

end Pushdown
