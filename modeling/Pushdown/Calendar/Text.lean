import Pushdown.Calendar.Date
import Pushdown.Decimal.Reading
import Pushdown.Text.Blank

/-!
# Texts of dates and times

A date is `2024-02-29`, with a sign when its year is not one of 0 to 9999; a time is `12:34:56` with
three, six or nine digits of fraction, as few as hold it. When such a text is read, blanks may stand
around the numbers, and numbers may be short of leading zeros.
-/

namespace Pushdown

/-- The digits of `n`, filled up with zeros to at least `width`. -/
def padded (width n : Nat) : String :=
  let digits := Nat.toDigits 10 n
  String.ofList (List.replicate (width - digits.length) '0' ++ digits)

namespace Date

/-- The year with at least four digits, and a sign outside 0 to 9999. -/
def yearText (y : Int) : String :=
  (if 0 ≤ y ∧ y ≤ 9999 then "" else if y < 0 then "-" else "+") ++ padded 4 y.natAbs

def text (d : Date) : String :=
  let (month, day) := d.monthDay
  yearText d.year ++ "-" ++ padded 2 month ++ "-" ++ padded 2 day

end Date

namespace Time

/-- The fraction of a second, in as few of three, six or nine digits as hold it. -/
def fractionText (nano : Nat) : String :=
  if nano = 0 then ""
  else if nano % 1000000 = 0 then "." ++ padded 3 (nano / 1000000)
  else if nano % 1000 = 0 then "." ++ padded 6 (nano / 1000)
  else "." ++ padded 9 nano

def text (t : Time) : String :=
  let leap := 1000000000 ≤ t.nano
  let second := t.second % 60 + (if leap then 1 else 0)
  let nano := if leap then t.nano - 1000000000 else t.nano
  padded 2 (t.second / 3600) ++ ":" ++ padded 2 (t.second / 60 % 60) ++ ":" ++ padded 2 second ++
    fractionText nano

end Time

def Timestamp.text (separator : String) (t : Timestamp) : String :=
  t.date.text ++ separator ++ t.time.text

namespace Calendar

abbrev Scan (α : Type) := List Char → Option (α × List Char)

def scanDigits (most : Nat) : Scan Nat := fun cs =>
  let digits := (cs.take most).takeWhile Char.isDigit
  if digits.isEmpty then none else some (digitsValue digits, cs.drop digits.length)

def scanNumber (most : Nat) : Scan Nat := fun cs => scanDigits most (Text.skipBlanks cs)

/-- A year after blanks: four digits at most, any number of them after a sign. -/
def scanYear : Scan Int := fun cs =>
  match Text.skipBlanks cs with
  | '-' :: ds => (scanDigits ds.length ds).map fun (n, rest) => (-(n : Int), rest)
  | '+' :: ds => (scanDigits ds.length ds).map fun (n, rest) => ((n : Int), rest)
  | ds => (scanDigits 4 ds).map fun (n, rest) => ((n : Int), rest)

def scanMark (c : Char) : Scan Unit := fun cs =>
  match Text.skipBlanks cs with
  | d :: ds => if d = c then some ((), ds) else none
  | [] => none

/-- A fraction of a second in nanoseconds; digits after the ninth are dropped. -/
def scanFraction : Scan Nat
  | '.' :: cs =>
    let digits := cs.takeWhile Char.isDigit
    if digits.isEmpty then none
    else
      let kept := digits.take 9
      some (digitsValue kept * Nat.pow 10 (9 - kept.length), cs.drop digits.length)
  | cs => some (0, cs)

def scanDate : Scan Date := fun cs => do
  let (year, cs) ← scanYear cs
  let (_, cs) ← scanMark '-' cs
  let (month, cs) ← scanNumber 2 cs
  let (_, cs) ← scanMark '-' cs
  let (day, cs) ← scanNumber 2 cs
  let date ← Date.ofCivil? year month day
  return (date, cs)

def scanHourMinute : Scan (Nat × Nat) := fun cs => do
  let (hour, cs) ← scanNumber 2 cs
  let (_, cs) ← scanMark ':' cs
  let (minute, cs) ← scanNumber 2 cs
  return ((hour, minute), cs)

def scanSecond : Scan (Nat × Nat) := fun cs => do
  let (_, cs) ← scanMark ':' cs
  let (second, cs) ← scanNumber 2 cs
  let (nano, cs) ← scanFraction cs
  return ((second, nano), cs)

def scanAll {α : Type} (scan : Scan α) (s : String) : Option α :=
  match scan s.toList with
  | some (a, rest) => if (Text.skipBlanks rest).isEmpty then some a else none
  | none => none

end Calendar

open Calendar

def Date.ofText? (s : String) : Option Date := scanAll scanDate s

def Time.ofText? (s : String) : Option Time :=
  scanAll
    (fun cs => do
      let ((hour, minute), cs) ← scanHourMinute cs
      let ((second, nano), cs) := (scanSecond cs).getD ((0, 0), cs)
      let time ← Time.ofParts? hour minute second nano
      return (time, cs))
    s

def Timestamp.ofText? (s : String) : Option Timestamp :=
  scanAll
    (fun cs => do
      let (date, cs) ← scanDate cs
      let (_, cs) ← scanMark 'T' cs
      let ((hour, minute), cs) ← scanHourMinute cs
      let ((second, nano), cs) ← scanSecond cs
      let time ← Time.ofParts? hour minute second nano
      return (⟨date, time⟩, cs))
    s

end Pushdown
