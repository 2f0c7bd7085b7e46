/-!
# Dates, times of day, timestamps

Dates of the Gregorian calendar, extended to years before its introduction and to years before the
common era, and times of day down to the nanosecond. A date is held as its distance in days from
1970-01-01.
-/

namespace Pushdown

namespace Calendar

def leapDaysBefore (y : Int) : Int := (y - 1) / 4 - (y - 1) / 100 + (y - 1) / 400

def yearStart (y : Int) : Int := 365 * (y - 1970) + leapDaysBefore y - 477

def isLeap (y : Int) : Bool := y % 4 == 0 && (y % 100 != 0 || y % 400 == 0)

/-- The year that `day` falls in. The mean length of a year gives it up to one. -/
def yearOf (day : Int) : Int :=
  let y := day * 400 / 146097 + 1970
  if day < yearStart y then y - 1
  else if yearStart (y + 1) ≤ day then y + 1
  else y

def monthLengths (leap : Bool) : List Nat :=
  [31, if leap then 29 else 28, 31, 30, 31, 30, 31, 31, 30, 31, 30, 31]

/-- Counts `n` days, from zero, through months of the given lengths: the months passed and the days
left. -/
def walkMonths : List Nat → Nat → Nat × Nat
  | [], n => (0, n)
  | length :: lengths, n =>
    if n < length then (0, n)
    else
      let (months, rest) := walkMonths lengths (n - length)
      (months + 1, rest)

end Calendar

/-- A calendar date, from the start of year -262143 to the end of year 262142. -/
structure Date where
  /-- Days since 1970-01-01. -/
  day : Int
  notBefore : Calendar.yearStart (-262143) ≤ day
  notAfter : day < Calendar.yearStart 262143
deriving DecidableEq

namespace Date

def ofDay? (day : Int) : Option Date :=
  if h : Calendar.yearStart (-262143) ≤ day ∧ day < Calendar.yearStart 262143 then
    some ⟨day, h.1, h.2⟩
  else
    none

def epoch : Date := ⟨0, by decide, by decide⟩

def year (d : Date) : Int := Calendar.yearOf d.day

def dayOfYear (d : Date) : Nat := (d.day - Calendar.yearStart d.year).toNat

/-- Month and day of the month, both from one. -/
def monthDay (d : Date) : Nat × Nat :=
  let (months, rest) :=
    Calendar.walkMonths (Calendar.monthLengths (Calendar.isLeap d.year)) d.dayOfYear
  (months + 1, rest + 1)

def ofCivil? (year : Int) (month day : Nat) : Option Date :=
  let lengths := Calendar.monthLengths (Calendar.isLeap year)
  match month with
  | 0 => none
  | m + 1 =>
    match lengths[m]? with
    | none => none
    | some length =>
      if 1 ≤ day ∧ day ≤ length then
        let before := (lengths.take m).foldl (· + ·) 0
        ofDay? (Calendar.yearStart year + (before + (day - 1) : Nat))
      else
        none

end Date

/-- A time of day. A leap second is the second before it, whichever it is, with a fraction of a whole
second or more. -/
structure Time where
  /-- Whole seconds since midnight. -/
  second : Nat
  /-- Nanoseconds since that second. -/
  nano : Nat
  second_lt : second < 86400
  nano_lt : nano < 2000000000
deriving DecidableEq

namespace Time

def midnight : Time := ⟨0, 0, by decide, by decide⟩

/-- The time of day with the given parts; second 60 is a leap second. -/
def ofParts? (hour minute second nano : Nat) : Option Time :=
  if h : hour < 24 ∧ minute < 60 ∧ second < 60 ∧ nano < 1000000000 then
    some ⟨hour * 3600 + minute * 60 + second, nano, by omega, by omega⟩
  else if h : hour < 24 ∧ minute < 60 ∧ second = 60 ∧ nano < 1000000000 then
    some ⟨hour * 3600 + minute * 60 + 59, nano + 1000000000, by omega, by omega⟩
  else
    none

def compare (a b : Time) : Ordering :=
  (Ord.compare a.second b.second).then (Ord.compare a.nano b.nano)

end Time

structure Timestamp where
  date : Date
  time : Time
deriving DecidableEq

namespace Timestamp

def compare (a b : Timestamp) : Ordering :=
  (Ord.compare a.date.day b.date.day).then (a.time.compare b.time)

/-- Milliseconds since the start of 1970, cutting off finer fractions. -/
def epochMillis (t : Timestamp) : Int :=
  t.date.day * 86400000 + ((t.time.second * 1000 + t.time.nano / 1000000 : Nat) : Int)

/-- The time of day that is `n` milliseconds after midnight, within one day. -/
def timeOfMillis (n : Nat) (h : n < 86400000) : Time :=
  ⟨n / 1000, n % 1000 * 1000000, by omega, by omega⟩

def ofEpochMillis? (millis : Int) : Option Timestamp :=
  match Date.ofDay? (millis / 86400000) with
  | some date => some ⟨date, timeOfMillis (millis % 86400000).toNat (by omega)⟩
  | none => none

end Timestamp

end Pushdown
