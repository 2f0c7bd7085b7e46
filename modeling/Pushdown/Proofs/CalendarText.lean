import Mathlib.Algebra.Ring.Nat
import Pushdown.Proofs.JsonText
import Pushdown.Sql.Value

/-!
# Dates and times read back

`Date.ofText?_text`, `Time.ofText?_text`, `Timestamp.ofText?_text`: dates of every year are read back from their
texts, and times as they are `settled`. The text of a date names its year, month and day, and these are counted back
to the day.
-/

namespace Pushdown

open List Option

namespace Calendar

variable {c : Char} {width n : Nat}

theorem yearStart_succ (y : Int) : yearStart (y + 1) = yearStart y + (if isLeap y then 366 else 365) := by
  have hfour : y / 4 = (y - 1) / 4 + (if y % 4 = 0 then 1 else 0) := by split_ifs <;> omega
  have hhundred : y / 100 = (y - 1) / 100 + (if y % 100 = 0 then 1 else 0) := by split_ifs <;> omega
  have hmany : y / 400 = (y - 1) / 400 + (if y % 400 = 0 then 1 else 0) := by split_ifs <;> omega
  have hy : y + 1 - 1 = y := by omega
  simp only [yearStart, leapDaysBefore, isLeap, hy, hfour, hhundred, hmany, Bool.and_eq_true,
    Bool.or_eq_true, beq_iff_eq, bne_iff_ne]
  split_ifs <;> omega

theorem yearStart_yearOf (day : Int) : yearStart (yearOf day) ≤ day ∧ day < yearStart (yearOf day + 1) := by
  unfold yearOf
  simp only
  split_ifs with hbefore hafter
  · refine ⟨?_, by simpa using hbefore⟩
    simp only [yearStart, leapDaysBefore] at *
    omega
  · refine ⟨hafter, ?_⟩
    simp only [yearStart, leapDaysBefore] at *
    omega
  · omega

theorem sum_monthLengths (leap : Bool) : (monthLengths leap).sum = if leap then 366 else 365 := by
  cases leap <;> rfl

theorem walkMonths_spec {lengths : List Nat} {n : Nat} (hn : n < lengths.sum) :
    ∃ length, lengths[(walkMonths lengths n).1]? = some length ∧ (walkMonths lengths n).2 < length ∧
      (lengths.take (walkMonths lengths n).1).sum + (walkMonths lengths n).2 = n := by
  induction lengths generalizing n with
  | nil => exact absurd hn (Nat.not_lt_zero n)
  | cons length lengths ih =>
    rw [walkMonths]
    split_ifs with hlt
    · exact ⟨length, rfl, hlt, Nat.zero_add n⟩
    · rw [sum_cons] at hn
      obtain ⟨l, hl, hrest, hsum⟩ := ih (n := n - length) (by omega)
      refine ⟨l, hl, hrest, ?_⟩
      simp only [take_succ_cons, sum_cons]
      omega

theorem isBlank_of_isDigit (hc : c.isDigit) : Text.isBlank c = false := by
  simp only [Char.isDigit, Bool.and_eq_true, decide_eq_true_eq, ge_iff_le, UInt32.le_iff_toNat_le] at hc
  have hlow : 48 ≤ c.toNat := hc.1
  have hhigh : c.toNat ≤ 57 := hc.2
  simp [Text.isBlank]
  omega

theorem skipBlanks_cons (hc : Text.isBlank c = false) (cs : List Char) : Text.skipBlanks (c :: cs) = c :: cs := by
  rw [Text.skipBlanks, dropWhile_cons_of_neg (by simp [hc])]

theorem toList_padded (width n : Nat) :
    (padded width n).toList = List.replicate (width - (Nat.toDigits 10 n).length) '0' ++ Nat.toDigits 10 n := by
  rw [padded, String.toList_ofList]

theorem isDigit_of_mem_padded (hc : c ∈ (padded width n).toList) : c.isDigit := by
  rw [toList_padded, mem_append] at hc
  rcases hc with hc | hc
  · rw [eq_of_mem_replicate hc]
    decide
  · exact Nat.isDigit_of_mem_toDigits (by decide) (by decide) hc

theorem padded_head (width n : Nat) : ∃ c cs, (padded width n).toList = c :: cs ∧ c.isDigit := by
  cases hcs : (padded width n).toList with
  | nil =>
    rw [toList_padded, append_eq_nil_iff] at hcs
    exact absurd hcs.2 Nat.toDigits_ne_nil
  | cons c cs => exact ⟨c, cs, rfl, isDigit_of_mem_padded (hcs ▸ mem_cons_self)⟩

theorem isEmpty_padded (width n : Nat) : (padded width n).toList.isEmpty = false := by
  obtain ⟨c, cs, hcs, -⟩ := padded_head width n
  rw [hcs]
  rfl

theorem takeWhile_padded (width n : Nat) (rest : List Char) (hrest : ∀ c ∈ rest.head?, c.isDigit = false) :
    ((padded width n).toList ++ rest).takeWhile Char.isDigit = (padded width n).toList :=
  (takeWhile_append_of_all (fun _ hc => isDigit_of_mem_padded hc) hrest).1

theorem digitsValue_padded (width n : Nat) : digitsValue (padded width n).toList = n := by
  have hzeros : ∀ k, digitsValue (List.replicate k '0' ++ Nat.toDigits 10 n) = n := by
    intro k
    induction k with
    | zero =>
      rw [replicate_zero, nil_append, digitsValue_eq_ofDigitChars, Nat.ofDigitChars_ten_toDigits]
    | succ k ih => rwa [replicate_succ, cons_append]
  rw [toList_padded]
  exact hzeros _

theorem length_padded (hwidth : 0 < width) (hn : n < 10 ^ width) : (padded width n).toList.length = width := by
  have hlength : (Nat.toDigits 10 n).length ≤ width := (Nat.length_toDigits_le_iff (by decide) hwidth).mpr hn
  rw [toList_padded, length_append, length_replicate]
  omega

theorem scanDigits_padded (hwidth : 0 < width) (hn : n < 10 ^ width) (rest : List Char) :
    scanDigits width ((padded width n).toList ++ rest) = some (n, rest) := by
  have hlength := length_padded hwidth hn
  have htake : ((padded width n).toList ++ rest).take width = (padded width n).toList := by
    rw [take_append_of_le_length (by omega), take_of_length_le (by omega)]
  have hwhile := takeWhile_padded width n [] (by simp)
  rw [append_nil] at hwhile
  simp only [scanDigits, htake, hwhile, isEmpty_padded, digitsValue_padded, drop_left]
  rfl

theorem scanNumber_two {n : Nat} (hn : n < 100) (rest : List Char) :
    scanNumber 2 ((padded 2 n).toList ++ rest) = some (n, rest) := by
  have htwo : n < 10 ^ 2 := hn
  obtain ⟨c, cs, hcs, hc⟩ := padded_head 2 n
  rw [scanNumber, ← scanDigits_padded (by decide) htwo rest, hcs, cons_append, skipBlanks_cons (isBlank_of_isDigit hc)]

theorem scanMark_cons (hc : Text.isBlank c = false) (cs : List Char) : scanMark c (c :: cs) = some ((), cs) := by
  rw [scanMark, skipBlanks_cons hc]
  exact if_pos rfl

theorem scanDigits_year (n : Nat) (rest : List Char) :
    scanDigits ((padded 4 n).toList ++ '-' :: rest).length ((padded 4 n).toList ++ '-' :: rest) =
      some (n, '-' :: rest) := by
  have hwhile := takeWhile_padded 4 n ('-' :: rest) (by simp)
  simp only [scanDigits, take_length, hwhile, isEmpty_padded, digitsValue_padded, drop_left]
  rfl

theorem scanYear_yearText (y : Int) (rest : List Char) :
    scanYear ((Date.yearText y).toList ++ '-' :: rest) = some (y, '-' :: rest) := by
  rw [Date.yearText, String.toList_append, append_assoc]
  split_ifs with hplain hnegative
  · obtain ⟨c, cs, hcs, hc⟩ := padded_head 4 y.natAbs
    have hfour : y.natAbs < 10 ^ 4 := by omega
    have hdigits := scanDigits_padded (by decide) hfour ('-' :: rest)
    have hvalue : ((y.natAbs : Nat) : Int) = y := by omega
    have hempty : "".toList = [] := rfl
    rw [hempty, nil_append, scanYear]
    rw [hcs, cons_append] at hdigits ⊢
    rw [skipBlanks_cons (isBlank_of_isDigit hc)]
    split
    · rename_i heq
      obtain ⟨rfl, -⟩ := List.cons.inj heq
      exact absurd hc (by decide)
    · rename_i heq
      obtain ⟨rfl, -⟩ := List.cons.inj heq
      exact absurd hc (by decide)
    · rw [hdigits, map_some]
      simp only [hvalue]
  · have hvalue : -((y.natAbs : Nat) : Int) = y := by omega
    have hdigits := scanDigits_year y.natAbs rest
    have hsign : "-".toList = ['-'] := rfl
    rw [hsign, singleton_append, scanYear, skipBlanks_cons (by decide)]
    simp only [hdigits, map_some, hvalue]
  · have hvalue : ((y.natAbs : Nat) : Int) = y := by omega
    have hdigits := scanDigits_year y.natAbs rest
    have hsign : "+".toList = ['+'] := rfl
    rw [hsign, singleton_append, scanYear, skipBlanks_cons (by decide)]
    simp only [hdigits, map_some, hvalue]

end Calendar

open Calendar

namespace Date

variable (d : Date)

theorem dayOfYear_lt : d.dayOfYear < (monthLengths (isLeap d.year)).sum := by
  obtain ⟨hstart, hend⟩ := yearStart_yearOf d.day
  rw [yearStart_succ] at hend
  rw [sum_monthLengths, dayOfYear, year]
  split_ifs at hend ⊢ <;> omega

theorem ofCivil?_monthDay : ofCivil? d.year d.monthDay.1 d.monthDay.2 = some d := by
  obtain ⟨length, hlength, hrest, hsum⟩ := walkMonths_spec d.dayOfYear_lt
  have hday : yearStart d.year + (d.dayOfYear : Int) = d.day := by
    have hstart := (yearStart_yearOf d.day).1
    rw [dayOfYear, year]
    omega
  have hone : 1 ≤ (walkMonths (monthLengths (isLeap d.year)) d.dayOfYear).2 + 1 ∧
      (walkMonths (monthLengths (isLeap d.year)) d.dayOfYear).2 + 1 ≤ length := by omega
  have hsome : ofDay? d.day = some d := dif_pos ⟨d.notBefore, d.notAfter⟩
  simp only [ofCivil?, monthDay, hlength, if_pos hone, ← sum_eq_foldl, Nat.add_sub_cancel, hsum, hday, hsome]

theorem monthDay_lt : d.monthDay.1 < 100 ∧ d.monthDay.2 < 100 := by
  obtain ⟨length, hlength, hrest, -⟩ := walkMonths_spec d.dayOfYear_lt
  obtain ⟨hmonth, hget⟩ := List.getElem?_eq_some_iff.mp hlength
  have htwelve : (monthLengths (isLeap d.year)).length = 12 := rfl
  have hbound : ∀ leap, ∀ l ∈ monthLengths leap, l ≤ 31 := by decide
  have hlong : length ≤ 31 := hbound (isLeap d.year) length (hget ▸ getElem_mem hmonth)
  simp only [monthDay]
  omega

theorem toList_text :
    d.text.toList = (yearText d.year).toList ++ '-' :: ((padded 2 d.monthDay.1).toList ++
      '-' :: (padded 2 d.monthDay.2).toList) := by
  simp only [text, String.toList_append]
  simp

theorem scanDate_text (rest : List Char) : scanDate (d.text.toList ++ rest) = some (d, rest) := by
  obtain ⟨hmonth, hday⟩ := d.monthDay_lt
  rw [toList_text]
  simp only [append_assoc, cons_append]
  simp only [scanDate, scanYear_yearText, scanMark_cons (c := '-') (by decide), bind_eq_bind,
    bind_some, scanNumber_two hmonth,
    scanNumber_two hday, ofCivil?_monthDay]
  rfl

theorem ofText?_text : ofText? d.text = some d := by
  have hscan := d.scanDate_text []
  rw [append_nil] at hscan
  rw [ofText?, scanAll, hscan]
  rfl

end Date

namespace Calendar

theorem scanFraction_padded {width n : Nat} (hwidth : 0 < width) (hnine : width ≤ 9) (hn : n < 10 ^ width) :
    scanFraction ('.' :: (padded width n).toList) = some (n * 10 ^ (9 - width), []) := by
  have hlength := length_padded hwidth hn
  have hwhile := takeWhile_padded width n [] (by simp)
  rw [append_nil] at hwhile
  have htake : (padded width n).toList.take 9 = (padded width n).toList := take_of_length_le (by omega)
  simp only [scanFraction, hwhile, isEmpty_padded, htake, digitsValue_padded, hlength]
  simp [hlength]

theorem scanFraction_fractionText {nano : Nat} (hnano : nano < 1000000000) :
    scanFraction (Time.fractionText nano).toList = some (nano, []) := by
  have hpoint : ∀ s : String, ("." ++ s).toList = '.' :: s.toList := by
    intro s
    rw [String.toList_append]
    rfl
  rw [Time.fractionText]
  split_ifs with hzero hmilli hmicro
  · subst hzero
    rfl
  · rw [hpoint, scanFraction_padded (by decide) (by decide) (by omega)]
    have hvalue : nano / 1000000 * 10 ^ (9 - 3) = nano := by omega
    rw [hvalue]
  · rw [hpoint, scanFraction_padded (by decide) (by decide) (by omega)]
    have hvalue : nano / 1000 * 10 ^ (9 - 6) = nano := by omega
    rw [hvalue]
  · rw [hpoint, scanFraction_padded (by decide) (by decide) (by omega)]
    rw [Nat.sub_self, Nat.pow_zero, Nat.mul_one]

theorem scanHourMinute_padded {hour minute : Nat} (hhour : hour < 100) (hminute : minute < 100) (rest : List Char) :
    scanHourMinute ((padded 2 hour).toList ++ ':' :: ((padded 2 minute).toList ++ rest)) =
      some ((hour, minute), rest) := by
  simp only [scanHourMinute, scanNumber_two hhour,
    scanNumber_two hminute, scanMark_cons (c := ':') (by decide),
    bind_eq_bind, bind_some]
  rfl

theorem scanSecond_padded {second nano : Nat} (hsecond : second < 100) (hnano : nano < 1000000000) :
    scanSecond (':' :: ((padded 2 second).toList ++ (Time.fractionText nano).toList)) = some ((second, nano), []) := by
  simp only [scanSecond, scanNumber_two hsecond,
    scanMark_cons (c := ':') (by decide), scanFraction_fractionText hnano, bind_eq_bind,
    bind_some]
  rfl

end Calendar

namespace Time

variable (t : Time)

/-- The time of day that the text of `t` is read as. A leap second that is not the last of its minute is
written like the second after it. -/
def settled : Time :=
  if h : 1000000000 ≤ t.nano ∧ t.second % 60 ≠ 59 then
    ⟨t.second + 1, t.nano - 1000000000, by have := t.second_lt; omega, by have := t.nano_lt; omega⟩
  else t

theorem settled_eq_self_iff : t.settled = t ↔ (1000000000 ≤ t.nano → t.second % 60 = 59) := by
  rw [settled]
  split_ifs with h
  · refine ⟨fun heq => ?_, fun hlast => absurd (hlast h.1) h.2⟩
    exact absurd (congrArg second heq) (Nat.succ_ne_self _)
  · exact ⟨fun _ hlong => not_not.mp fun hlast => h ⟨hlong, hlast⟩, fun _ => rfl⟩

def writtenSecond : Nat := t.second % 60 + (if 1000000000 ≤ t.nano then 1 else 0)

def writtenNano : Nat := if 1000000000 ≤ t.nano then t.nano - 1000000000 else t.nano

theorem ofParts?_written :
    ofParts? (t.second / 3600) (t.second / 60 % 60) t.writtenSecond t.writtenNano = some t.settled := by
  have hsecond := t.second_lt
  have hnano := t.nano_lt
  have hparts : t.second / 3600 * 3600 + t.second / 60 % 60 * 60 + t.second % 60 = t.second := by omega
  rw [writtenSecond, writtenNano]
  by_cases hlong : 1000000000 ≤ t.nano
  · rw [if_pos hlong, if_pos hlong]
    by_cases hlast : t.second % 60 = 59
    · have hsettled : t.settled = t := dif_neg fun h => h.2 hlast
      have hparts' : t.second / 3600 * 3600 + t.second / 60 % 60 * 60 + 59 = t.second := by omega
      have hnano' : t.nano - 1000000000 + 1000000000 = t.nano := by omega
      rw [hsettled, ofParts?, dif_neg (by omega), dif_pos (by omega)]
      simp only [hparts', hnano']
    · have hsettled : t.settled = _ := dif_pos ⟨hlong, hlast⟩
      rw [hsettled, ofParts?, dif_pos (by omega)]
      simp only [← Nat.add_assoc, hparts]
  · have hsettled : t.settled = t := dif_neg fun h => hlong h.1
    rw [if_neg hlong, if_neg hlong, hsettled, ofParts?, dif_pos (by omega)]
    simp only [Nat.add_zero, hparts]

theorem writtenNano_lt : t.writtenNano < 1000000000 := by
  have hnano := t.nano_lt
  rw [writtenNano]
  split_ifs <;> omega

theorem toList_text :
    t.text.toList = (padded 2 (t.second / 3600)).toList ++
      ':' :: ((padded 2 (t.second / 60 % 60)).toList ++
        ':' :: ((padded 2 t.writtenSecond).toList ++ (fractionText t.writtenNano).toList)) := by
  simp only [text, String.toList_append]
  simp [writtenSecond, writtenNano]

theorem written_lt : t.second / 3600 < 100 ∧ t.second / 60 % 60 < 100 ∧ t.writtenSecond < 100 := by
  have hsecond := t.second_lt
  rw [writtenSecond]
  split_ifs <;> omega

theorem ofText?_text : ofText? t.text = some t.settled := by
  obtain ⟨hhour, hminute, hsecond⟩ := t.written_lt
  rw [ofText?, scanAll, toList_text]
  simp only [scanHourMinute_padded hhour hminute, bind_eq_bind, bind_some,
    scanSecond_padded hsecond t.writtenNano_lt, getD_some, ofParts?_written]
  rfl

end Time

namespace Timestamp

variable (t : Timestamp)

def settled : Timestamp := ⟨t.date, t.time.settled⟩

theorem epochMillis_settled : t.settled.epochMillis = t.epochMillis := by
  rw [epochMillis, epochMillis, settled, Time.settled]
  split_ifs with h
  · have hnano : (t.time.nano - 1000000000) / 1000000 = t.time.nano / 1000000 - 1000 := by omega
    simp only [hnano]
    omega
  · rfl

theorem ofText?_text : ofText? (t.text "T") = some t.settled := by
  obtain ⟨hhour, hminute, hsecond⟩ := t.time.written_lt
  have htext : (t.text "T").toList = t.date.text.toList ++ 'T' :: t.time.text.toList := by
    rw [Timestamp.text, String.toList_append, String.toList_append]
    simp
  rw [ofText?, scanAll, htext, t.time.toList_text]
  simp only [t.date.scanDate_text, scanMark_cons (c := 'T') (by decide), bind_eq_bind,
    bind_some, scanHourMinute_padded hhour hminute,
    scanSecond_padded hsecond t.time.writtenNano_lt, t.time.ofParts?_written]
  rfl

end Timestamp

namespace Value

mutual

/-- The value that the form of `v` is read as, with its times settled. -/
def settled : Value → Value
  | .time t => .time t.settled
  | .timestamp t => .timestamp t.settled
  | .array items => .array (allSettled items)
  | v => v

def allSettled : List Value → List Value
  | [] => []
  | v :: vs => v.settled :: allSettled vs

end

end Value

end Pushdown
