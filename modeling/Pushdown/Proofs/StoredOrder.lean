import Pushdown.Proofs.IntegerRounding
import Pushdown.Proofs.Negation
import Pushdown.Proofs.ValueOrder
import Pushdown.StoredForm

/-!
# Stored forms in order

`Stored.order`: values that are kept whole in documents (`isExact`) are in the same order as their stored forms.
This takes in integers of at most 53 bits, since comparisons of numbers are made in double precision; times without
a fraction of a millisecond, since moments are stored in milliseconds; and no content that is kept beside the
documents.
-/

namespace Pushdown

open Bson

/-- Whether the time of day is one of whole milliseconds and is no leap second. -/
def Time.isWhole (t : Time) : Bool := t.nano % 1000000 == 0 && decide (t.nano < 1000000000)

theorem Time.isWhole_iff (t : Time) : t.isWhole = true ↔ t.nano % 1000000 = 0 ∧ t.nano < 1000000000 := by
  simp [isWhole]

namespace Value

/-- Whether the stored form of a value is in the same place among stored forms as the value among
values. -/
def isExact : Value → Bool
  | .boolean _ | .byte _ | .short _ | .integer _ | .char _ | .string _ | .date _ => true
  | .long n => decide (n.toInt.natAbs < 2 ^ 53)
  | .float x => !x.toFloat.isNaN
  | .double x => !x.isNaN
  | .bigInteger n => !(Float.ofInt n.val).isNaN
  | .bigDecimal text => (readFloat? text).any fun x => !x.isNaN
  | .time t => t.isWhole
  | .timestamp t => t.time.isWhole
  | _ => false

/-- Storing the value, in whatever store of large objects, gives `b`. -/
def Stored (v : Value) (b : Bson) : Prop :=
  ∃ (σ : Type) (objects : LargeObjects σ) (s s' : σ), v.toStored objects s = (.ok b, s')

def moment? : Value → Option Timestamp
  | .date d => some ⟨d, .midnight⟩
  | .time t => some ⟨.epoch, t⟩
  | .timestamp t => some t
  | _ => none

end Value

namespace Timestamp

variable {a b : Timestamp}

theorem compare_epochMillis (ha : a.time.isWhole) (hb : b.time.isWhole) :
    Ord.compare a.epochMillis b.epochMillis = a.compare b := by
  obtain ⟨ha1, ha2⟩ := a.time.isWhole_iff.mp ha
  obtain ⟨hb1, hb2⟩ := b.time.isWhole_iff.mp hb
  have hasec := a.time.second_lt
  have hbsec := b.time.second_lt
  rw [epochMillis, epochMillis, compare, Time.compare]
  rcases Int.lt_trichotomy a.date.day b.date.day with hday | hday | hday
  · rw [Int.compare_eq_lt.mpr hday, Int.compare_eq_lt.mpr (by omega)]
    rfl
  · rw [Int.compare_eq_eq.mpr hday]
    rcases Nat.lt_trichotomy a.time.second b.time.second with hsec | hsec | hsec
    · rw [Nat.compare_eq_lt.mpr hsec, Int.compare_eq_lt.mpr (by omega)]
      rfl
    · rw [Nat.compare_eq_eq.mpr hsec]
      rcases Nat.lt_trichotomy a.time.nano b.time.nano with hnano | hnano | hnano
      · rw [Nat.compare_eq_lt.mpr hnano, Int.compare_eq_lt.mpr (by omega)]
        rfl
      · rw [Nat.compare_eq_eq.mpr hnano, Int.compare_eq_eq.mpr (by omega)]
        rfl
      · rw [Nat.compare_eq_gt.mpr hnano, Int.compare_eq_gt.mpr (by omega)]
        rfl
    · rw [Nat.compare_eq_gt.mpr hsec, Int.compare_eq_gt.mpr (by omega)]
      rfl
  · rw [Int.compare_eq_gt.mpr hday, Int.compare_eq_gt.mpr (by omega)]
    rfl

theorem toInt_ofInt_epochMillis (t : Timestamp) : (Int64.ofInt t.epochMillis).toInt = t.epochMillis := by
  have hlow := t.date.notBefore
  have hhigh := t.date.notAfter
  have hsec := t.time.second_lt
  have hnano := t.time.nano_lt
  simp only [Calendar.yearStart, Calendar.leapDaysBefore] at hlow hhigh
  exact Int64.toInt_ofInt_of_le (by rw [epochMillis]; omega) (by rw [epochMillis]; omega)

end Timestamp

variable {x : Float}

namespace Value

variable {v : Value} {b : Bson}

theorem Stored.number (h : v.Stored b) (hv : v.isExact) (hx : v.float? = some x) :
    (b = .double x ∧ x.isNaN = false) ∨ ∃ n : Int, b.whole? = some n ∧ n.natAbs < 2 ^ 53 ∧ x = Float.ofInt n := by
  obtain ⟨σ, objects, s, s', h⟩ := h
  cases v with
  | byte n | short n =>
    cases h
    cases hx
    have := n.toInt_lt
    have := n.le_toInt
    exact .inr ⟨n.toInt, by simp [Bson.whole?], by omega, rfl⟩
  | integer n =>
    cases h
    cases hx
    have := n.toInt_lt
    have := n.le_toInt
    exact .inr ⟨n.toInt, rfl, by omega, rfl⟩
  | long n =>
    cases h
    cases hx
    exact .inr ⟨n.toInt, rfl, of_decide_eq_true hv, rfl⟩
  | float x | double x | bigInteger n =>
    cases h
    cases hx
    exact .inl ⟨rfl, by simpa [isExact] using hv⟩
  | bigDecimal text =>
    rw [float?] at hx
    rw [toStored, hx] at h
    cases h
    exact .inl ⟨rfl, by simpa [isExact, hx] using hv⟩
  | _ => cases hx

theorem Stored.text (h : v.Stored b) (hv : v.isExact) {t : String} (ht : v.text? = some t) : b = .string t := by
  obtain ⟨σ, objects, s, s', h⟩ := h
  cases v with
  | char c | string t => cases h; cases ht; rfl
  | clob t | xml t => cases hv
  | _ => cases ht

theorem Stored.boolean {p : Bool} (h : (Value.boolean p).Stored b) : b = .boolean p := by
  obtain ⟨σ, objects, s, s', h⟩ := h
  cases h
  rfl

theorem Stored.moment (h : v.Stored b) (hv : v.isExact) {t : Timestamp} (ht : v.moment? = some t) :
    b = .dateTime (Int64.ofInt t.epochMillis) ∧ t.time.isWhole := by
  obtain ⟨σ, objects, s, s', h⟩ := h
  cases v with
  | date d => cases h; cases ht; exact ⟨rfl, rfl⟩
  | time t | timestamp t => cases h; cases ht; exact ⟨rfl, hv⟩
  | _ => cases ht

end Value

namespace Bson

variable {a b : Bson} {m n : Int}

theorem rank_of_whole? (ha : a.whole? = some m) : a.rank = 10 := by
  cases a <;> first | rfl | cases ha

theorem order_of_whole? (ha : a.whole? = some m) (hb : b.whole? = some n) : a.order b = compare m n := by
  cases a <;> cases ha <;> cases b <;> cases hb <;> rfl

theorem order_whole_double (ha : a.whole? = some m) (x : Float) : a.order (.double x) = orderIntFloat m x := by
  cases a <;> cases ha <;> rfl

theorem order_double_whole (hb : b.whole? = some n) (x : Float) : (double x).order b = (orderIntFloat n x).swap := by
  cases b <;> cases hb <;> rfl

theorem orderFloat_eq {y : Float} {o : Ordering} (h : compareFloat x y = some o) : orderFloat x y = o := by
  rw [orderFloat, h]

theorem orderIntFloat_eq (hn : n.natAbs < 2 ^ 53) {o : Ordering} (h : compareFloat (Float.ofInt n) x = some o) :
    orderIntFloat n x = o := by
  rw [orderIntFloat, (Double.isNaN_of_compareFloat h).2, if_neg Bool.false_ne_true, if_pos (by omega), orderFloat_eq h]

end Bson

namespace Value

variable {a b : Value} {x y : Bson} {o : Ordering}

section

variable (hx : a.Stored x) (hy : b.Stored y) (ha : a.isExact) (hb : b.isExact)

include hx hy ha hb

theorem Stored.order_number {u w : Float} (hu : a.float? = some u) (hw : b.float? = some w)
    (h : compareFloat u w = some o) : x.rank = y.rank ∧ x.order y = o := by
  rcases hx.number ha hu with ⟨rfl, -⟩ | ⟨m, hm, hmlt, rfl⟩ <;>
    rcases hy.number hb hw with ⟨rfl, -⟩ | ⟨n, hn, hnlt, rfl⟩
  · exact ⟨rfl, orderFloat_eq h⟩
  · have hswap : compareFloat (Float.ofInt n) u = some o.swap := by
      rw [Double.compareFloat_swap, h]
      rfl
    refine ⟨(rank_of_whole? hn).symm, ?_⟩
    rw [order_double_whole hn, orderIntFloat_eq hnlt hswap, Ordering.swap_swap]
  · exact ⟨rank_of_whole? hm, by rw [order_whole_double hm, orderIntFloat_eq hmlt h]⟩
  · rw [Double.compareFloat_ofInt hmlt hnlt] at h
    cases h
    exact ⟨(rank_of_whole? hm).trans (rank_of_whole? hn).symm, order_of_whole? hm hn⟩

theorem Stored.order_moment {t u : Timestamp} (ht : a.moment? = some t) (hu : b.moment? = some u) :
    x.rank = y.rank ∧ x.order y = t.compare u := by
  obtain ⟨rfl, hwt⟩ := hx.moment ha ht
  obtain ⟨rfl, hwu⟩ := hy.moment hb hu
  refine ⟨rfl, ?_⟩
  show compare (Int64.ofInt t.epochMillis).toInt (Int64.ofInt u.epochMillis).toInt = _
  rw [t.toInt_ofInt_epochMillis, u.toInt_ofInt_epochMillis, Timestamp.compare_epochMillis hwt hwu]

theorem Stored.order (h : a.compare? b = some o) : x.rank = y.rank ∧ x.order y = o := by
  obtain ⟨r, p, q, hp, hq, rfl⟩ := Reading.exists_of_compare? h
  cases r with
  | number =>
    obtain ⟨u, hu, -⟩ := Option.bind_eq_some_iff.mp hp
    obtain ⟨w, hw, -⟩ := Option.bind_eq_some_iff.mp hq
    refine hx.order_number hy ha hb hu hw ?_
    simpa only [compare?, hu, hw] using h
  | text =>
    obtain rfl := hx.text ha hp
    obtain rfl := hy.text hb hq
    exact ⟨rfl, rfl⟩
  | truth =>
    cases a <;> cases hp
    cases b <;> cases hq
    obtain rfl := hx.boolean
    obtain rfl := hy.boolean
    exact ⟨rfl, rfl⟩
  | moment => cases a <;> cases hp <;> cases b <;> cases hq <;> exact hx.order_moment hy ha hb rfl rfl
  | time =>
    cases a <;> cases hp
    cases b <;> cases hq
    exact hx.order_moment hy ha hb rfl rfl
  | bytes => cases a <;> cases hp <;> cases ha

end

theorem Stored.isConstant (hx : a.Stored x) (ha : a.isExact) : x.isConstant := by
  obtain ⟨σ, objects, s, s', hx⟩ := hx
  cases a with
  | null | varbinary bytes | blob bytes | clob t | xml t | array items => cases ha
  | bigDecimal text =>
    cases hread : readFloat? text with
    | none =>
      rw [isExact, hread] at ha
      cases ha
    | some u =>
      rw [toStored, hread] at hx
      cases hx
      simpa [isExact, isConstant, hread] using ha
  | long n | time t | timestamp t => cases hx; rfl
  | _ => cases hx; exact ha

theorem compare?_null (v : Value) : compare? .null v = none := by cases v <;> rfl

theorem compare?_null_right (v : Value) : v.compare? .null = none := by
  rw [compare?_swap, compare?_null]
  rfl

end Value

end Pushdown
