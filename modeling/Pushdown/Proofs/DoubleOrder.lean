import Mathlib
import Pushdown.Sql.Value

/-!
# The order of numbers of double precision

`compareFloat_eq`: floating-point numbers are compared by `place?`, that is by sign, exponent and mantissa.
`parts_ofNat`: an integer of at most 53 bits is a number of double precision. Its mantissa is the integer moved up
until it has all its bits (`Normal`), and its exponent takes the `places` back.
-/

namespace Pushdown

namespace Double

open Float.Model Float.Model.UnpackedFloat

variable {n : Nat}

def parts (x : Float) : UnpackedFloat := x.toModel.unpack

theorem lt_iff (x y : Float) : x < y ↔ (parts x).compare (parts y) = some .lt := by
  have h : x < y ↔ (parts x).lt (parts y) = true := decide_eq_true_iff
  rw [h, UnpackedFloat.lt, beq_iff_eq]

theorem beq_iff (x y : Float) : (x == y) = true ↔ (parts x).compare (parts y) = some .eq := by
  have h : (x == y) = (parts x).beq (parts y) := rfl
  rw [h, UnpackedFloat.beq, beq_iff_eq]

/-- The place of a number among all numbers: by sign, then by exponent, then by mantissa. -/
def place? : UnpackedFloat → Option (Int × Int × Int)
  | .notANumber => none
  | .infinity .negative => some (-2, 0, 0)
  | .finite .negative m e _ => some (-1, -e, -m)
  | .zero _ => some (0, 0, 0)
  | .finite .positive m e _ => some (1, e, m)
  | .infinity .positive => some (2, 0, 0)

def orderPlaces : Int × Int × Int → Int × Int × Int → Ordering :=
  compareLex (compareOn (·.1)) (compareLex (compareOn (·.2.1)) (compareOn (·.2.2)))

instance : Std.TransCmp orderPlaces :=
  inferInstanceAs (Std.TransCmp (compareLex (compareOn _) (compareLex (compareOn _) (compareOn _))))

theorem compare_neg (a b : Int) : compare (-a) (-b) = (compare a b).swap := by
  rw [← Std.OrientedCmp.eq_swap]
  simp only [compare, compareOfLessAndEq]
  congr 1 <;> simp [eq_comm]

theorem compare_cast (m n : Nat) : compare (m : Int) n = compare m n := by
  simp only [compare, compareOfLessAndEq]
  congr 1 <;> simp

theorem compare_eq_places (a b : UnpackedFloat) :
    a.compare b = (place? a).bind fun p => (place? b).map (orderPlaces p) := by
  rcases a with (_ | _) | _ | _ | ⟨_ | _, m, e, hm⟩ <;>
    rcases b with (_ | _) | _ | _ | ⟨_ | _, n, f, hn⟩
  case finite.negative.finite.negative =>
    simp [place?, UnpackedFloat.compare, orderPlaces, compareLex, compareOn, compare_neg, compare_cast,
      Ordering.swap_then]
  case finite.positive.finite.positive =>
    simp [place?, UnpackedFloat.compare, orderPlaces, compareLex, compareOn, compare_cast]
  all_goals rfl

theorem compare_swap (a b : UnpackedFloat) : b.compare a = (a.compare b).map Ordering.swap := by
  rw [compare_eq_places, compare_eq_places]
  cases place? a <;> cases place? b
  case some.some p q => exact congrArg some Std.OrientedCmp.eq_swap
  all_goals rfl

theorem compareFloat_eq (x y : Float) : compareFloat x y = (parts x).compare (parts y) := by
  have hgt : y < x ↔ (parts x).compare (parts y) = some .gt := by
    rw [lt_iff, compare_swap]
    rcases (parts x).compare (parts y) with _ | _ | _ | _ <;> simp
  rw [compareFloat]
  simp only [lt_iff, beq_iff, hgt]
  rcases (parts x).compare (parts y) with _ | _ | _ | _ <;> rfl

theorem compareFloat_swap (x y : Float) : compareFloat y x = (compareFloat x y).map Ordering.swap := by
  rw [compareFloat_eq, compareFloat_eq, compare_swap]

theorem isNaN_of_compareFloat {x y : Float} {o : Ordering} (h : compareFloat x y = some o) :
    x.isNaN = false ∧ y.isNaN = false := by
  have hx : x.isNaN = (parts x).isNaN := rfl
  have hy : y.isNaN = (parts y).isNaN := rfl
  rw [compareFloat_eq] at h
  rw [hx, hy]
  cases ha : parts x with
  | notANumber => rw [ha] at h; cases h
  | _ =>
    cases hb : parts y with
    | notANumber => rw [compare_swap, hb] at h; cases h
    | _ => exact ⟨rfl, rfl⟩

/-- Mantissa and exponent of a number that has all bits of its mantissa. -/
structure Normal (m : Nat) (e : Int) : Prop where
  low : 2 ^ 52 ≤ m
  high : m < 2 ^ 53
  least : -1074 ≤ e
  greatest : e ≤ 971

theorem log2_mul_two_pow {m : Nat} (h : m ≠ 0) (j : Nat) : (m * 2 ^ j).log2 = m.log2 + j := by
  induction j with
  | zero => simp
  | succ j ih =>
    have hne : m * 2 ^ j ≠ 0 := Nat.mul_ne_zero h (Nat.ne_of_gt (Nat.two_pow_pos j))
    rw [Nat.pow_succ, ← Nat.mul_assoc, Nat.mul_comm, Nat.log2_two_mul hne, ih, Nat.add_assoc]

theorem shiftRight_mul_two_pow (m j : Nat) :
    (⟨m * 2 ^ j, false, false⟩ : ExtendedMantissa) >>> j = ⟨m, false, false⟩ := by
  induction j generalizing m with
  | zero => rw [Nat.pow_zero, Nat.mul_one]; rfl
  | succ j ih =>
    have hsplit : m * 2 ^ (j + 1) = m * 2 * 2 ^ j := by
      rw [Nat.pow_succ, Nat.mul_assoc, Nat.mul_comm 2]
    show ((⟨m * 2 ^ (j + 1), false, false⟩ : ExtendedMantissa) >>> j).shiftRightOne = _
    rw [hsplit, ih (m * 2), ExtendedMantissa.shiftRightOne]
    simp

theorem unpackSign_packComponents {spec : Format} (s : Sign) (exponent : BitVec spec.exponentBits)
    (mantissa : BitVec spec.mantissaBitsWithoutImplicit) :
    unpackSign (packComponents spec s exponent mantissa) = s.toBitVec := by
  refine BitVec.eq_of_getLsbD_eq fun i hi => ?_
  obtain rfl : i = 0 := by omega
  simp [unpackSign, packComponents, BitVec.getLsbD_append, BitVec.getElem_append]

theorem ofBitVec_toBitVec (s : Sign) : Sign.ofBitVec s.toBitVec = s := by cases s <;> rfl

namespace Normal

variable {m : Nat} {e : Int}

variable (h : Normal m e)

include h

theorem pos : 0 < m := by have := h.low; omega

theorem log2_eq : m.log2 = 52 :=
  (Nat.log2_eq_iff (Nat.ne_of_gt h.pos)).mpr ⟨h.low, h.high⟩

theorem targetExponent_eq (j : Nat) : Format.binary64.targetExponent (totalExponent (m * 2 ^ j) (e - j)) = e := by
  have hleast := h.least
  have hlog : (m * 2 ^ j).log2 = 52 + j := by
    rw [log2_mul_two_pow (Nat.ne_of_gt h.pos), h.log2_eq]
  have hbits : Format.binary64.mantissaBits = 53 := rfl
  have hmin : Format.binary64.minExponent = -1074 := rfl
  rw [Format.targetExponent, totalExponent, hlog, hbits, hmin]
  omega

theorem shiftToTargetExponent_eq (j : Nat) :
    shiftToTargetExponent .binary64 (m * 2 ^ j) (e - j) .exact = (⟨m, false, false⟩, e) := by
  have hamount : (e - (e - j)).toNat = j := by omega
  rw [shiftToTargetExponent, h.targetExponent_eq, shiftToExponent, hamount]
  simp only [ExtendedMantissa.ofMantissaAndAccuracy, shiftRight_mul_two_pow]
  congr 1
  omega

theorem roundWithAccuracy_eq (s : Sign) (j : Nat) :
    roundWithAccuracy .binary64 s (m * 2 ^ j) (e - j) .exact = .finite s m e h.pos := by
  have hagain : shiftToTargetExponent .binary64 m e .exact = (⟨m, false, false⟩, e) := by
    simpa using h.shiftToTargetExponent_eq 0
  rw [roundWithAccuracy, h.shiftToTargetExponent_eq]
  simp only [ExtendedMantissa.roundedMantissa, ExtendedMantissa.accuracy, Accuracy.roundToNearestEven, hagain]
  exact dif_neg (Nat.ne_of_gt h.pos)

theorem toNat_append_ofNat : (1#1 ++ BitVec.ofNat 52 m).toNat = m := by
  have hlow := h.low
  have hhigh := h.high
  have hmod : m % 2 ^ 52 = m - 2 ^ 52 := by omega
  rw [BitVec.toNat_append, BitVec.toNat_ofNat m, hmod]
  show 1 <<< 52 ||| (m - 2 ^ 52) = m
  rw [← Nat.shiftLeft_add_eq_or_of_lt (by omega)]
  omega

theorem unpack_pack (s : Sign) : (Float.Model.pack (.finite s m e h.pos)).unpack = .finite s m e h.pos := by
  have hleast := h.least
  have hgreatest := h.greatest
  obtain ⟨biased, hbiased⟩ : ∃ n : Nat, e = n - 1075 := ⟨(e + 1075).toNat, by omega⟩
  have hexponent : (e + Format.binary64.exponentBias +
      Format.binary64.mantissaBitsWithoutImplicit).toNat = biased := by
    show (e + 1023 + 52).toNat = biased
    omega
  have hpack : UnpackedFloat.pack .binary64 (.finite s m e h.pos) =
      packComponents .binary64 s (BitVec.ofNat 11 biased) (BitVec.ofNat 52 m) := by
    rw [UnpackedFloat.pack]
    simp only [hexponent]
    rw [if_neg (show ¬2 ^ 11 ≤ biased + 1 by omega), if_pos (by rw [h.log2_eq]; rfl)]
  have hones : BitVec.ofNat 11 biased ≠ -1#11 := by
    intro heq
    have := congrArg BitVec.toNat heq
    simp at this
    omega
  have hzero : BitVec.ofNat 11 biased ≠ 0#11 := by
    intro heq
    have := congrArg BitVec.toNat heq
    simp at this
    omega
  show UnpackedFloat.unpack .binary64 (UnpackedFloat.pack .binary64 (.finite s m e h.pos)) = _
  rw [hpack, UnpackedFloat.unpack]
  simp only [unpackExponent_packComponents, unpackMantissa_packComponents, unpackSign_packComponents,
    ofBitVec_toBitVec]
  rw [if_neg hones, if_neg hzero]
  congr 1
  · exact h.toNat_append_ofNat
  · simp [Format.exponentBias]
    omega

end Normal

/-- The places by which an integer is moved up to have all bits of a mantissa. -/
def places (n : Nat) : Nat := 52 - n.log2

section

variable (hpos : 0 < n) (h : n < 2 ^ 53)

include hpos h

theorem normal_places : Normal (n * 2 ^ places n) (-(places n : Int)) := by
  have hlog : n.log2 < 53 := (Nat.log2_lt (Nat.ne_of_gt hpos)).mpr h
  have hmoved : (n * 2 ^ places n).log2 = 52 := by
    rw [log2_mul_two_pow (Nat.ne_of_gt hpos), places]
    omega
  have hne : n * 2 ^ places n ≠ 0 := Nat.mul_ne_zero (Nat.ne_of_gt hpos) (Nat.ne_of_gt (Nat.two_pow_pos _))
  obtain ⟨hlow, hhigh⟩ := (Nat.log2_eq_iff hne).mp hmoved
  have hplaces : places n ≤ 52 := Nat.sub_le ..
  exact ⟨hlow, hhigh, by omega, by omega⟩

theorem round_eq (s : Sign) :
    UnpackedFloat.round .binary64 s n 0 =
      .finite s (n * 2 ^ places n) (-(places n : Int)) (normal_places hpos h).pos := by
  have hlog : n.log2 < 53 := (Nat.log2_lt (Nat.ne_of_gt hpos)).mpr h
  have htarget : Format.binary64.targetExponent (totalExponent n 0) = -(places n : Int) := by
    have hbits : Format.binary64.mantissaBits = 53 := rfl
    have hmin : Format.binary64.minExponent = -1074 := rfl
    rw [Format.targetExponent, totalExponent, hbits, hmin, places]
    omega
  have hamount : (0 - -(places n : Int)).toNat = places n := by omega
  have hround := (normal_places hpos h).roundWithAccuracy_eq s 0
  rw [UnpackedFloat.round, htarget, decreaseExponent, hamount]
  simpa [Nat.shiftLeft_eq] using hround

theorem parts_toFloat :
    parts n.toUInt64.toFloat =
      .finite .positive (n * 2 ^ places n) (-(places n : Int)) (normal_places hpos h).pos := by
  have hround : UnpackedFloat.ofUInt64 .binary64 n.toUInt64 =
      UnpackedFloat.round .binary64 .positive n 0 := by
    have hn : n.toUInt64.toNat = n := Nat.mod_eq_of_lt (by omega)
    have hcompare : compare (n : Int) 0 = .gt := Int.compare_eq_gt.mpr (by omega)
    rw [UnpackedFloat.ofUInt64, UnpackedFloat.ofNat, UnpackedFloat.ofInt, hn, UnpackedFloat.normalize, hcompare]
    rfl
  show (Float.Model.pack (UnpackedFloat.ofUInt64 .binary64 n.toUInt64)).unpack = _
  rw [hround, round_eq hpos h]
  exact (normal_places hpos h).unpack_pack .positive

theorem parts_ofNat :
    parts (Float.ofNat n) = .finite .positive (n * 2 ^ places n) (-(places n : Int)) (normal_places hpos h).pos := by
  have hnormal := normal_places hpos h
  -- the number one, by which the conversion multiplies
  have hone : parts (Float.ofBits 0x3FF0000000000000) = .finite .positive (2 ^ 52) (-52) (by decide) := rfl
  have hproduct : Float.ofNat n = n.toUInt64.toFloat * Float.ofBits 0x3FF0000000000000 := by
    show Float.ofScientific n false 0 = _
    rw [Float.ofScientific, dif_pos ⟨h, by decide⟩]
    rfl
  rw [hproduct]
  show (Float.Model.pack ((parts n.toUInt64.toFloat).mul .binary64
    (parts (Float.ofBits 0x3FF0000000000000)))).unpack = _
  rw [parts_toFloat hpos h, hone]
  show (Float.Model.pack (roundWithAccuracy .binary64 .positive _ (-(places n : Int) - (52 : Nat)) .exact)).unpack = _
  rw [hnormal.roundWithAccuracy_eq .positive 52]
  exact hnormal.unpack_pack .positive

end

def signOf (n : Int) : Sign := if n < 0 then .negative else .positive

theorem compare_natAbs {a b : Int} (ha : 0 < a) (hb : 0 < b) : compare a.natAbs b.natAbs = compare a b := by
  rw [← compare_cast, Int.natAbs_of_nonneg ha.le, Int.natAbs_of_nonneg hb.le]

theorem compare_natAbs_swap {a b : Int} (ha : a < 0) (hb : b < 0) :
    (compare a.natAbs b.natAbs).swap = compare a b := by
  rw [← compare_cast, Int.ofNat_natAbs_of_nonpos ha.le, Int.ofNat_natAbs_of_nonpos hb.le, compare_neg,
    Ordering.swap_swap]

end Double

end Pushdown
