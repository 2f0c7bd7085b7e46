import Pushdown.Proofs.DoubleOrder

/-!
# Integers as numbers of double precision

A number of double precision has 53 bits for its mantissa. `nearest`: an integer with more bits is rounded to the
nearest one that has no more, and of two to the one with the even mantissa. Conversion, sums, differences and
products round in this way (`stands_ofInt`, `Stands.add`, `Stands.mul`), so that each of them is said by the integer
that its result `Stands` for.
-/

namespace Pushdown

/-! ### Rounded quotients -/

theorem roundDiv_one (n : Nat) : roundDiv n 1 = n := by simp [roundDiv, Nat.mod_one]

theorem roundDiv_mul_right (a b : Nat) {c : Nat} (hc : 0 < c) : roundDiv (a * c) (b * c) = roundDiv a b := by
  have hmod : 2 * (a * c % (b * c)) = 2 * (a % b) * c := by rw [Nat.mul_mod_mul_right, Nat.mul_assoc]
  simp only [roundDiv, Nat.mul_div_mul_right _ _ hc, hmod, Nat.mul_lt_mul_right hc]

theorem roundDiv_mul_self (k : Nat) {d : Nat} (hd : 0 < d) : roundDiv (k * d) d = k := by
  simpa only [Nat.one_mul, roundDiv_one] using roundDiv_mul_right k 1 hd

theorem roundDiv_congr {a b c d : Nat} (hb : 0 < b) (hd : 0 < d) (h : a * d = c * b) :
    roundDiv a b = roundDiv c d := by
  rw [← roundDiv_mul_right a b hd, ← roundDiv_mul_right c d hb, h, Nat.mul_comm b d]

theorem div_le_roundDiv (n d : Nat) : n / d ≤ roundDiv n d := by
  unfold roundDiv
  simp only
  split
  · exact le_rfl
  · split <;> exact Nat.le_add_right ..

theorem roundDiv_le_div_succ (n d : Nat) : roundDiv n d ≤ n / d + 1 := by
  unfold roundDiv
  simp only
  split
  · exact Nat.le_succ _
  · split <;> omega

theorem roundDiv_mono {m n : Nat} (h : m ≤ n) (d : Nat) : roundDiv m d ≤ roundDiv n d := by
  rcases Nat.lt_or_eq_of_le (Nat.div_le_div_right h : m / d ≤ n / d) with hlt | heq
  · calc roundDiv m d ≤ m / d + 1 := roundDiv_le_div_succ m d
      _ ≤ n / d := hlt
      _ ≤ roundDiv n d := div_le_roundDiv n d
  · have hmod : m % d ≤ n % d := by
      have hm := Nat.div_add_mod m d
      have hn := Nat.div_add_mod n d
      rw [heq] at hm
      omega
    unfold roundDiv
    simp only [heq]
    split_ifs <;> omega

namespace Double

open Float.Model Float.Model.UnpackedFloat

variable {m n : Int} {s : Sign} {u v : UnpackedFloat}

/-! ### The nearest integer with a mantissa -/

def excess (n : Nat) : Nat := n.log2 - 52

/-- The nearest integer with no more bits than a mantissa, at the start of the integer; of two the one with
the even mantissa. -/
def nearestNat (n : Nat) : Nat := roundDiv n (2 ^ excess n) * 2 ^ excess n

def nearest (n : Int) : Int := if n < 0 then -(nearestNat n.natAbs : Int) else nearestNat n.natAbs

theorem nearestNat_of_excess {n : Nat} (h : excess n = 0) : nearestNat n = n := by
  rw [nearestNat, h, Nat.pow_zero, Nat.mul_one, roundDiv_one]

theorem excess_of_lt {n : Nat} (h : n < 2 ^ 53) : excess n = 0 := by
  rcases Nat.eq_zero_or_pos n with rfl | hpos
  · decide
  · have hlog : n.log2 < 53 := (Nat.log2_lt (Nat.ne_of_gt hpos)).mpr h
    rw [excess]
    omega

theorem nearestNat_two_pow (k : Nat) : nearestNat (2 ^ k) = 2 ^ k := by
  rcases Nat.lt_or_ge k 53 with hk | hk
  · exact nearestNat_of_excess (excess_of_lt (Nat.pow_lt_pow_right (by decide) hk))
  · have hsplit : 2 ^ k = 2 ^ 52 * 2 ^ (k - 52) := by rw [← Nat.pow_add]; congr 1; omega
    rw [nearestNat, excess, Nat.log2_two_pow, hsplit, roundDiv_mul_self _ (Nat.two_pow_pos _)]

theorem two_pow_excess_mul {n : Nat} (h : 52 ≤ n.log2) (j : Nat) : 2 ^ (52 + j) * 2 ^ excess n = 2 ^ (n.log2 + j) := by
  rw [← Nat.pow_add, excess]
  congr 1
  omega

theorem nearestNat_bounds {n : Nat} (hn : n ≠ 0) : 2 ^ n.log2 ≤ nearestNat n ∧ nearestNat n ≤ 2 ^ (n.log2 + 1) := by
  have hlow := Nat.log2_self_le hn
  have hhigh := Nat.le_of_lt (Nat.lt_log2_self (n := n))
  rcases Nat.lt_or_ge n.log2 52 with hlog | hlog
  · rw [nearestNat_of_excess (by rw [excess]; omega)]
    exact ⟨hlow, hhigh⟩
  · have hpos := Nat.two_pow_pos (excess n)
    have hstart := two_pow_excess_mul hlog 0
    have hend := two_pow_excess_mul hlog 1
    have hround := roundDiv_mono hlow (2 ^ excess n)
    have hround' := roundDiv_mono hhigh (2 ^ excess n)
    rw [← hend, roundDiv_mul_self _ hpos] at hround'
    rw [← Nat.add_zero n.log2, ← hstart, roundDiv_mul_self _ hpos] at hround
    rw [nearestNat, ← hend]
    exact ⟨hstart.symm.le.trans (Nat.mul_le_mul_right _ hround), Nat.mul_le_mul_right _ hround'⟩

theorem nearestNat_mono {m n : Nat} (h : m ≤ n) : nearestNat m ≤ nearestNat n := by
  rcases Nat.eq_zero_or_pos m with rfl | hm
  · exact Nat.zero_le _
  · have hn : n ≠ 0 := by omega
    have hlog : m.log2 ≤ n.log2 := (Nat.le_log2 hn).mpr ((Nat.log2_self_le (Nat.ne_of_gt hm)).trans h)
    rcases Nat.lt_or_eq_of_le hlog with hlt | heq
    · calc nearestNat m ≤ 2 ^ (m.log2 + 1) := (nearestNat_bounds (Nat.ne_of_gt hm)).2
        _ ≤ 2 ^ n.log2 := Nat.pow_le_pow_right (by decide) hlt
        _ ≤ nearestNat n := (nearestNat_bounds hn).1
    · rw [nearestNat, nearestNat, excess, excess, heq]
      exact Nat.mul_le_mul_right _ (roundDiv_mono h _)

theorem nearest_natCast (n : Nat) : nearest n = nearestNat n := by
  rw [nearest, if_neg (by omega), Int.natAbs_natCast]

theorem nearest_neg (n : Int) : nearest (-n) = -nearest n := by
  rcases Int.lt_trichotomy n 0 with h | rfl | h
  · rw [nearest, nearest, if_neg (by omega), if_pos h, Int.natAbs_neg, neg_neg]
  · rfl
  · rw [nearest, nearest, if_pos (by omega), if_neg (by omega), Int.natAbs_neg]

@[simp] theorem apply_negative (n : Int) : Sign.negative.apply n = -n := rfl

@[simp] theorem apply_positive (n : Int) : Sign.positive.apply n = n := rfl

theorem natAbs_apply (s : Sign) (n : Nat) : (s.apply n).natAbs = n := by cases s <;> simp

theorem nearest_apply (s : Sign) (n : Nat) : nearest (s.apply n) = s.apply (nearestNat n) := by
  cases s with
  | positive => exact nearest_natCast n
  | negative => rw [apply_negative, nearest_neg, nearest_natCast, apply_negative]

theorem nearest_mono (h : m ≤ n) : nearest m ≤ nearest n := by
  rcases Int.lt_or_le m 0 with hm | hm
  · rcases Int.lt_or_le n 0 with hn | hn
    · have hnat := nearestNat_mono (show n.natAbs ≤ m.natAbs by omega)
      rw [nearest, nearest, if_pos hm, if_pos hn]
      omega
    · rw [nearest, nearest, if_pos hm, if_neg (by omega)]
      omega
  · have hnat := nearestNat_mono (show m.natAbs ≤ n.natAbs by omega)
    rw [nearest, nearest, if_neg (by omega), if_neg (by omega)]
    omega

theorem lt_of_nearest_lt (h : nearest m < nearest n) : m < n :=
  lt_of_not_ge fun hle => absurd (nearest_mono hle) (not_le.mpr h)

theorem nearest_of_le {n : Int} (h : n.natAbs ≤ 2 ^ 53) : nearest n = n := by
  have hnat : nearestNat n.natAbs = n.natAbs := by
    rcases Nat.lt_or_eq_of_le h with hlt | heq
    · exact nearestNat_of_excess (excess_of_lt hlt)
    · rw [heq, nearestNat_two_pow]
  rw [nearest, hnat]
  split <;> omega

theorem natAbs_nearest_le {n : Int} {k : Nat} (h : n.natAbs ≤ 2 ^ k) : (nearest n).natAbs ≤ 2 ^ k := by
  have hnat := (nearestNat_mono h).trans_eq (nearestNat_two_pow k)
  rw [nearest]
  split <;> omega

/-! ### Mantissas that lose bits -/

/-- The bits that a mantissa loses are summed up in the first of them and in whether there is one after it. -/
theorem shiftRight_exact (m k : Nat) : (⟨m, false, false⟩ : ExtendedMantissa) >>> (k + 1) =
    ⟨m / 2 ^ (k + 1), m / 2 ^ k % 2 != 0, m % 2 ^ k != 0⟩ := by
  induction k with
  | zero =>
    show (⟨m, false, false⟩ : ExtendedMantissa).shiftRightOne = _
    simp [ExtendedMantissa.shiftRightOne, Nat.mod_one]
  | succ k ih =>
    show ((⟨m, false, false⟩ : ExtendedMantissa) >>> (k + 1)).shiftRightOne = _
    rw [ih, ExtendedMantissa.shiftRightOne]
    have hsticky : (m / 2 ^ k % 2 != 0 || m % 2 ^ k != 0) = (m % 2 ^ (k + 1) != 0) := by
      rw [Nat.pow_succ, Nat.mod_mul, Bool.eq_iff_iff]
      have hpos := Nat.two_pow_pos k
      rcases Nat.mod_two_eq_zero_or_one (m / 2 ^ k) with hbit | hbit <;> simp [hbit]
    rw [hsticky, Nat.div_div_eq_div_mul, ← Nat.pow_succ]

theorem roundedMantissa_shiftRight (m k : Nat) :
    ((⟨m, false, false⟩ : ExtendedMantissa) >>> k).roundedMantissa = roundDiv m (2 ^ k) := by
  cases k with
  | zero =>
    rw [Nat.pow_zero, roundDiv_one]
    rfl
  | succ k =>
    rw [shiftRight_exact, ExtendedMantissa.roundedMantissa, roundDiv]
    have hpos := Nat.two_pow_pos k
    have hden : 2 ^ (k + 1) = 2 * 2 ^ k := by rw [Nat.pow_succ, Nat.mul_comm]
    have hmod : m % 2 ^ (k + 1) = m % 2 ^ k + 2 ^ k * (m / 2 ^ k % 2) := by rw [Nat.pow_succ, Nat.mod_mul]
    have hlt := Nat.mod_lt m hpos
    rcases Nat.mod_two_eq_zero_or_one (m / 2 ^ k) with hbit | hbit <;> rw [hbit] at hmod ⊢ <;>
      rcases Nat.eq_zero_or_pos (m % 2 ^ k) with hrest | hrest
    · rw [hrest, if_pos (by omega)]
      rfl
    · rw [bne_iff_ne.mpr (Nat.ne_of_gt hrest), if_pos (by omega)]
      rfl
    · rw [hrest, if_neg (by omega), if_neg (by omega)]
      rfl
    · rw [bne_iff_ne.mpr (Nat.ne_of_gt hrest), if_neg (by omega), if_pos (by omega)]
      rfl

/-! ### Mantissas and exponents of integers -/

section Scaled

variable {m n : Nat} {e : Int}

theorem scaled_iff : (m : ℚ) * 2 ^ e = n ↔ m * 2 ^ e.toNat = n * 2 ^ (-e).toNat := by
  obtain ⟨k, rfl | rfl⟩ := e.eq_nat_or_neg
  · simp only [zpow_natCast, Int.toNat_natCast, Int.toNat_neg_natCast, Nat.pow_zero, Nat.mul_one]
    exact_mod_cast Iff.rfl
  · have hpos : (2 : ℚ) ^ k ≠ 0 := by positivity
    simp only [zpow_neg, zpow_natCast, neg_neg, Int.toNat_natCast, Int.toNat_neg_natCast, Nat.pow_zero, Nat.mul_one]
    rw [← div_eq_mul_inv, div_eq_iff hpos]
    exact_mod_cast Iff.rfl

theorem scaled_up (j : Nat) : ((m * 2 ^ j : Nat) : ℚ) * 2 ^ (e - j) = m * 2 ^ e := by
  rw [Nat.cast_mul, Nat.cast_pow, Nat.cast_ofNat, mul_assoc, ← zpow_natCast, ← zpow_add₀ (by norm_num)]
  congr 2
  omega

theorem log2_of_scaled (hm : m ≠ 0) (h : (m : ℚ) * 2 ^ e = n) : n ≠ 0 ∧ (n.log2 : Int) = m.log2 + e := by
  rw [scaled_iff] at h
  have hn : n ≠ 0 := by
    rintro rfl
    rw [Nat.zero_mul] at h
    exact Nat.mul_ne_zero hm (Nat.ne_of_gt (Nat.two_pow_pos _)) h
  have hlog := congrArg Nat.log2 h
  rw [log2_mul_two_pow hm, log2_mul_two_pow hn] at hlog
  exact ⟨hn, by omega⟩

theorem roundDiv_of_scaled (hm : 52 ≤ m.log2) (h : (m : ℚ) * 2 ^ e = n) :
    (roundDiv m (2 ^ (m.log2 - 52)) : ℚ) * 2 ^ (e + (m.log2 - 52 : Nat)) = nearestNat n := by
  have hne : m ≠ 0 := by rintro rfl; simp at hm
  obtain ⟨-, hlog⟩ := log2_of_scaled hne h
  generalize hk : m.log2 - 52 = k
  have hexcess : excess n = (e + k).toNat := by rw [excess]; omega
  rw [scaled_iff] at h
  rw [scaled_iff, nearestNat, hexcess]
  rcases Int.lt_or_le (e + k) 0 with hneg | hpos
  · -- the integer has few bits, and what is taken off was put there before
    have hm : m = n * 2 ^ (-(e + k)).toNat * 2 ^ k := by
      rw [show e.toNat = 0 by omega, Nat.pow_zero, Nat.mul_one] at h
      rw [h, Nat.mul_assoc, ← Nat.pow_add]
      congr 2
      omega
    rw [show (e + k).toNat = 0 by omega, Nat.pow_zero, roundDiv_one, Nat.mul_one, Nat.mul_one]
    nth_rewrite 1 [hm]
    exact roundDiv_mul_self _ (Nat.two_pow_pos k)
  · rw [show (-(e + k)).toNat = 0 by omega, Nat.pow_zero, Nat.mul_one]
    congr 1
    refine roundDiv_congr (Nat.two_pow_pos _) (Nat.two_pow_pos _) ?_
    refine Nat.eq_of_mul_eq_mul_right (Nat.two_pow_pos (-e).toNat) ?_
    calc m * 2 ^ (e + k).toNat * 2 ^ (-e).toNat = m * 2 ^ e.toNat * 2 ^ k := by
          rw [Nat.mul_assoc, Nat.mul_assoc, ← Nat.pow_add, ← Nat.pow_add]
          congr 2
          omega
      _ = n * 2 ^ k * 2 ^ (-e).toNat := by rw [h, Nat.mul_right_comm]

end Scaled

/-- Parts stand for an integer: they are zero, or have all bits of a mantissa. -/
inductive Stands : UnpackedFloat → Int → Prop
  | zero (s : Sign) : Stands (.zero s) 0
  | finite {s : Sign} {m : Nat} {e : Int} (h : Normal m e) {n : Nat} (hvalue : (m : ℚ) * 2 ^ e = n) :
    Stands (.finite s m e h.pos) (s.apply n)

theorem Stands.unpack_pack {u : UnpackedFloat} {n : Int} (h : Stands u n) : (Float.Model.pack u).unpack = u := by
  cases h with
  | zero s => cases s <;> rfl
  | finite h _ => exact h.unpack_pack _

theorem Stands.repacked {u : UnpackedFloat} {n : Int} (h : Stands u n) : Stands (Float.Model.pack u).unpack n :=
  h.unpack_pack.symm ▸ h

/-! ### Rounding -/

variable {e : Int}

theorem roundWithAccuracy_of_log2 {m n : Nat} (hm : 52 ≤ m.log2) (h : (m : ℚ) * 2 ^ e = n) (hn : n < 2 ^ 256) :
    Stands (roundWithAccuracy .binary64 s m e .exact) (s.apply (nearestNat n)) := by
  have hne : m ≠ 0 := by rintro rfl; simp at hm
  obtain ⟨hnz, hlog⟩ := log2_of_scaled hne h
  have hlog' : n.log2 < 256 := (Nat.log2_lt hnz).mpr hn
  have hvalue := roundDiv_of_scaled hm h
  generalize hk : m.log2 - 52 = k at hvalue
  have hbits : Format.binary64.mantissaBits = 53 := rfl
  have hmin : Format.binary64.minExponent = -1074 := rfl
  have hfirst : shiftToTargetExponent .binary64 m e .exact = ((⟨m, false, false⟩ : ExtendedMantissa) >>> k, e + k) := by
    have hamount : (Format.binary64.targetExponent (totalExponent m e) - e).toNat = k := by
      rw [Format.targetExponent, totalExponent, hbits, hmin]
      omega
    rw [shiftToTargetExponent, shiftToExponent, hamount]
    rfl
  have hbounds : 2 ^ 52 ≤ roundDiv m (2 ^ k) ∧ roundDiv m (2 ^ k) ≤ 2 ^ 53 := by
    have hpos := Nat.two_pow_pos k
    have hlow := roundDiv_mono (Nat.log2_self_le hne) (2 ^ k)
    have hhigh := roundDiv_mono (Nat.le_of_lt (Nat.lt_log2_self (n := m))) (2 ^ k)
    rw [show m.log2 = 52 + k by omega, Nat.pow_add, roundDiv_mul_self _ hpos] at hlow
    rw [show m.log2 + 1 = 53 + k by omega, Nat.pow_add, roundDiv_mul_self _ hpos] at hhigh
    exact ⟨hlow, hhigh⟩
  obtain ⟨m', e', j, hnormal, hrounded, hexponent⟩ : ∃ (m' : Nat) (e' : Int) (j : Nat), Normal m' e' ∧
      roundDiv m (2 ^ k) = m' * 2 ^ j ∧ e + k = e' - j := by
    rcases Nat.lt_or_eq_of_le hbounds.2 with hlt | heq
    · exact ⟨_, e + k, 0, ⟨hbounds.1, hlt, by omega, by omega⟩, (Nat.mul_one _).symm, (Int.sub_zero _).symm⟩
    · exact ⟨2 ^ 52, e + k + 1, 1, ⟨le_rfl, by decide, by omega, by omega⟩, heq, (Int.add_sub_cancel ..).symm⟩
  rw [hrounded, hexponent, scaled_up] at hvalue
  rw [roundWithAccuracy, hfirst]
  simp only [roundedMantissa_shiftRight, hrounded, hexponent, hnormal.shiftToTargetExponent_eq]
  rw [dif_neg (Nat.ne_of_gt hnormal.pos)]
  exact .finite hnormal hvalue

theorem stands_round {m n : Nat} (hm : m ≠ 0) (h : (m : ℚ) * 2 ^ e = n) (hn : n < 2 ^ 256) :
    Stands (round .binary64 s m e) (s.apply (nearestNat n)) := by
  obtain ⟨hnz, hlog⟩ := log2_of_scaled hm h
  have hbits : Format.binary64.mantissaBits = 53 := rfl
  have hmin : Format.binary64.minExponent = -1074 := rfl
  have hamount : (e - Format.binary64.targetExponent (totalExponent m e)).toNat = 52 - m.log2 := by
    rw [Format.targetExponent, totalExponent, hbits, hmin]
    omega
  rw [UnpackedFloat.round, decreaseExponent, hamount]
  simp only [Nat.shiftLeft_eq]
  refine roundWithAccuracy_of_log2 ?_ ((scaled_up _).trans h) hn
  rw [log2_mul_two_pow hm]
  omega

theorem apply_signOf (n : Int) : (signOf n).apply n.natAbs = n := by
  rw [signOf]
  split <;> simp only [Sign.apply] <;> omega

theorem signed_scaled {m n : Int} (h : (m : ℚ) * 2 ^ e = n) :
    (m.natAbs : ℚ) * 2 ^ e = n.natAbs ∧ signOf m = signOf n := by
  have hpow : (0 : ℚ) < 2 ^ e := by positivity
  constructor
  · rw [Nat.cast_natAbs, Nat.cast_natAbs, Int.cast_abs, Int.cast_abs, ← h, abs_mul, abs_of_pos hpow]
  · have hsign : m < 0 ↔ n < 0 := by
      rw [← Int.cast_lt_zero (R := ℚ) (n := n), ← h, mul_neg_iff]
      simp [hpow, hpow.not_gt]
    simp only [signOf, hsign]

theorem stands_normalize {m n : Int} (h : (m : ℚ) * 2 ^ e = n) (hn : n.natAbs < 2 ^ 256) :
    Stands (UnpackedFloat.normalize .binary64 m e s) (nearest n) := by
  obtain ⟨hvalue, hsign⟩ := signed_scaled h
  rcases eq_or_ne m 0 with rfl | hm
  · rw [Int.cast_zero, zero_mul, eq_comm, Int.cast_eq_zero] at h
    rw [h]
    exact .zero s
  · have hround : UnpackedFloat.normalize .binary64 m e s = round .binary64 (signOf m) m.natAbs e := by
      rw [UnpackedFloat.normalize, signOf]
      split
      · rename_i hlt
        rw [Int.compare_eq_lt] at hlt
        rw [if_pos hlt]
        congr 1
        omega
      · rename_i heq
        exact absurd (Int.compare_eq_eq.mp heq) hm
      · rename_i hgt
        rw [Int.compare_eq_gt] at hgt
        rw [if_neg (by omega)]
        congr 1
        omega
    rw [hround, ← apply_signOf n, nearest_apply, ← hsign]
    exact stands_round (Int.natAbs_ne_zero.mpr hm) hvalue hn

/-! ### Conversion -/

theorem apply_neg (s : Sign) (n : Int) : (-s).apply n = -s.apply n := by cases s <;> simp [Sign.apply]

theorem Stands.neg {u : UnpackedFloat} {n : Int} (h : Stands u n) : Stands u.neg (-n) := by
  cases h with
  | zero s => exact .zero _
  | @finite s m e h n hvalue =>
    rw [← apply_neg]
    exact .finite h hvalue

theorem stands_ofNat {n : Nat} (hn : n < 2 ^ 256) : Stands (parts (Float.ofNat n)) (nearestNat n) := by
  rcases Nat.eq_zero_or_pos n with rfl | hpos
  · exact .zero .positive
  · rcases Nat.lt_or_ge n (2 ^ 53) with hsmall | hlarge
    · rw [parts_ofNat hpos hsmall, nearestNat_of_excess (excess_of_lt hsmall)]
      refine .finite (s := .positive) (normal_places hpos hsmall) ?_
      rw [← Int.zero_sub, scaled_up, zpow_zero, mul_one]
    · have hmodel : Float.ofNat n = .ofModel (.pack (UnpackedFloat.ofScientific .binary64 n 0)) := by
        show Float.ofScientific n false 0 = _
        rw [Float.ofScientific, dif_neg (by omega)]
        rfl
      have hround : UnpackedFloat.ofScientific .binary64 n 0 =
          roundWithAccuracy .binary64 .positive (n * 2 ^ 53) (0 - (53 : Nat)) .exact := by
        have hlimit : (0 : Int) < 2 ^ Format.binary64.exponentBits := by decide
        rw [UnpackedFloat.ofScientific, dif_neg (Nat.ne_of_gt hpos), if_neg (by decide), if_neg (by omega),
          if_pos le_rfl, UnpackedFloat.mul, Nat.shiftLeft_eq, Int.toNat_zero, Nat.pow_zero, Nat.mul_one]
        rfl
      have hstands : Stands (UnpackedFloat.ofScientific .binary64 n 0) (Sign.positive.apply (nearestNat n)) := by
        rw [hround]
        refine roundWithAccuracy_of_log2 ?_ ?_ hn
        · rw [log2_mul_two_pow (Nat.ne_of_gt hpos)]
          omega
        · rw [scaled_up, zpow_zero, mul_one]
      rw [hmodel]
      show Stands (Float.Model.pack (UnpackedFloat.ofScientific .binary64 n 0)).unpack _
      rw [hstands.unpack_pack]
      exact hstands

theorem stands_ofInt {n : Int} (hn : n.natAbs < 2 ^ 256) : Stands (parts (Float.ofInt n)) (nearest n) := by
  cases n with
  | ofNat k =>
    rw [Int.ofNat_eq_natCast, nearest_natCast]
    exact stands_ofNat hn
  | negSucc k =>
    have hstands := (stands_ofNat (n := k + 1) hn).neg
    rw [Int.negSucc_eq, nearest_neg, ← Int.natCast_succ, nearest_natCast]
    show Stands (Float.Model.pack (parts (Float.ofNat (k + 1))).neg).unpack _
    rw [hstands.unpack_pack]
    exact hstands

/-! ### Order -/

theorem scaled_lt {m m' : Nat} {e' : Int} (h : Normal m e) (h' : Normal m' e') (hlt : e < e') :
    (m : ℚ) * 2 ^ e < m' * 2 ^ e' := by
  have hm : (m : ℚ) < 2 ^ 53 := by exact_mod_cast h.high
  have hm' : (2 : ℚ) ^ 52 ≤ m' := by exact_mod_cast h'.low
  calc (m : ℚ) * 2 ^ e < 2 ^ 53 * 2 ^ e := by gcongr
    _ = 2 ^ 52 * 2 ^ (e + 1) := by rw [zpow_add_one₀ (by norm_num)]; ring
    _ ≤ 2 ^ 52 * 2 ^ e' := by gcongr <;> [norm_num; omega]
    _ ≤ m' * 2 ^ e' := by gcongr

/-- Numbers with all bits of their mantissas are in the order of their exponents, and then of their mantissas. -/
theorem compare_scaled {m m' n n' : Nat} {e' : Int} (h : Normal m e) (h' : Normal m' e') (hvalue : (m : ℚ) * 2 ^ e = n)
    (hvalue' : (m' : ℚ) * 2 ^ e' = n') : (compare e e').then (compare m m') = compare n n' := by
  rcases Int.lt_trichotomy e e' with hlt | rfl | hgt
  · have hn : n < n' := by exact_mod_cast hvalue ▸ hvalue' ▸ scaled_lt h h' hlt
    rw [Int.compare_eq_lt.mpr hlt, Nat.compare_eq_lt.mpr hn]
    rfl
  · have hpow : (0 : ℚ) < 2 ^ e := by positivity
    rw [Int.compare_eq_eq.mpr rfl]
    rcases Nat.lt_trichotomy m m' with hlt | rfl | hgt
    · have hn : n < n' := by
        have hlt : (m : ℚ) < m' := by exact_mod_cast hlt
        exact_mod_cast hvalue ▸ hvalue' ▸ mul_lt_mul_of_pos_right hlt hpow
      rw [Nat.compare_eq_lt.mpr hlt, Nat.compare_eq_lt.mpr hn]
      rfl
    · have hn : n = n' := by exact_mod_cast hvalue.symm.trans hvalue'
      rw [Nat.compare_eq_eq.mpr rfl, Nat.compare_eq_eq.mpr hn]
      rfl
    · have hn : n' < n := by
        have hgt : (m' : ℚ) < m := by exact_mod_cast hgt
        exact_mod_cast hvalue ▸ hvalue' ▸ mul_lt_mul_of_pos_right hgt hpow
      rw [Nat.compare_eq_gt.mpr hgt, Nat.compare_eq_gt.mpr hn]
      rfl
  · have hn : n' < n := by exact_mod_cast hvalue ▸ hvalue' ▸ scaled_lt h' h hgt
    rw [Int.compare_eq_gt.mpr hgt, Nat.compare_eq_gt.mpr hn]
    rfl

theorem pos_of_scaled {m n : Nat} (h : Normal m e) (hvalue : (m : ℚ) * 2 ^ e = n) : 0 < n :=
  Nat.pos_of_ne_zero (log2_of_scaled (Nat.ne_of_gt h.pos) hvalue).1

theorem Stands.compare_eq (hu : Stands u m) (hv : Stands v n) : u.compare v = some (compare m n) := by
  cases hu with
  | zero s =>
    cases hv with
    | zero s' => rfl
    | @finite s' _ _ h' n hvalue' =>
      have hn := pos_of_scaled h' hvalue'
      cases s' with
      | negative => rw [apply_negative, Int.compare_eq_gt.mpr (by omega)]; rfl
      | positive => rw [apply_positive, Int.compare_eq_lt.mpr (by omega)]; rfl
  | @finite s _ _ h m hvalue =>
    have hm := pos_of_scaled h hvalue
    cases hv with
    | zero s' =>
      cases s with
      | negative => rw [apply_negative, Int.compare_eq_lt.mpr (by omega)]; rfl
      | positive => rw [apply_positive, Int.compare_eq_gt.mpr (by omega)]; rfl
    | @finite s' _ _ h' n hvalue' =>
      have hn := pos_of_scaled h' hvalue'
      have hcompare := compare_scaled h h' hvalue hvalue'
      cases s <;> cases s'
      · have hswap := compare_natAbs_swap (show -(m : Int) < 0 by omega) (show -(n : Int) < 0 by omega)
        rw [Int.natAbs_neg, Int.natAbs_neg, Int.natAbs_natCast, Int.natAbs_natCast, ← hcompare] at hswap
        exact congrArg some hswap
      · rw [apply_negative, apply_positive, Int.compare_eq_lt.mpr (by omega)]; rfl
      · rw [apply_negative, apply_positive, Int.compare_eq_gt.mpr (by omega)]; rfl
      · have hsame := compare_natAbs (show (0 : Int) < m by omega) (show (0 : Int) < n by omega)
        rw [Int.natAbs_natCast, Int.natAbs_natCast, ← hcompare] at hsame
        exact congrArg some hsame

theorem compareFloat_of_stands {x y : Float} (hx : Stands (parts x) m) (hy : Stands (parts y) n) :
    compareFloat x y = some (compare m n) := by
  rw [compareFloat_eq, hx.compare_eq hy]

theorem compareFloat_ofInt {a b : Int} (ha : a.natAbs < 2 ^ 53) (hb : b.natAbs < 2 ^ 53) :
    compareFloat (Float.ofInt a) (Float.ofInt b) = some (compare a b) := by
  have hstands {n : Int} (hn : n.natAbs < 2 ^ 53) : Stands (parts (Float.ofInt n)) n := by
    simpa only [nearest_of_le hn.le] using stands_ofInt (show n.natAbs < 2 ^ 256 by omega)
  exact compareFloat_of_stands (hstands ha) (hstands hb)

/-! ### Sums, differences and products -/

theorem nearestNat_of_scaled {m n : Nat} (hm : m < 2 ^ 53) (hvalue : (m : ℚ) * 2 ^ e = n) : nearestNat n = n := by
  rcases Nat.eq_zero_or_pos m with rfl | hpos
  · obtain rfl : n = 0 := by simpa [eq_comm] using hvalue
    rfl
  · obtain ⟨-, hlog⟩ := log2_of_scaled (Nat.ne_of_gt hpos) hvalue
    have hm : m.log2 < 53 := (Nat.log2_lt (Nat.ne_of_gt hpos)).mpr hm
    rcases Int.lt_or_le e 0 with he | he
    · exact nearestNat_of_excess (by rw [excess]; omega)
    · rw [scaled_iff, show (-e).toNat = 0 by omega, Nat.pow_zero, Nat.mul_one] at hvalue
      have hsplit : n = m * 2 ^ (e.toNat - excess n) * 2 ^ excess n := by
        have hexcess : excess n ≤ e.toNat := by rw [excess]; omega
        rw [Nat.mul_assoc, ← Nat.pow_add, Nat.sub_add_cancel hexcess, hvalue]
      rw [nearestNat]
      generalize excess n = d at hsplit ⊢
      rw [hsplit, roundDiv_mul_self _ (Nat.two_pow_pos _)]

theorem Stands.nearest_eq {u : UnpackedFloat} {n : Int} (h : Stands u n) : nearest n = n := by
  cases h with
  | zero s => rfl
  | finite h hvalue => rw [nearest_apply, nearestNat_of_scaled h.high hvalue]

theorem apply_decreaseExponent {m n : Nat} {low : Int} (hvalue : (m : ℚ) * 2 ^ e = n) (hlow : low ≤ e) :
    ((s.apply (decreaseExponent m e low).1 : Int) : ℚ) * 2 ^ low = (s.apply n : Int) := by
  have hmoved : ((decreaseExponent m e low).1 : ℚ) * 2 ^ low = n := by
    have hexponent : low = e - ((e - low).toNat : Nat) := by omega
    calc ((decreaseExponent m e low).1 : ℚ) * 2 ^ low
        = ((m * 2 ^ (e - low).toNat : Nat) : ℚ) * 2 ^ (e - ((e - low).toNat : Nat)) := by
          rw [decreaseExponent, Nat.shiftLeft_eq, ← hexponent]
      _ = n := (scaled_up _).trans hvalue
  cases s <;> simpa using hmoved

theorem Stands.add (hu : Stands u m) (hv : Stands v n) (hn : (m + n).natAbs < 2 ^ 256) :
    Stands (u.add .binary64 v) (nearest (m + n)) := by
  cases hu with
  | zero s =>
    rw [Int.zero_add, hv.nearest_eq]
    cases hv with
    | zero s' => cases s <;> cases s' <;> exact .zero _
    | finite h' hvalue' => exact .finite h' hvalue'
  | @finite s m e h k hvalue =>
    cases hv with
    | zero s' =>
      rw [Int.add_zero, (Stands.finite h hvalue).nearest_eq]
      exact .finite h hvalue
    | @finite s' m' e' h' k' hvalue' =>
      refine stands_normalize ?_ hn
      rw [Int.cast_add, add_mul, Int.cast_add]
      congr 1
      · exact apply_decreaseExponent hvalue (min_le_left e e')
      · exact apply_decreaseExponent hvalue' (min_le_right e e')

theorem sub_eq_add_neg (spec : Format) (u v : UnpackedFloat) : u.sub spec v = u.add spec v.neg := by
  cases u <;> cases v <;> try rfl
  rename_i s m e hm s' m' e' hm'
  rw [UnpackedFloat.sub, UnpackedFloat.neg, UnpackedFloat.add]
  simp only [apply_neg, Int.sub_eq_add_neg]

theorem Stands.mul (hu : Stands u m) (hv : Stands v n) (hn : (m * n).natAbs < 2 ^ 256) :
    Stands (u.mul .binary64 v) (nearest (m * n)) := by
  cases hu with
  | zero s =>
    rw [Int.zero_mul]
    cases hv <;> exact .zero _
  | @finite s m e h k hvalue =>
    cases hv with
    | zero s' =>
      rw [Int.mul_zero]
      exact .zero _
    | @finite s' m' e' h' k' hvalue' =>
      have hsign : s.apply k * s'.apply k' = (s * s').apply (k * k' : Nat) := by
        cases s <;> cases s' <;> simp [Sign.apply]
      have hlog : 52 ≤ (m * m').log2 := by
        rw [Nat.le_log2 (Nat.mul_ne_zero (Nat.ne_of_gt h.pos) (Nat.ne_of_gt h'.pos))]
        exact h.low.trans (Nat.le_mul_of_pos_right m h'.pos)
      have hproduct : ((m * m' : Nat) : ℚ) * 2 ^ (e + e') = (k * k' : Nat) := by
        rw [Nat.cast_mul, Nat.cast_mul, zpow_add₀ (by norm_num), mul_mul_mul_comm, hvalue, hvalue']
      rw [hsign, natAbs_apply] at hn
      rw [hsign, nearest_apply]
      exact roundWithAccuracy_of_log2 hlog hproduct hn

end Double

end Pushdown
