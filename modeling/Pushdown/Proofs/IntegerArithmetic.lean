import Pushdown.Proofs.IntegerRounding
import Pushdown.Write.Evaluation

/-!
# Evaluation of integers

`integers_evaluated_rounded`: where rows are selected here, integers of all widths are compared and computed with as
numbers of double precision (`nearest`), and results are turned back into integers of 64 bits (`saturated`).
-/

namespace Pushdown

open BinaryFormat BinaryReal

namespace Double

open Float.Model Float.Model.UnpackedFloat

section Bits

variable (b : BitVec Format.binary64.numBits)

theorem toNat_unpackMantissa : (unpackMantissa b).toNat = b.toNat % 2 ^ 52 := by
  rw [unpackMantissa, BitVec.toNat_cast, BitVec.extractLsb_toNat]
  rfl

theorem toNat_unpackExponent : (unpackExponent b).toNat = b.toNat / 2 ^ 52 % 2 ^ 11 := by
  rw [unpackExponent, BitVec.toNat_cast, BitVec.extractLsb_toNat, Nat.shiftRight_eq_div_pow]
  rfl

theorem ofBitVec_unpackSign : (Sign.ofBitVec (unpackSign b) == .negative) = (b.toNat / 2 ^ 63 % 2 == 1) := by
  have hsign : (unpackSign b).toNat = b.toNat / 2 ^ 63 % 2 := by
    rw [unpackSign, BitVec.toNat_cast, BitVec.extractLsb_toNat, Nat.shiftRight_eq_div_pow]
    rfl
  rw [← hsign, Sign.ofBitVec]
  generalize unpackSign b = v
  revert v
  decide

end Bits

theorem ofBits_eq (b : BitVec Format.binary64.numBits) : BinaryReal.ofBits .double b.toNat =
    if unpackExponent b = -1#11 then
      if unpackMantissa b = 0#52 then .infinite (Sign.ofBitVec (unpackSign b) == .negative) else .nan
    else if unpackExponent b = 0#11 then
      .finite (Sign.ofBitVec (unpackSign b) == .negative) (unpackMantissa b).toNat (-1074) false
    else
      .finite (Sign.ofBitVec (unpackSign b) == .negative) (1#1 ++ unpackMantissa b).toNat
        ((unpackExponent b).toNat - 1075)
        ((unpackMantissa b).toNat == 0 && decide (1 < (unpackExponent b).toNat)) := by
  have hfraction : b.toNat % Nat.pow 2 double.fractionBits = (unpackMantissa b).toNat :=
    (toNat_unpackMantissa b).symm
  have hfield : b.toNat / Nat.pow 2 double.fractionBits % Nat.pow 2 double.exponentBits =
      (unpackExponent b).toNat := (toNat_unpackExponent b).symm
  have hsign : (b.toNat / Nat.pow 2 (double.fractionBits + double.exponentBits) % 2 == 1) =
      (Sign.ofBitVec (unpackSign b) == .negative) := (ofBitVec_unpackSign b).symm
  have hones : (unpackExponent b).toNat = Nat.pow 2 double.exponentBits - 1 ↔ unpackExponent b = -1#11 :=
    BitVec.toNat_inj (y := -1#11)
  have hzero : (unpackExponent b).toNat = 0 ↔ unpackExponent b = 0#11 := BitVec.toNat_inj (y := 0#11)
  have hempty : (unpackMantissa b).toNat = 0 ↔ unpackMantissa b = 0#52 := BitVec.toNat_inj (y := 0#52)
  have himplicit : (1#1 ++ unpackMantissa b).toNat =
      Nat.pow 2 double.fractionBits + (unpackMantissa b).toNat := by
    rw [BitVec.toNat_append]
    exact (Nat.shiftLeft_add_eq_or_of_lt (unpackMantissa b).isLt 1).symm
  unfold BinaryReal.ofBits
  simp only [hfraction, hfield, hsign, hones, hzero, hempty, himplicit]
  split_ifs with h₁ h₂ h₃
  · rfl
  · rfl
  · rfl
  · have hpos : (unpackExponent b).toNat ≠ 0 := mt hzero.mp h₃
    congr 1
    show (-1074 : Int) + ((unpackExponent b).toNat - 1 : Nat) = _
    omega

end Double

/-- The rational number that a finite number is. -/
def BinaryReal.value? : BinaryReal → Option ℚ
  | .finite negative m q _ => some ((if negative then -(m : ℚ) else m) * 2 ^ q)
  | _ => none

variable {n : Int} {x : Float}

theorem BinaryReal.scaled_of_value? {negative narrow : Bool} {m : Nat} {q : Int}
    (h : (finite negative m q narrow).value? = some (n : ℚ)) : (m : ℚ) * 2 ^ q = n.natAbs := by
  rw [value?, Option.some.injEq] at h
  rw [Nat.cast_natAbs, Int.cast_abs, ← h]
  cases negative <;> simp [abs_mul]

theorem BinaryReal.exact_of_value? {r : BinaryReal} (h : r.value? = some (n : ℚ)) :
    r.truncate? = some n ∧ r.isIntegral := by
  cases r with
  | nan | infinite negative => cases h
  | finite negative m q narrow =>
    obtain ⟨k, hscaled⟩ : ∃ k : Nat, (m : ℚ) * 2 ^ q = k := ⟨_, scaled_of_value? h⟩
    rw [value?, Option.some.injEq] at h
    have hsign : (if negative then -(k : Int) else k) = n := by
      cases negative
      · exact_mod_cast hscaled.symm.trans h
      · have hneg : -(k : ℚ) = n := by rw [← hscaled, ← h, if_pos rfl, neg_mul]
        exact_mod_cast hneg
    rw [Double.scaled_iff] at hscaled
    rcases Int.lt_or_le q 0 with hq | hq
    · rw [show q.toNat = 0 by omega, Nat.pow_zero, Nat.mul_one] at hscaled
      simp only [truncate?, isIntegral, Nat.pow_eq, hscaled, Nat.mul_div_cancel _ (Nat.two_pow_pos _),
        if_neg (Int.not_le.mpr hq), hsign]
      simp
    · rw [show (-q).toNat = 0 by omega, Nat.pow_zero, Nat.mul_one] at hscaled
      simp only [truncate?, isIntegral, Nat.pow_eq, hscaled, if_pos hq, hsign]
      simp [hq]

namespace Double

open Float.Model Float.Model.UnpackedFloat

theorem value?_finite {s : Sign} {m n : Nat} {e : Int} (hvalue : (m : ℚ) * 2 ^ e = n) (narrow : Bool) :
    (finite (s == .negative) m e narrow).value? = some ((s.apply n : Int) : ℚ) := by
  cases s <;> simp [value?, ← hvalue, Sign.apply]

theorem Stands.value? (h : Stands (parts x) n) : (ofFloat x).value? = some (n : ℚ) := by
  have hparts : parts x = UnpackedFloat.unpack .binary64 x.toBits.toBitVec := rfl
  have hreal : ofFloat x = BinaryReal.ofBits .double x.toBits.toBitVec.toNat := rfl
  rw [hparts, UnpackedFloat.unpack] at h
  rw [hreal, ofBits_eq]
  split_ifs at h ⊢ with h₁ h₂ h₃ h₄
  · cases h
  · cases h
  · cases h
    simp [value?, h₄]
  · cases h with
    | finite _ hvalue =>
      rw [h₃] at hvalue
      exact value?_finite hvalue false
  · cases h with
    | finite _ hvalue => exact value?_finite hvalue _

theorem saturate_of_value? {r : BinaryReal} (h : r.value? = some (n : ℚ)) (low high : Int) :
    r.saturate low high = max low (min high n) := by
  cases r with
  | nan | infinite negative => cases h
  | finite negative m q narrow =>
    show max low (min high ((finite negative m q narrow).truncate?.getD 0)) = _
    rw [(exact_of_value? h).1]
    rfl

theorem Stands.saturate (h : Stands (parts x) n) (low high : Int) :
    (ofFloat x).saturate low high = max low (min high n) :=
  saturate_of_value? h.value? low high

end Double

open Double

namespace Value

def whole? : Value → Option Int
  | .byte n => some n.toInt
  | .short n => some n.toInt
  | .integer n => some n.toInt
  | .long n => some n.toInt
  | .bigInteger n => some n.val
  | _ => none

variable {a b : Value} {m : Int}

theorem float?_of_whole? (h : a.whole? = some n) : a.float? = some (Float.ofInt n) := by
  cases a <;> cases h <;> rfl

theorem isNull_of_isMachineInteger (h : a.isMachineInteger) : a.isNull = false := by
  cases a <;> first | rfl | cases h

theorem natAbs_of_whole? (h : a.whole? = some n) : n.natAbs ≤ 2 ^ 127 := by
  cases a <;> cases h <;> rename_i k
  case bigInteger =>
    have hlower := k.lower
    have hupper := k.upper
    omega
  all_goals
    have hlt := k.toInt_lt
    have hle := k.le_toInt
    omega

theorem stands_of_whole? (h : a.whole? = some n) : ∃ x, a.float? = some x ∧ Stands (parts x) (nearest n) := by
  have hbound := natAbs_of_whole? h
  exact ⟨Float.ofInt n, float?_of_whole? h, stands_ofInt (by omega)⟩

theorem compare?_of_whole? (ha : a.whole? = some m) (hb : b.whole? = some n) :
    a.compare? b = some (compare (nearest m) (nearest n)) := by
  obtain ⟨x, hx, hm⟩ := stands_of_whole? ha
  obtain ⟨y, hy, hn⟩ := stands_of_whole? hb
  rw [compare?, hx, hy]
  exact compareFloat_of_stands hm hn

end Value

theorem compare_nearest_iff {m : Int} :
    compare (nearest m) (nearest n) = compare m n ↔ m = n ∨ nearest m ≠ nearest n := by
  rcases Int.lt_trichotomy m n with hlt | rfl | hgt
  · rw [Int.compare_eq_lt.mpr hlt, Int.compare_eq_lt]
    have := nearest_mono hlt.le
    omega
  · simp
  · rw [Int.compare_eq_gt.mpr hgt, Int.compare_eq_gt]
    have := nearest_mono hgt.le
    omega

namespace ScalarFunction

def integerOp? : ScalarFunction → Option (Int → Int → Int)
  | .add => some (· + ·)
  | .subtract => some (· - ·)
  | .multiply => some (· * ·)
  | _ => none

def saturated (n : Int) : Int64 := Int64.ofInt (max (-9223372036854775808) (min 9223372036854775807 n))

variable {a b : Value} {m : Int}

theorem arithmetic_of_stands {f : Float → Float → Float} (ha : a.isMachineInteger) (hb : b.isMachineInteger) {y : Float}
    (hx : a.float? = some x) (hy : b.float? = some y) {r : Int} (h : Stands (parts (f x y)) r) :
    arithmetic f [a, b] = some (.long (saturated r)) := by
  rw [arithmetic, hx, hy, saturated, ← h.saturate]
  simp [ha, hb]

theorem evaluate?_of_whole? {f : ScalarFunction} {op : Int → Int → Int} (hop : f.integerOp? = some op)
    (ha : a.isMachineInteger) (hb : b.isMachineInteger) (hm : a.whole? = some m) (hn : b.whole? = some n) :
    f.evaluate? [a, b] = some (.long (saturated (nearest (op (nearest m) (nearest n))))) := by
  obtain ⟨x, hx, hxm⟩ := Value.stands_of_whole? hm
  obtain ⟨y, hy, hyn⟩ := Value.stands_of_whole? hn
  have hm := natAbs_nearest_le (Value.natAbs_of_whole? hm)
  have hn := natAbs_nearest_le (Value.natAbs_of_whole? hn)
  cases f <;> cases hop
  case add => exact arithmetic_of_stands ha hb hx hy (hxm.add hyn (by omega)).repacked
  case subtract =>
    have hdifference := hxm.add hyn.neg (by omega)
    rw [← sub_eq_add_neg] at hdifference
    exact arithmetic_of_stands ha hb hx hy hdifference.repacked
  case multiply =>
    refine arithmetic_of_stands ha hb hx hy (Stands.repacked (hxm.mul hyn ?_))
    calc (nearest m * nearest n).natAbs = (nearest m).natAbs * (nearest n).natAbs := Int.natAbs_mul ..
      _ ≤ 2 ^ 127 * 2 ^ 127 := Nat.mul_le_mul hm hn
      _ < 2 ^ 256 := by decide

/-- Integers of any width are compared by what they are rounded to: rightly just when they are equal or have
different `nearest`, and never the wrong way round. Of integers up to 64 bits, sums, differences and products are
computed from what they are rounded to, rounded again and kept within 64 bits. Up to 53 bits all this is exact. -/
theorem integers_evaluated_rounded (ha : a.whole? = some m) (hb : b.whole? = some n) :
    a.compare? b = some (compare (nearest m) (nearest n)) ∧
      (a.compare? b = some (compare m n) ↔ m = n ∨ nearest m ≠ nearest n) ∧
      (a.compare? b = some .lt → m < n) ∧ (a.compare? b = some .gt → n < m) ∧
      (m.natAbs ≤ 2 ^ 53 → n.natAbs ≤ 2 ^ 53 → a.compare? b = some (compare m n)) ∧
      ∀ name f op, ofName? name = some f → f.integerOp? = some op → a.isMachineInteger → b.isMachineInteger →
        call? name [a, b] = some (.long (saturated (nearest (op (nearest m) (nearest n))))) ∧
        (m.natAbs ≤ 2 ^ 53 → n.natAbs ≤ 2 ^ 53 → (op m n).natAbs ≤ 2 ^ 53 →
          call? name [a, b] = some (.long (Int64.ofInt (op m n)))) := by
  have hcompare := Value.compare?_of_whole? ha hb
  refine ⟨hcompare, ?_, fun hlt => ?_, fun hgt => ?_, fun hm hn => ?_, fun name f op hname hop hma hmb => ?_⟩
  · rw [hcompare, Option.some.injEq]
    exact compare_nearest_iff
  · rw [hcompare, Option.some.injEq, Int.compare_eq_lt] at hlt
    exact lt_of_nearest_lt hlt
  · rw [hcompare, Option.some.injEq, Int.compare_eq_gt] at hgt
    exact lt_of_nearest_lt hgt
  · rw [hcompare, nearest_of_le hm, nearest_of_le hn]
  · have hvalue := evaluate?_of_whole? hop hma hmb ha hb
    have hcall : call? name [a, b] = f.evaluate? [a, b] := by
      rw [call?, hname, if_neg (by simp [Value.isNull_of_isMachineInteger, hma, hmb]), Option.bind_some]
    rw [hcall]
    refine ⟨hvalue, fun hm hn hr => ?_⟩
    rw [hvalue, nearest_of_le hm, nearest_of_le hn, nearest_of_le hr, saturated]
    congr 3
    omega

/-- The first two integers of 54 bits are taken for equal, and adding one to the smaller one does not change it. -/
theorem integers_evaluated_rounded_beyond :
    Value.compare? (.long 9007199254740993) (.long 9007199254740992) = some .eq ∧
      call? "+" [.long 9007199254740992, .long 1] = some (.long 9007199254740992) := by
  have hrounded : nearest 9007199254740993 = 9007199254740992 := by decide +kernel
  have hkept : nearest 9007199254740992 = 9007199254740992 := nearest_of_le (by decide)
  have hone : nearest 1 = 1 := nearest_of_le (by decide)
  have hlarge : Value.whole? (.long 9007199254740993) = some 9007199254740993 := by decide +kernel
  have hsmall : Value.whole? (.long 9007199254740992) = some 9007199254740992 := by decide +kernel
  have hunit : Value.whole? (.long 1) = some 1 := by decide +kernel
  obtain ⟨hcompare, -⟩ := integers_evaluated_rounded hlarge hsmall
  obtain ⟨-, -, -, -, -, hcall⟩ := integers_evaluated_rounded hsmall hunit
  obtain ⟨hsum, -⟩ := hcall "+" .add (· + ·) (by decide +kernel) rfl rfl rfl
  have hresult : saturated (nearest (9007199254740992 + 1)) = 9007199254740992 := by decide +kernel
  rw [hkept, hone, hresult] at hsum
  exact ⟨by rw [hcompare, hrounded, hkept]; rfl, hsum⟩

end ScalarFunction

end Pushdown
