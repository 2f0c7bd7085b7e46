import Pushdown.Proofs.IntegerArithmetic
import Pushdown.StoredForm

/-!
# Whole numbers read back

Numbers without a fraction, stored in any of the three formats (`number?`), are read as values of integer types.
They are brought into 64 bits before their type is looked at (`clamp64`), so that a type with fewer bits refuses
what it cannot hold, but the two with 64 bits and more take the end of that range for any number beyond it:
`integers_read_back_iff`.
-/

namespace Pushdown

open BinaryReal

/-- The number that a stored value is. -/
def Bson.number? : Bson → Option ℚ
  | .int32 n => some n.toInt
  | .int64 n => some n.toInt
  | .double x => (BinaryReal.ofFloat x).value?
  | _ => none

/-- The least and the greatest value of an integer type. -/
def SqlType.integerRange? : SqlType → Option (Int × Int)
  | .byte => some (-128, 127)
  | .short => some (-32768, 32767)
  | .integer => some (-2147483648, 2147483647)
  | .long => some (-9223372036854775808, 9223372036854775807)
  | .bigInteger => some (-170141183460469231731687303715884105728, 170141183460469231731687303715884105727)
  | _ => none

namespace Double

variable {x : Float} {n : Int}

theorem mantissa_lt {negative : Bool} {m : Nat} {q : Int} {narrow : Bool}
    (h : ofFloat x = .finite negative m q narrow) : m < 2 ^ 53 := by
  have hreal : ofFloat x = ofBits .double x.toBits.toBitVec.toNat := rfl
  rw [hreal, ofBits_eq] at h
  split_ifs at h <;> cases h
  · exact (BitVec.isLt _).trans (by decide)
  · exact BitVec.isLt _

theorem nearest_of_value? (h : (ofFloat x).value? = some (n : ℚ)) : nearest n = n := by
  rcases hreal : ofFloat x with _ | _ | ⟨negative, m, q, narrow⟩
  · rw [hreal] at h
    cases h
  · rw [hreal] at h
    cases h
  · rw [hreal] at h
    rw [← apply_signOf n, nearest_apply, nearestNat_of_scaled (mantissa_lt hreal) (scaled_of_value? h)]

theorem value?_ofInt (hn : n.natAbs < 2 ^ 256) (h : nearest n = n) :
    (ofFloat (Float.ofInt n)).value? = some (n : ℚ) := by
  have hstands := stands_ofInt hn
  rw [h] at hstands
  exact hstands.value?

end Double

namespace Value

variable {b : Bson} {n : Int}

/-- The integer of 64 bits that is nearest to `n`. -/
def clamp64 (n : Int) : Int := max (-9223372036854775808) (min 9223372036854775807 n)

theorem clamp64_of_lt (hlow : -2 ^ 63 ≤ n) (hhigh : n < 2 ^ 63) : clamp64 n = n := by
  rw [clamp64]
  omega

theorem coerceInt?_of_number? (h : b.number? = some (n : ℚ)) : coerceInt? b = some (clamp64 n) := by
  cases b with
  | int32 k =>
    obtain rfl : k.toInt = n := Int.cast_inj.mp (Option.some.inj h)
    have hlow := k.le_toInt
    have hhigh := k.toInt_lt
    exact congrArg some (clamp64_of_lt (by omega) (by omega)).symm
  | int64 k =>
    obtain rfl : k.toInt = n := Int.cast_inj.mp (Option.some.inj h)
    exact congrArg some (clamp64_of_lt k.le_toInt k.toInt_lt).symm
  | double x =>
    have hvalue : (ofFloat x).value? = some (n : ℚ) := h
    show (if (ofFloat x).isIntegral then _ else _) = _
    rw [if_pos (exact_of_value? hvalue).2, Double.saturate_of_value? hvalue, clamp64]
  | _ => cases h

variable {target : SqlType} {low high : Int}

theorem coerce_of_coerceInt? (htarget : target.integerRange? = some (low, high)) {x : Option Float}
    (hx : coerceFloat? target b = .ok x) (h : coerceInt? b = some (clamp64 n)) :
    if low ≤ clamp64 n ∧ clamp64 n ≤ high then
      ∃ v, coerce target b = .ok v ∧ v.type? = some target ∧ v.whole? = some (clamp64 n)
    else coerce target b = .error (.conversion b.text target) := by
  have hlow : -9223372036854775808 ≤ clamp64 n := le_max_left ..
  have hhigh : clamp64 n ≤ 9223372036854775807 := by rw [clamp64]; omega
  generalize clamp64 n = k at *
  cases target with
  | byte =>
    cases htarget
    simp only [coerce, hx, h, within?]
    split_ifs with hrange
    · exact ⟨_, rfl, rfl, congrArg some (Int8.toInt_ofInt_of_le hrange.1 (Int.lt_add_one_of_le hrange.2))⟩
    · rfl
  | short =>
    cases htarget
    simp only [coerce, hx, h, within?]
    split_ifs with hrange
    · exact ⟨_, rfl, rfl, congrArg some (Int16.toInt_ofInt_of_le hrange.1 (Int.lt_add_one_of_le hrange.2))⟩
    · rfl
  | integer =>
    cases htarget
    simp only [coerce, hx, h, within?]
    split_ifs with hrange
    · exact ⟨_, rfl, rfl, congrArg some (Int32.toInt_ofInt_of_le hrange.1 (Int.lt_add_one_of_le hrange.2))⟩
    · rfl
  | long =>
    cases htarget
    simp only [coerce, hx, h, if_pos (And.intro hlow hhigh)]
    exact ⟨_, rfl, rfl, congrArg some (Int64.toInt_ofInt_of_le hlow (Int.lt_add_one_of_le hhigh))⟩
  | bigInteger =>
    cases htarget
    rw [if_pos (by omega)]
    simp only [coerce, hx, h, coerceBig?]
    refine ⟨_, rfl, rfl, congrArg some ?_⟩
    show max _ (min _ k) = k
    omega
  | _ => cases htarget

theorem ofStored_clamp64 (fetch : String → Except StoreError (List UInt8)) (h : b.number? = some (n : ℚ))
    (htarget : target.integerRange? = some (low, high)) :
    if low ≤ clamp64 n ∧ clamp64 n ≤ high then
      ∃ v, ofStored fetch target b = .ok v ∧ v.type? = some target ∧ v.whole? = some (clamp64 n)
    else ofStored fetch target b = .error (.conversion b.text target) := by
  have hread : ofStored fetch target b = coerce target b ∧ ∃ x, coerceFloat? target b = .ok x := by
    cases b with
    | int32 k | int64 k | double x =>
      refine ⟨?_, _, rfl⟩
      cases target <;> first | cases htarget; done | rfl
    | _ => cases h
  obtain ⟨hread, x, hx⟩ := hread
  rw [hread]
  exact coerce_of_coerceInt? htarget hx (coerceInt?_of_number? h)

theorem integerRange?_symm (h : target.integerRange? = some (low, high)) : low = -high - 1 ∧ 0 ≤ high := by
  cases target <;> cases h <;> decide

theorem bigInteger_ofStored_iff (fetch : String → Except StoreError (List UInt8)) {k : BigInteger}
    (h : b.number? = some (k.val : ℚ)) :
    ofStored fetch .bigInteger b = .ok (.bigInteger k) ↔ -2 ^ 63 ≤ k.val ∧ k.val < 2 ^ 63 := by
  have htarget : SqlType.bigInteger.integerRange? =
    some (-170141183460469231731687303715884105728, 170141183460469231731687303715884105727) := rfl
  have hread := ofStored_clamp64 fetch h htarget
  rw [if_pos (by rw [clamp64]; omega)] at hread
  obtain ⟨v, hv, htype, hwhole⟩ := hread
  obtain ⟨found, rfl⟩ : ∃ found, v = .bigInteger found := by
    cases v with
    | bigInteger found => exact ⟨found, rfl⟩
    | array items => cases hwhole
    | _ => cases htype
  replace hwhole : found.val = clamp64 k.val := Option.some.inj hwhole
  rw [hv, Except.ok.injEq, bigInteger.injEq, BigInteger.mk.injEq, hwhole, clamp64]
  omega

/-- A number without a fraction is read as an integer type's value of the same number, or refused where the type
does not have it, just when it fits into 64 bits or the type is narrower than that. Otherwise it is read as the end
of the range. So a large integer that a double holds comes back just when it fits into 64 bits. -/
theorem integers_read_back_iff (fetch : String → Except StoreError (List UInt8)) (h : b.number? = some (n : ℚ))
    (htarget : target.integerRange? = some (low, high)) :
    ((∃ v, ofStored fetch target b = .ok v ∧ v.type? = some target ∧ v.whole? = some n) ∨
        (¬ (low ≤ n ∧ n ≤ high) ∧ ofStored fetch target b = .error (.conversion b.text target)) ↔
      (-2 ^ 63 ≤ n ∧ n < 2 ^ 63) ∨ high < 2 ^ 63 - 1) ∧
    (¬ (-2 ^ 63 ≤ n ∧ n < 2 ^ 63) → 2 ^ 63 - 1 ≤ high → ∃ v, ofStored fetch target b = .ok v ∧
      v.type? = some target ∧ v.whole? = some (if n < 0 then -2 ^ 63 else 2 ^ 63 - 1)) ∧
    ∀ {σ : Type} (objects : LargeObjects σ) (s : σ) (k : BigInteger) (x : Float),
      (Bson.double x).number? = some (k.val : ℚ) → ∃ stored,
        toStored objects (.bigInteger k) s = (.ok stored, s) ∧ stored.number? = some (k.val : ℚ) ∧
          (ofStored fetch .bigInteger stored = .ok (.bigInteger k) ↔ -2 ^ 63 ≤ k.val ∧ k.val < 2 ^ 63) := by
  obtain ⟨rfl, hhigh⟩ := integerRange?_symm htarget
  have hread := ofStored_clamp64 fetch h htarget
  refine ⟨?_, fun hout hwide => ?_, fun objects s k x hx => ?_⟩
  · by_cases hfit : -2 ^ 63 ≤ n ∧ n < 2 ^ 63
    · rw [clamp64_of_lt hfit.1 hfit.2] at hread
      refine iff_of_true ?_ (.inl hfit)
      split_ifs at hread with hrange
      · exact .inl hread
      · exact .inr ⟨hrange, hread⟩
    · by_cases hnarrow : high < 2 ^ 63 - 1
      · rw [if_neg (by rw [clamp64]; omega)] at hread
        exact iff_of_true (.inr ⟨by omega, hread⟩) (.inr hnarrow)
      · rw [if_pos (by rw [clamp64]; omega)] at hread
        obtain ⟨v, hv, -, hwhole⟩ := hread
        refine iff_of_false ?_ (by omega)
        rw [hv]
        rintro (⟨v', hv', -, hwhole'⟩ | ⟨-, hrefused⟩)
        · cases hv'
          have heq := Option.some.inj (hwhole.symm.trans hwhole')
          rw [clamp64] at heq
          omega
        · cases hrefused
  · rw [if_pos (by rw [clamp64]; omega)] at hread
    rwa [show clamp64 n = if n < 0 then -2 ^ 63 else 2 ^ 63 - 1 by rw [clamp64]; split <;> omega] at hread
  · have hlower := k.lower
    have hupper := k.upper
    have hstored : (Bson.double (Float.ofInt k.val)).number? = some (k.val : ℚ) :=
      Double.value?_ofInt (by omega) (Double.nearest_of_value? hx)
    exact ⟨_, rfl, hstored, bigInteger_ofStored_iff fetch hstored⟩

/-- The least number beyond 64 bits is read as the greatest one within them, and stored it does not come back. -/
theorem integers_read_back_beyond :
    let fetch := LargeObjects.unavailable.fetch ()
    (∃ v, ofStored fetch .long (.double (Float.ofInt 9223372036854775808)) = .ok v ∧ v.type? = some .long ∧
      v.whole? = some 9223372036854775807) ∧
      ∃ stored, toStored LargeObjects.unavailable (.bigInteger (.clamp 9223372036854775808)) () = (.ok stored, ()) ∧
        ofStored fetch .bigInteger stored ≠ .ok (.bigInteger (.clamp 9223372036854775808)) := by
  intro fetch
  have hnumber : (Bson.double (Float.ofInt 9223372036854775808)).number? = some ((9223372036854775808 : Int) : ℚ) :=
    Double.value?_ofInt (n := 9223372036854775808) (by decide) (by decide +kernel)
  have htarget : SqlType.long.integerRange? = some (-9223372036854775808, 9223372036854775807) := rfl
  obtain ⟨-, hend, hstore⟩ := integers_read_back_iff fetch hnumber htarget
  obtain ⟨stored, hstored, -, hiff⟩ := hstore .unavailable () (.clamp 9223372036854775808) _ hnumber
  exact ⟨hend (by decide) (by decide), stored, hstored, mt hiff.mp (by decide)⟩

end Value

end Pushdown
