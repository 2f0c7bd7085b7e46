import Pushdown.Proofs.AtomText
import Pushdown.Sql.Function

/-!
# The names of functions

`ofName?_eq_of_upper`: functions that are written alike are the same. A function is found by its name in small
letters and written with its name in capital letters; the letters are in ASCII (`IsNameLetter`), except that the
sign for `kelvin` is a capital letter for k.
-/

namespace Pushdown.Text

open List

def kelvin : Char := Char.ofNat 8490

def IsNameLetter (c : Char) : Prop := c.toNat < 128 ∨ c = kelvin

theorem toNat_ofNat {n : Nat} (h : n.isValidChar) : (Char.ofNat n).toNat = n := by
  have haux : Char.ofNat n = Char.ofNatAux n h := dif_pos h
  rw [haux]
  rfl

theorem lowerRuns_image {run : CaseRun} (hrun : run ∈ lowerRuns) {n m : Nat} (h : run.image? n = some m) :
    n = 8490 ∨ (128 ≤ m ∧ m.isValidChar) := by
  have hall : ∀ run ∈ lowerRuns, (run.first = 8490 ∧ run.last = 8490) ∨
      (128 ≤ run.first + run.shift ∧ (run.last + run.shift < 0xD800 ∨
        0xDFFF < run.first + run.shift ∧ run.last + run.shift < 0x110000)) := by decide +kernel
  rw [CaseRun.image?] at h
  split_ifs at h with hn
  cases h
  rcases hall run hrun with hkelvin | ⟨hlow, hvalid⟩
  · omega
  · refine .inr ⟨by omega, ?_⟩
    rcases hvalid with hvalid | hvalid
    · exact .inl (by omega)
    · exact .inr ⟨by omega, by omega⟩

theorem isNameLetter_of_lowerChar {c : Char} (h : ∀ d ∈ lowerChar c, d.toNat < 128) : IsNameLetter c := by
  rw [lowerChar] at h
  split_ifs at h with hc
  · exact .inl hc
  rw [mapBeyondAscii] at h
  split at h
  next cs hcs =>
    rw [lowerSequences, lookup_cons] at hcs
    split at hcs
    · cases hcs
      exact absurd (h (Char.ofNat 775) (by simp)) (by decide)
    · cases hcs
  next =>
    split at h
    next n hn =>
      obtain ⟨run, hrun, himage⟩ := exists_of_findSome?_eq_some hn
      rcases lowerRuns_image hrun himage with hkelvin | ⟨hlow, hvalid⟩
      · exact .inr (by rw [kelvin, ← hkelvin, Char.ofNat_toNat])
      · have hd := h (Char.ofNat n) (mem_singleton_self _)
        rw [toNat_ofNat hvalid] at hd
        omega
    next => exact absurd (h c (mem_singleton_self _)) hc

theorem lowerAfter_eq_flatMap {cs : List Char} (h : ∀ c ∈ cs, IsNameLetter c) (before : List Char) :
    lowerAfter before cs = cs.flatMap lowerChar := by
  induction cs generalizing before with
  | nil => rfl
  | cons c cs ih =>
    obtain ⟨hc, hcs⟩ := forall_mem_cons.mp h
    have hsigma : c ≠ 'Σ' := by
      rintro rfl
      rcases hc with hc | hc <;> exact absurd hc (by decide)
    rw [lowerAfter, if_neg hsigma, ih hcs, flatMap_cons]

theorem isNameLetter_of_lowerAfter {cs before : List Char} (h : ∀ d ∈ lowerAfter before cs, d.toNat < 128) :
    ∀ c ∈ cs, IsNameLetter c := by
  induction cs generalizing before with
  | nil => simp
  | cons c cs ih =>
    rw [lowerAfter, forall_mem_append] at h
    refine forall_mem_cons.mpr ⟨?_, ih h.2⟩
    have hhead := h.1
    split_ifs at hhead
    · exact absurd (hhead _ (mem_singleton_self _)) (by decide)
    · exact absurd (hhead _ (mem_singleton_self _)) (by decide)
    · exact isNameLetter_of_lowerChar hhead

theorem upperChar_of_isNameLetter {c : Char} (hc : IsNameLetter c) :
    (∀ d ∈ upperChar c, IsNameLetter d) ∧ (upperChar c).flatMap lowerChar = lowerChar c := by
  rcases hc with hc | rfl
  · have hall : ∀ n < 128, (∀ d ∈ upperChar (Char.ofNat n), d.toNat < 128) ∧
        (upperChar (Char.ofNat n)).flatMap lowerChar = lowerChar (Char.ofNat n) := by decide +kernel
    obtain ⟨hupper, hlower⟩ := hall c.toNat hc
    rw [Char.ofNat_toNat] at hupper hlower
    exact ⟨fun d hd => .inl (hupper d hd), hlower⟩
  · have hkelvin : upperChar kelvin = [kelvin] := by decide +kernel
    rw [hkelvin]
    exact ⟨fun d hd => .inr (mem_singleton.mp hd), append_nil _⟩

theorem lower_upper {name : String} (h : ∀ c ∈ (lower name).toList, c.toNat < 128) :
    lower (upper name) = lower name := by
  rw [lower, String.toList_ofList] at h
  have hname := isNameLetter_of_lowerAfter h
  have hupper : ∀ c ∈ name.toList.flatMap upperChar, IsNameLetter c := by
    intro d hd
    obtain ⟨c, hc, hd⟩ := mem_flatMap.mp hd
    exact (upperChar_of_isNameLetter (hname c hc)).1 d hd
  rw [lower, lower, upper, String.toList_ofList, lowerAfter_eq_flatMap hupper, lowerAfter_eq_flatMap hname,
    flatMap_assoc]
  rw [flatMap_def, flatMap_def, map_congr_left fun c hc => (upperChar_of_isNameLetter (hname c hc)).2]

end Pushdown.Text

namespace Pushdown.ScalarFunction

open Sql List

variable {name : String}

theorem lower_mem_of_ofName? (h : (ofName? name).isSome) : Text.lower name ∈ named.map Prod.fst := by
  rw [ofName?] at h
  obtain ⟨f, hf⟩ := Option.isSome_iff_exists.mp h
  obtain ⟨before, after, heq, -⟩ := lookup_eq_some_iff.mp hf
  rw [heq]
  simp

theorem ascii_of_mem_named : ∀ key ∈ named.map Prod.fst, ∀ c ∈ key.toList, c.toNat < 128 := by decide +kernel

theorem lower_upper (h : (ofName? name).isSome) : Text.lower (Text.upper name) = Text.lower name :=
  Text.lower_upper (ascii_of_mem_named _ (lower_mem_of_ofName? h))

theorem ofName?_eq_of_upper {a b : String} (ha : (ofName? a).isSome) (hb : (ofName? b).isSome)
    (h : Text.upper a = Text.upper b) : ofName? a = ofName? b := by
  rw [ofName?, ofName?, ← lower_upper ha, h, lower_upper hb]

/-- A character with a meaning of its own stands in a name in ASCII as it does in small letters. -/
theorem mem_lower_of_special {s : String} (h : ∀ c ∈ (Text.lower s).toList, c.toNat < 128) {c : Char}
    (hc : c ∈ s.toList) (hspecial : c ∈ special) : c ∈ (Text.lower s).toList := by
  have hlower : ∀ c ∈ special, Text.lowerChar c = [c] := by decide
  rw [Text.lower, String.toList_ofList] at h ⊢
  rw [Text.lowerAfter_eq_flatMap (Text.isNameLetter_of_lowerAfter h), mem_flatMap]
  exact ⟨c, hc, by simp [hlower c hspecial]⟩

theorem upper_word (h : (ofName? name).isSome) :
    (∀ c ∈ (Text.upper name).toList, c ∉ special) ∧ (Text.upper name).toList ≠ "NOT".toList ∧
      (Text.upper name).toList ≠ [] := by
  have hmem := lower_mem_of_ofName? h
  rw [← lower_upper h] at hmem
  have hwords : ∀ key ∈ named.map Prod.fst, (∀ c ∈ key.toList, c ∉ special) ∧ key ≠ "not" ∧ key ≠ "" := by
    decide +kernel
  obtain ⟨hplain, hnot, hempty⟩ := hwords _ hmem
  generalize Text.upper name = s at hmem hplain hnot hempty ⊢
  refine ⟨?_, ?_, ?_⟩
  · intro c hc hspecial
    have hlower := mem_lower_of_special (ascii_of_mem_named _ hmem) hc hspecial
    exact hplain c hlower hspecial
  · intro heq
    rw [String.toList_injective heq] at hnot
    exact hnot (by decide)
  · intro heq
    rw [String.toList_eq_nil_iff.mp heq] at hempty
    exact hempty (by decide)

end Pushdown.ScalarFunction
