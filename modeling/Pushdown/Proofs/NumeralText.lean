import Pushdown.Proofs.JsonText

/-!
# The texts of numbers

`IsNumeral`: whole numbers, numbers of floating point and decimals that can be read are written with few characters
(`numeralChars`), and none of their texts looks like a name, except for the words for infinity and for what is no
number (`numeralWords`).
-/

namespace Pushdown

open List

variable {cs : List Char} {c : Char}

/-- A check of some characters goes through the list of them, also where all characters can be gone through. -/
instance (priority := 1100) decidableForallMem (p : Char → Prop) [DecidablePred p] (cs : List Char) :
    Decidable (∀ c ∈ cs, p c) :=
  List.decidableBAll p cs

def numeralChars : List Char := "0123456789.+-eEiInNfFtTyYaA".toList

def numeralWords : List (List Char) := ["inf".toList, "infinity".toList, "nan".toList]

/-- What the text of a number is made of, and that it is a word where it starts like a name. -/
structure IsNumeral (cs : List Char) : Prop where
  chars : ∀ c ∈ cs, c ∈ numeralChars
  ne_nil : cs ≠ []
  word : ∀ c ∈ cs.head?, (c.isAlpha || c == '_') → cs.map Char.toLower ∈ numeralWords

theorem mem_numeralChars_of_isDigit (hc : c.isDigit) : c ∈ numeralChars := by
  have hrange : 48 ≤ c.toNat ∧ c.toNat ≤ 57 := by
    simp only [Char.isDigit, Bool.and_eq_true, decide_eq_true_eq, UInt32.le_iff_toNat_le] at hc
    exact hc
  have hdigits : ∀ n : Nat, n < 58 → 48 ≤ n → Char.ofNat n ∈ numeralChars := by decide
  rw [← c.ofNat_toNat]
  exact hdigits c.toNat (by omega) hrange.1

theorem isNumeral_of_head (hc : (c.isAlpha || c == '_') = false)
    (hchars : ∀ d ∈ c :: cs, d ∈ numeralChars) : IsNumeral (c :: cs) where
  chars := hchars
  ne_nil := by simp
  word d hd halpha := by
    cases hd
    rw [hc] at halpha
    cases halpha

theorem not_alpha_of_isDigit (hc : c.isDigit) : (c.isAlpha || c == '_') = false := by
  have hmem := mem_numeralChars_of_isDigit hc
  have hall : ∀ d ∈ numeralChars, d.isDigit → (d.isAlpha || d == '_') = false := by decide
  exact hall c hmem hc

theorem isNumeral_of_digits {p : Prop} [Decidable p] (hc : c.isDigit)
    (hcs : ∀ d ∈ cs, d ∈ numeralChars) : IsNumeral ((if p then ['-'] else []) ++ c :: cs) := by
  have hall : ∀ d ∈ c :: cs, d ∈ numeralChars := forall_mem_cons.mpr ⟨mem_numeralChars_of_isDigit hc, hcs⟩
  split_ifs
  · exact isNumeral_of_head (by decide) (forall_mem_cons.mpr ⟨by decide, hall⟩)
  · exact isNumeral_of_head (not_alpha_of_isDigit hc) hall

variable {n : Nat}

theorem mem_numeralChars_of_toDigits (hc : c ∈ Nat.toDigits 10 n) : c ∈ numeralChars :=
  mem_numeralChars_of_isDigit (Nat.isDigit_of_mem_toDigits (by decide) (by decide) hc)

theorem isNumeral_toString (n : Int) : IsNumeral (toString n).toList := by
  obtain ⟨d, ds, hdigits, hd⟩ := Json.toDigits_head_isDigit n.natAbs
  rw [Json.toList_toString_int, hdigits]
  exact isNumeral_of_digits hd fun c hc => mem_numeralChars_of_toDigits (hdigits ▸ mem_cons_of_mem d hc)

namespace Decimal

/-- A text that starts with a digit and has the characters of numbers. -/
def StartsWithDigit (cs : List Char) : Prop :=
  ∃ c ds, cs = c :: ds ∧ c.isDigit ∧ ∀ d ∈ ds, d ∈ numeralChars

theorem StartsWithDigit.append {cs ds : List Char} (h : StartsWithDigit cs) (hds : ∀ d ∈ ds, d ∈ numeralChars) :
    StartsWithDigit (cs ++ ds) := by
  obtain ⟨c, rest, rfl, hc, hrest⟩ := h
  exact ⟨c, rest ++ ds, rfl, hc, forall_mem_append.mpr ⟨hrest, hds⟩⟩

theorem startsWithDigit_of_digits {cs : List Char} (hne : cs ≠ []) (hcs : ∀ c ∈ cs, c.isDigit) :
    StartsWithDigit cs := by
  cases cs with
  | nil => exact absurd rfl hne
  | cons c cs =>
    obtain ⟨hc, hrest⟩ := forall_mem_cons.mp hcs
    exact ⟨c, cs, rfl, hc, fun d hd => mem_numeralChars_of_isDigit (hrest d hd)⟩

theorem isDigit_of_mem_digits {c : Char} (hc : c ∈ Nat.toDigits 10 n) : c.isDigit :=
  Nat.isDigit_of_mem_toDigits (by decide) (by decide) hc

theorem isDigit_of_mem_zeros {c : Char} (hc : c ∈ List.replicate n '0') : c.isDigit := by
  rw [eq_of_mem_replicate hc]
  decide

theorem startsWithDigit_positionalText (d : Decimal) : StartsWithDigit (d.positionalText true).toList := by
  simp only [positionalText, if_true]
  split_ifs with hwhole hplaces
  · rw [String.toList_append, String.toList_ofList]
    refine .append (startsWithDigit_of_digits (by simp [Nat.toDigits_ne_nil]) fun c hc => ?_) (by decide)
    exact (mem_append.mp hc).elim isDigit_of_mem_digits isDigit_of_mem_zeros
  · simp only [String.toList_append, String.toList_ofList]
    refine .append (.append (startsWithDigit_of_digits (fun hnil => ?_) fun c hc => ?_) (by decide))
      fun c hc => mem_numeralChars_of_toDigits (mem_of_mem_drop hc)
    · have hlength := congrArg List.length hnil
      rw [length_take, length_nil] at hlength
      omega
    · exact isDigit_of_mem_digits (mem_of_mem_take hc)
  · simp only [String.toList_append, String.toList_ofList]
    refine ⟨'0', '.' :: (List.replicate _ '0' ++ Nat.toDigits 10 d.digits), rfl, by decide,
      forall_mem_cons.mpr ⟨by decide, fun c hc => ?_⟩⟩
    exact mem_numeralChars_of_isDigit ((mem_append.mp hc).elim isDigit_of_mem_zeros isDigit_of_mem_digits)

theorem startsWithDigit_scientificText (d : Decimal) : StartsWithDigit (d.scientificText false).toList := by
  have hpower : ∀ c ∈ (toString (d.point - 1)).toList, c ∈ numeralChars := (isNumeral_toString _).chars
  obtain ⟨c, cs, hdigits, hc⟩ := Json.toDigits_head_isDigit d.digits
  have hcs : ∀ a ∈ cs, a ∈ numeralChars := fun a ha => mem_numeralChars_of_toDigits (hdigits ▸ mem_cons_of_mem c ha)
  simp only [scientificText, hdigits]
  cases cs with
  | nil =>
    refine ⟨c, 'e' :: (toString (d.point - 1)).toList, by simp, hc, ?_⟩
    exact forall_mem_cons.mpr ⟨by decide, hpower⟩
  | cons b bs =>
    refine ⟨c, '.' :: (b :: bs ++ 'e' :: (toString (d.point - 1)).toList), by simp, hc, ?_⟩
    refine forall_mem_cons.mpr ⟨by decide, forall_mem_append.mpr ⟨hcs, ?_⟩⟩
    exact forall_mem_cons.mpr ⟨by decide, hpower⟩

end Decimal

theorem isNumeral_literal (x : BinaryReal) : IsNumeral (NumberStyle.literal.text x).toList := by
  have hbody {negative : Bool} {body : String} (h : Decimal.StartsWithDigit body.toList) :
      IsNumeral ((if negative then "-" else "") ++ body).toList := by
    obtain ⟨c, cs, hcs, hc, hrest⟩ := h
    rw [String.toList_append, hcs]
    have hnumeral : IsNumeral ((if negative then ['-'] else []) ++ c :: cs) := isNumeral_of_digits hc hrest
    cases negative <;> exact hnumeral
  cases x with
  | nan => exact ⟨by decide, by decide, fun _ _ _ => by decide⟩
  | infinite negative =>
    cases negative with
    | false => exact ⟨by decide, by decide, fun _ _ _ => by decide⟩
    | true =>
      have hinf : IsNumeral ('-' :: "inf".toList) := isNumeral_of_head (by decide) (by decide)
      exact hinf
  | finite negative m q narrow =>
    rw [NumberStyle.text]
    refine hbody ?_
    split
    · exact ⟨'0', ['.', '0'], rfl, by decide, by decide⟩
    · generalize (RoundingInterval.ofBinary m q narrow).shortest NumberStyle.literal.tie = d
      dsimp only
      split
      · exact d.startsWithDigit_positionalText
      · exact d.startsWithDigit_scientificText

theorem splitSign_cases (cs : List Char) :
    (∃ c, (c = '-' ∨ c = '+') ∧ cs = c :: (splitSign cs).2) ∨ (splitSign cs).2 = cs := by
  unfold splitSign
  split
  · exact .inl ⟨'-', .inl rfl, rfl⟩
  · exact .inl ⟨'+', .inr rfl, rfl⟩
  · exact .inr rfl

theorem chars_of_splitSign (h : ∀ c ∈ (splitSign cs).2, c ∈ numeralChars) : ∀ c ∈ cs, c ∈ numeralChars := by
  rcases splitSign_cases cs with ⟨d, hd, hcs⟩ | hcs
  · rw [hcs]
    refine forall_mem_cons.mpr ⟨?_, h⟩
    rcases hd with rfl | rfl <;> decide
  · rwa [hcs] at h

theorem isDigit_of_readDigits? (h : readDigits? cs = some n) : cs ≠ [] ∧ ∀ c ∈ cs, c.isDigit := by
  rw [readDigits?] at h
  split_ifs at h with hcs
  simpa [List.isEmpty_iff] using hcs

theorem chars_of_readExponent? {e : Int} (h : readExponent? cs = some e) : ∀ c ∈ cs, c ∈ numeralChars := by
  cases cs with
  | nil => simp
  | cons c cs =>
    rw [readExponent?] at h
    split at h
    · rename_i hc
      obtain ⟨n, hn, -⟩ := Option.map_eq_some_iff.mp h
      obtain ⟨k, hk, -⟩ := Option.bind_eq_some_iff.mp hn
      have hdigits : ∀ a ∈ (splitSign cs).2, a.isDigit := (isDigit_of_readDigits? hk).2
      have hmark : c ∈ numeralChars := by rcases hc with rfl | rfl <;> decide
      exact forall_mem_cons.mpr ⟨hmark, chars_of_splitSign fun a ha => mem_numeralChars_of_isDigit (hdigits a ha)⟩
    · cases h

theorem isNumeral_of_whole {cs rest : List Char} (hcs : cs = cs.takeWhile Char.isDigit ++ rest)
    (hrest : ∀ c ∈ rest, c ∈ numeralChars) (hstart : cs.takeWhile Char.isDigit ≠ [] ∨ rest.head? = some '.') :
    (∀ c ∈ cs, c ∈ numeralChars) ∧ ∃ c ds, cs = c :: ds ∧ (c.isAlpha || c == '_') = false := by
  have hdigits : ∀ c ∈ cs.takeWhile Char.isDigit, c.isDigit := fun c hc => List.all_eq_true.mp all_takeWhile c hc
  constructor
  · rw [hcs]
    exact forall_mem_append.mpr ⟨fun c hc => mem_numeralChars_of_isDigit (hdigits c hc), hrest⟩
  · cases hwhole : cs.takeWhile Char.isDigit with
    | cons c ds =>
      rw [hwhole] at hcs hdigits
      exact ⟨c, ds ++ rest, hcs, not_alpha_of_isDigit (hdigits c (mem_cons_self ..))⟩
    | nil =>
      rw [hwhole] at hcs hstart
      cases rest with
      | nil => simp at hstart
      | cons c ds =>
        obtain rfl : c = '.' := by simpa using hstart
        exact ⟨'.', ds, hcs, by decide⟩

theorem isNumeral_of_readDecimal? {d : Decimal} (h : readDecimal? cs = some d) :
    (∀ c ∈ cs, c ∈ numeralChars) ∧ ∃ c rest, cs = c :: rest ∧ (c.isAlpha || c == '_') = false := by
  have hcs : cs = cs.takeWhile Char.isDigit ++ cs.dropWhile Char.isDigit := takeWhile_append_dropWhile.symm
  simp only [readDecimal?] at h
  split at h
  · rename_i ds hdrop
    rw [hdrop] at hcs
    split_ifs at h
    obtain ⟨e, he, -⟩ := Option.map_eq_some_iff.mp h
    refine isNumeral_of_whole hcs (forall_mem_cons.mpr ⟨by decide, ?_⟩) (.inr rfl)
    rw [← takeWhile_append_dropWhile (p := Char.isDigit) (l := ds)]
    refine forall_mem_append.mpr ⟨fun c hc => mem_numeralChars_of_isDigit ?_, chars_of_readExponent? he⟩
    exact List.all_eq_true.mp all_takeWhile c hc
  · split_ifs at h with hempty
    obtain ⟨e, he, -⟩ := Option.map_eq_some_iff.mp h
    refine isNumeral_of_whole hcs (chars_of_readExponent? he) (.inl fun hwhole => ?_)
    simp [hwhole] at hempty

theorem IsNumeral.of_splitSign (h : IsNumeral (splitSign cs).2) : IsNumeral cs := by
  rcases splitSign_cases cs with ⟨d, hd, hcs⟩ | hcs
  · rw [hcs]
    refine isNumeral_of_head ?_ (forall_mem_cons.mpr ⟨?_, h.chars⟩)
    · rcases hd with rfl | rfl <;> decide
    · rcases hd with rfl | rfl <;> decide
  · rwa [hcs] at h

theorem mem_numeralChars_of_toLower (hc : c.toLower ∈ "infinityna".toList) : c ∈ numeralChars := by
  have hascii : c.toNat < 128 := by
    by_cases hupper : c.val ≥ 'A'.val ∧ c.val ≤ 'Z'.val
    · exact Nat.lt_of_le_of_lt (UInt32.le_iff_toNat_le.mp hupper.2) (by decide)
    · have hsame : c.toLower = c := dif_neg hupper
      rw [hsame] at hc
      exact (by decide : ∀ d ∈ "infinityna".toList, d.toNat < 128) c hc
  have hall : ∀ n : Nat, n < 128 → (Char.ofNat n).toLower ∈ "infinityna".toList → Char.ofNat n ∈ numeralChars := by
    decide
  rw [← c.ofNat_toNat] at hc ⊢
  exact hall c.toNat hascii hc

theorem isNumeral_of_word (h : cs.map Char.toLower ∈ numeralWords) : IsNumeral cs where
  chars c hc := by
    refine mem_numeralChars_of_toLower ?_
    have hwords : ∀ word ∈ numeralWords, ∀ d ∈ word, d ∈ "infinityna".toList := by decide
    exact hwords _ h c.toLower (mem_map_of_mem hc)
  ne_nil := by
    rintro rfl
    exact absurd h (by decide)
  word _ _ _ := h

theorem isNumeral_of_readFloat? {s : String} {x : Float} (h : readFloat? s = some x) : IsNumeral s.toList := by
  refine .of_splitSign ?_
  have hword {w : String} (heq : String.ofList ((splitSign s.toList).2.map Char.toLower) = w) :
      (splitSign s.toList).2.map Char.toLower = w.toList := by
    rw [← heq, String.toList_ofList]
  simp only [readFloat?] at h
  split at h
  · rename_i hinf
    refine isNumeral_of_word ?_
    rcases hinf with hinf | hinf <;> rw [hword hinf] <;> decide
  · split at h
    · rename_i hnan
      refine isNumeral_of_word ?_
      rw [hword hnan]
      decide
    · obtain ⟨d, hd, -⟩ := Option.map_eq_some_iff.mp h
      obtain ⟨hchars, c, rest, hcs, hc⟩ := isNumeral_of_readDecimal? hd
      rw [hcs] at hchars ⊢
      exact isNumeral_of_head hc hchars

end Pushdown
