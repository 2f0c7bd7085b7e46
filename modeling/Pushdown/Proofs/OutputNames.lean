import Mathlib.Data.List.Nodup
import Mathlib.Data.List.Perm.Subperm
import Pushdown.Proofs.FunctionName
import Pushdown.Proofs.Grouping

/-!
# Output names

`label_or_lower_not_mem`: a select item is given out under its alias, or else under a name that no item before it
has, whatever the case of its letters.
-/

namespace Pushdown

open List

namespace Text

theorem exists_lowerAfter_append (before cs ds : List Char) :
    ∃ start, lowerAfter before (cs ++ ds) = start ++ lowerAfter (cs.reverse ++ before) ds := by
  induction cs generalizing before with
  | nil => exact ⟨[], rfl⟩
  | cons c cs ih =>
    obtain ⟨start, hstart⟩ := ih (c :: before)
    rw [cons_append, lowerAfter, hstart, ← append_assoc, reverse_cons, append_assoc _ [c]]
    exact ⟨_, rfl⟩

theorem lowerAfter_eq_self {cs : List Char} (h : ∀ c ∈ cs, c.toNat < 128 ∧ c.toLower = c) (before : List Char) :
    lowerAfter before cs = cs := by
  rw [lowerAfter_eq_flatMap (fun c hc => .inl (h c hc).1)]
  induction cs with
  | nil => rfl
  | cons c cs ih =>
    obtain ⟨⟨hascii, hlower⟩, hcs⟩ := forall_mem_cons.mp h
    rw [flatMap_cons, ih hcs, lowerChar, if_pos hascii, hlower, singleton_append]

theorem toLower_of_isDigit {c : Char} (h : c.isDigit) : c.toNat < 128 ∧ c.toLower = c := by
  simp only [Char.isDigit, Bool.and_eq_true, decide_eq_true_eq, ge_iff_le, UInt32.le_iff_toNat_le] at h
  have hnat : c.val.toNat ≤ 57 := h.2
  refine ⟨by show c.val.toNat < 128; omega, dif_neg ?_⟩
  rintro ⟨hlow, -⟩
  rw [ge_iff_le, UInt32.le_iff_toNat_le] at hlow
  have : 65 ≤ c.val.toNat := hlow
  omega

theorem isDigit_of_mem_toString {n : Nat} {c : Char} (h : c ∈ (toString n).toList) : c.isDigit := by
  rw [Nat.toString_eq_repr, Nat.toList_repr] at h
  exact Nat.isDigit_of_mem_toDigits (by decide) (by decide) h

theorem eq_of_append_cons_eq {a a' d d' : List Char} {x : Char} (hd : x ∉ d) (hd' : x ∉ d')
    (h : a ++ x :: d = a' ++ x :: d') : d = d' := by
  rcases append_eq_append_iff.mp h with ⟨mid, -, hmid⟩ | ⟨mid, -, hmid⟩ <;> rcases mid with _ | ⟨y, mid⟩
  · exact (List.cons.inj hmid).2
  · exact absurd (by rw [(List.cons.inj hmid).2]; simp) hd
  · exact (List.cons.inj hmid).2.symm
  · exact absurd (by rw [(List.cons.inj hmid).2]; simp) hd'

theorem lower_numbered_injective {base : String} {n m : Nat}
    (h : lower (base ++ "_" ++ toString n) = lower (base ++ "_" ++ toString m)) : n = m := by
  have hlower (n : Nat) :
      ∃ start, (lower (base ++ "_" ++ toString n)).toList = start ++ '_' :: (toString n).toList := by
    obtain ⟨start, hstart⟩ := exists_lowerAfter_append [] base.toList ('_' :: (toString n).toList)
    have hkept : ∀ c ∈ '_' :: (toString n).toList, c.toNat < 128 ∧ c.toLower = c :=
      forall_mem_cons.mpr ⟨by decide, fun c hc => toLower_of_isDigit (isDigit_of_mem_toString hc)⟩
    rw [lowerAfter_eq_self hkept] at hstart
    refine ⟨start, ?_⟩
    rw [← hstart, lower, String.toList_ofList, String.toList_append, String.toList_append, append_assoc]
    rfl
  have hmark (n : Nat) : '_' ∉ (toString n).toList := fun hmem => absurd (isDigit_of_mem_toString hmem) (by decide)
  obtain ⟨start, hn⟩ := hlower n
  obtain ⟨start', hm⟩ := hlower m
  rw [h, hm] at hn
  exact toString_injective (String.toList_injective (eq_of_append_cons_eq (hmark n) (hmark m) hn.symm))

end Text

namespace Select

theorem freshName_cases (used : List String) (base : String) :
    freshName used base = base ∨ ∃ n : Nat, freshName used base = base ++ "_" ++ toString n := by
  rw [freshName]
  cases hfind : List.find? _ _ with
  | none => exact .inl rfl
  | some name =>
    rcases mem_cons.mp (mem_of_find?_eq_some hfind) with rfl | hmem
    · exact .inl rfl
    · obtain ⟨n, -, rfl⟩ := mem_map.mp hmem
      exact .inr ⟨n + 1, rfl⟩

theorem lower_freshName_not_mem (used : List String) (base : String) : Text.lower (freshName used base) ∉ used := by
  let numbered := (List.range (used.length + 1)).map fun n => base ++ "_" ++ toString (n + 1)
  have hnodup : (numbered.map Text.lower).Nodup := by
    rw [map_map]
    refine List.Nodup.map (fun n m h => ?_) nodup_range
    exact Nat.succ_injective (Text.lower_numbered_injective h)
  have hfree : ∃ name ∈ base :: numbered, Text.lower name ∉ used := by
    by_contra hnone
    have hsub : numbered.map Text.lower ⊆ used := by
      intro name hname
      obtain ⟨name', hmem, rfl⟩ := mem_map.mp hname
      exact by_contra fun hnew => hnone ⟨name', mem_cons_of_mem _ hmem, hnew⟩
    have hlength := (hnodup.subperm hsub).length_le
    simp only [numbered, length_map, length_range] at hlength
    omega
  obtain ⟨name, hmem, hname⟩ := hfree
  have hsome : ((base :: numbered).find? fun name => !used.contains (Text.lower name)).isSome :=
    find?_isSome.mpr ⟨name, hmem, by simpa using hname⟩
  obtain ⟨fresh, hfresh⟩ := Option.isSome_iff_exists.mp hsome
  have heq : freshName used base = fresh := by
    show ((base :: numbered).find? fun name => !used.contains (Text.lower name)).getD base = fresh
    rw [hfresh, Option.getD_some]
  have hnew := find?_some hfresh
  rw [heq]
  simpa using hnew

theorem label_or_lower_not_mem (used : List String) (position : Nat) (item : SelectItem) :
    item.label = some (outputName used position item) ∨ Text.lower (outputName used position item) ∉ used := by
  rw [outputName]
  split
  · exact .inl ‹_›
  · exact .inr (lower_freshName_not_mem _ _)
  · exact .inr (lower_freshName_not_mem _ _)

variable {item : SelectItem}

theorem label_or_positional (h : item.expr.isAggregate) (used : List String) (position : Nat) :
    item.label = some (outputName used position item) ∨ ∃ rest, outputName used position item = "expr" ++ rest := by
  rw [outputName]
  split
  · exact .inl ‹_›
  · rename_i hcolumn
    rw [hcolumn] at h
    cases h
  · refine .inr ?_
    rcases freshName_cases used ("expr" ++ toString (position + 1)) with hname | ⟨n, hname⟩
    · exact ⟨_, hname⟩
    · exact ⟨toString (position + 1) ++ "_" ++ toString n, by rw [hname]; simp only [String.append_assoc]⟩

def usedName (o : Output) : String := Text.lower o.column.name

theorem name_of_compileItems {σ : Type} {c : Context σ} {scope : Scope} {position : Nat} {used : List String}
    {items : List SelectItem} {outputs : List Output} {s s' : Draft σ}
    (h : compileItems c scope position used items s = (.ok outputs, s')) {i : Nat} {o : Output}
    (hitem : items[i]? = some item) (ho : outputs[i]? = some o) :
    o.column.name = outputName (((outputs.take i).map usedName).reverse ++ used) (position + i) item := by
  induction items generalizing position used outputs s i with
  | nil => cases hitem
  | cons first items ih =>
    obtain ⟨b, type, s₁, rest, -, hrest, rfl⟩ := compileItems_cons_ok h
    cases i with
    | zero =>
      cases hitem
      cases ho
      rfl
    | succ i =>
      rw [getElem?_cons_succ] at hitem ho
      rw [ih hrest hitem ho, take_succ_cons, map_cons, reverse_cons, append_assoc,
        Nat.add_assoc position 1 i, Nat.add_comm 1 i]
      rfl

end Select

end Pushdown
