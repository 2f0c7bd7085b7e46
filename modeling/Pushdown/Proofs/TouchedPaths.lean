import Mathlib.Data.List.Nodup
import Mathlib.Data.List.Pairwise
import Pushdown.Proofs.Update

/-!
# Places that an update touches

`ConflictFree`: the store refuses an update that both sets and removes a place, or that changes a place and another
one inside it. An update is put together by assigning and clearing one path after the other, under two operators
that hold a path once each; which places it `Touches` does not depend on how it was put together
(`conflictFree_iff`).
-/

namespace Pushdown

open List Document

namespace Path

theorem diverge_iff {p q : List String} : diverge p q = true ↔ ¬ p <+: q ∧ ¬ q <+: p := by
  induction p generalizing q with
  | nil => simp [diverge]
  | cons a p ih =>
    cases q with
    | nil => simp [diverge]
    | cons b q =>
      rw [diverge_cons, ih, cons_prefix_cons, cons_prefix_cons, eq_comm (a := b)]
      by_cases hab : a = b <;> simp [hab]

theorem split_prefix_iff {a b : String} : split a <+: split b ↔ covers a b := by
  rw [covers, Bool.or_eq_true, beq_iff_eq]
  constructor
  · rintro ⟨rest, hrest⟩
    by_cases hnil : rest = []
    · rw [hnil, append_nil] at hrest
      exact .inl (split_injective hrest.symm)
    · refine .inr ?_
      rw [← join_split b, ← hrest, join_append (split_ne_nil a) hnil, join_split, hasPrefix,
        isPrefixOf_iff_prefix, String.toList_append (s := a ++ ".")]
      exact prefix_append ..
  · rintro (rfl | h)
    · exact prefix_rfl
    · rw [hasPrefix, isPrefixOf_iff_prefix] at h
      obtain ⟨rest, hrest⟩ := h
      have hb : b = a ++ "." ++ String.ofList rest := by
        rw [← String.toList_inj, String.toList_append, String.toList_ofList, hrest]
      rw [hb, split_append_dot]
      exact prefix_append ..

theorem diverge_split_iff {a b : String} :
    diverge (split a) (split b) = true ↔ covers a b = false ∧ covers b a = false := by
  rw [diverge_iff, split_prefix_iff, split_prefix_iff, Bool.not_eq_true, Bool.not_eq_true]

theorem hasPrefix_dot_self (a : String) : hasPrefix (a ++ ".") a = false := by
  rw [hasPrefix, ← Bool.not_eq_true, isPrefixOf_iff_prefix]
  intro h
  exact Nat.not_succ_le_self a.toList.length (by simpa using h.length_le)

end Path

namespace Changes

variable {ps : List (String × Bool)} {changes : Changes}

/-- Whether the places that an update sets and removes are all apart, so that the store does not refuse it. -/
def ConflictFree (changes : Changes) : Prop := ∃ es, changes.edits? = some es ∧ Edit.Apart es

def places (sets unsets : Document) : List (String × Bool) := sets.map (·.1, true) ++ unsets.map (·.1, false)

/-- Whether the places that an update touches are the listed ones. -/
def Touches (changes : Changes) (ps : List (String × Bool)) : Prop :=
  ∃ first sets unsets, changes = render first sets unsets ∧ (sets.map Prod.fst).Nodup ∧
    (unsets.map Prod.fst).Nodup ∧ ∀ p, p ∈ places sets unsets ↔ p ∈ ps

def Compatible (ps : List (String × Bool)) : Prop :=
  ∀ p ∈ ps, ∀ q ∈ ps, p = q ∨ Path.diverge (Path.split p.1) (Path.split q.1) = true

theorem mem_places {sets unsets : Document} {p : String × Bool} :
    p ∈ places sets unsets ↔ p.1 ∈ sets.map Prod.fst ∧ p.2 = true ∨ p.1 ∈ unsets.map Prod.fst ∧ p.2 = false := by
  obtain ⟨path, isSet⟩ := p
  cases isSet <;> simp [places]

theorem nodup_places {sets unsets : Document} (hsets : (sets.map Prod.fst).Nodup)
    (hunsets : (unsets.map Prod.fst).Nodup) : (places sets unsets).Nodup := by
  have hmap {d : Document} (hd : (d.map Prod.fst).Nodup) (isSet : Bool) :
      (d.map fun f => (f.1, isSet)).Nodup := by
    refine pairwise_map.mpr ((pairwise_map.mp hd).imp fun hne heq => hne (Prod.mk.inj heq).1)
  refine (hmap hsets true).append (hmap hunsets false) fun p hp hp' => ?_
  obtain ⟨f, -, rfl⟩ := mem_map.mp hp
  obtain ⟨f', -, heq⟩ := mem_map.mp hp'
  cases (Prod.mk.inj heq).2

theorem edits?_render_perm (first : Bool) (sets unsets : Document) :
    ∃ es, edits? (render first sets unsets) = some es ∧
      es.Perm ((sets.map fun f => (⟨Path.split f.1, some f.2⟩ : Edit)) ++
        unsets.map fun f => (⟨Path.split f.1, none⟩ : Edit)) := by
  refine ⟨_, edits?_render (edits?_set sets) (edits?_unset unsets) first, ?_⟩
  cases first with
  | false => exact List.Perm.refl _
  | true => exact perm_append_comm

theorem compatible_below (path : String) (ps : List (String × Bool)) :
    Compatible (ps.map fun p => (path ++ "." ++ p.1, p.2)) ↔ Compatible ps := by
  have heq (p q : String × Bool) : (path ++ "." ++ p.1, p.2) = (path ++ "." ++ q.1, q.2) ↔ p = q := by
    rw [Prod.mk.injEq, String.append_right_inj, Prod.ext_iff]
  simp only [Compatible, forall_mem_map, heq, Path.split_append_dot, Path.diverge_append_left]

theorem compatible_flatMap {α : Type} {l : List α} {g : α → List (String × Bool)}
    (h : ∀ a ∈ l, ∀ b ∈ l, a ≠ b → ∀ p ∈ g a, ∀ q ∈ g b, Path.diverge (Path.split p.1) (Path.split q.1) = true) :
    Compatible (l.flatMap g) ↔ ∀ a ∈ l, Compatible (g a) := by
  constructor
  · intro hall a ha p hp q hq
    exact hall p (mem_flatMap.mpr ⟨a, ha, hp⟩) q (mem_flatMap.mpr ⟨a, ha, hq⟩)
  · intro heach p hp q hq
    obtain ⟨a, ha, hp⟩ := mem_flatMap.mp hp
    obtain ⟨b, hb, hq⟩ := mem_flatMap.mp hq
    by_cases hab : a = b
    · subst hab
      exact heach a ha p hp q hq
    · exact .inr (h a ha b hb hab p hp q hq)

theorem conflictFree_iff (h : changes.Touches ps) : changes.ConflictFree ↔ Compatible ps := by
  obtain ⟨first, sets, unsets, rfl, hsets, hunsets, hplaces⟩ := h
  obtain ⟨es, hes, hperm⟩ := edits?_render_perm first sets unsets
  let R (p q : String × Bool) : Prop := Path.diverge (Path.split p.1) (Path.split q.1) = true
  have : Std.Symm R := ⟨fun p q hpq => (Path.diverge_comm ..).trans hpq⟩
  have hapart : Edit.Apart es ↔ (places sets unsets).Pairwise R := by
    have hswap : Edit.Apart es ↔ Edit.Apart ((sets.map fun f => (⟨Path.split f.1, some f.2⟩ : Edit)) ++
        unsets.map fun f => (⟨Path.split f.1, none⟩ : Edit)) := ⟨fun h => h.perm hperm, fun h => h.perm hperm.symm⟩
    rw [hswap, Edit.Apart, places, pairwise_append, pairwise_append]
    simp only [pairwise_map, forall_mem_map, R]
  have hpairs : (places sets unsets).Pairwise R ↔ Compatible (places sets unsets) := by
    constructor
    · intro hpairwise p hp q hq
      exact or_iff_not_imp_left.mpr fun hne => hpairwise.forall hp hq hne
    · intro hcompatible
      exact (nodup_places hsets hunsets).pairwise_of_forall_ne fun p hp q hq hne =>
        (hcompatible p hp q hq).resolve_left hne
  have hsame : Compatible (places sets unsets) ↔ Compatible ps := by simp only [Compatible, hplaces]
  rw [ConflictFree, hes, ← hsame, ← hpairs, ← hapart]
  simp

theorem touches_nil : Touches [] [] := ⟨false, [], [], rfl, .nil, .nil, by simp [places]⟩

theorem touches_assign (h : changes.Touches ps) (path : String) (v : Bson) :
    (changes.assign path v).Touches (ps ++ [(path, true)]) := by
  obtain ⟨first, sets, unsets, rfl, hsets, hunsets, hplaces⟩ := h
  obtain ⟨first', hfirst⟩ := assign_render first sets unsets path v
  refine ⟨first', _, unsets, hfirst, nodup_insert hsets path v, hunsets, fun p => ?_⟩
  rw [mem_append, ← hplaces, mem_places, mem_places, mem_map_fst_insert, mem_singleton, Prod.ext_iff]
  tauto

theorem touches_clear (h : changes.Touches ps) (path : String) :
    (changes.clear path).Touches (ps ++ [(path, false)]) := by
  obtain ⟨first, sets, unsets, rfl, hsets, hunsets, hplaces⟩ := h
  obtain ⟨first', hfirst⟩ := clear_render first sets unsets path
  refine ⟨first', sets, _, hfirst, hsets, nodup_insert hunsets path _, fun p => ?_⟩
  rw [mem_append, ← hplaces, mem_places, mem_places, mem_map_fst_insert, mem_singleton, Prod.ext_iff]
  tauto

theorem touches_assignOrClear (h : changes.Touches ps) (path : String) (v : Bson) :
    (changes.assignOrClear path v).Touches (ps ++ [(path, !v.isNull)]) := by
  rw [assignOrClear]
  split
  · rename_i hnull
    rw [hnull]
    exact touches_clear h path
  · rename_i hnull
    rw [Bool.not_eq_true] at hnull
    rw [hnull]
    exact touches_assign h path v

theorem touches_foldl {α : Type} {f : Changes → α → Changes} {g : α → List (String × Bool)}
    (hf : ∀ {changes ps} (a : α), Touches changes ps → Touches (f changes a) (ps ++ g a))
    (h : changes.Touches ps) (l : List α) : Touches (l.foldl f changes) (ps ++ l.flatMap g) := by
  induction l generalizing changes ps with
  | nil => simpa using h
  | cons a l ih =>
    rw [foldl_cons, flatMap_cons, ← append_assoc]
    exact ih (hf a h)

theorem touches_writeCopies (h : changes.Touches ps) (path : String) (copies : List ResolvedCopy) :
    (changes.writeCopies path copies).Touches
      (ps ++ copies.map fun copy => (Path.extend path copy.field, copy.document.isSome)) := by
  rw [map_eq_flatMap]
  refine touches_foldl (fun {changes ps} copy h => ?_) h copies
  cases hdocument : copy.document with
  | none => exact touches_clear h _
  | some d => exact touches_assign h _ _

theorem touches_ofAssignments (fields : List (String × Bson)) :
    (ofAssignments fields).Touches (fields.map fun f => (f.1, !f.2.isNull)) := by
  refine ⟨false, _, _, rfl, nodup_ofFields _, nodup_ofFields _, fun p => ?_⟩
  obtain ⟨path, isSet⟩ := p
  rw [mem_places, mem_map_fst_ofFields, mem_map_fst_ofFields]
  cases isSet <;> simp

end Changes

end Pushdown
