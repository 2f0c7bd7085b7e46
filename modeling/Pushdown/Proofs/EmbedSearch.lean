import Mathlib.Logic.Relation
import Pushdown.Proofs.Tables

/-!
# The search along copies

Before a table is given a link to an embeddable one, `embedSearch` follows the foreign keys along which copies are
kept (`KeepsCopies`) from there, to see whether they lead back. No table is searched twice. `embedSearch_extends`:
when it has found nothing, the tables it has visited are all that can be reached, and none of them is the one that
was sought.
-/

namespace Pushdown.Catalog

open Relation List

variable {c : Catalog} {goal : String}

/-- The rows of `a` have a foreign key along which they keep copies of rows of `b`. -/
def KeepsCopies (c : Catalog) (a b : String) : Prop :=
  ∃ t fk target, c.table a = .ok t ∧ fk ∈ t.foreignKeys ∧ c.table fk.referencedTable = .ok target ∧
    target.properties.embedsInto t.name ∧ target.name = b

/-- What a search in vain does: it visits further tables, and from these all that is reached by one
more step, where it does not find what it seeks. -/
structure Extends (c : Catalog) (goal : String) (before after : List String) : Prop where
  visited : c.Distinct after
  subset : before ⊆ after
  length_le : before.length ≤ after.length
  closed : ∀ a b, Text.lower a ∈ after → Text.lower a ∉ before → c.KeepsCopies a b →
    ¬Text.same b goal ∧ Text.lower b ∈ after

namespace Extends

variable {before between after : List String}

theorem refl (h : c.Distinct before) : c.Extends goal before before :=
  ⟨h, List.Subset.refl _, le_rfl, fun _ _ hmem hnot => absurd hmem hnot⟩

theorem trans (h₁ : c.Extends goal before between) (h₂ : c.Extends goal between after) :
    c.Extends goal before after := by
  refine ⟨h₂.visited, List.Subset.trans h₁.subset h₂.subset, h₁.length_le.trans h₂.length_le,
    fun a b hafter hbefore hab => ?_⟩
  by_cases hbetween : Text.lower a ∈ between
  · obtain ⟨hgoal, hb⟩ := h₁.closed a b hbetween hbefore hab
    exact ⟨hgoal, h₂.subset hb⟩
  · exact h₂.closed a b hafter hbetween hab

end Extends

variable {after before : List String}

theorem searchKeys_extends {holder : Table} {visit : String → List String → Except LayoutError (Bool × List String)}
    (steps : Nat) (hvisit : ∀ name before after, c.Distinct before → steps ≤ before.length →
      visit name before = .ok (false, after) → c.Extends goal before after ∧ Text.lower name ∈ after)
    {fks : List ForeignKey} (hbefore : c.Distinct before) (hsteps : steps ≤ before.length)
    (h : c.searchKeys goal holder visit fks before = .ok (false, after)) :
    c.Extends goal before after ∧ ∀ fk ∈ fks, ∀ target, c.table fk.referencedTable = .ok target →
      target.properties.embedsInto holder.name → ¬Text.same target.name goal ∧ Text.lower target.name ∈ after := by
  induction fks generalizing before with
  | nil =>
    cases h
    exact ⟨.refl hbefore, fun _ hfk => (nomatch hfk)⟩
  | cons fk fks ih =>
    rw [searchKeys] at h
    obtain ⟨target, htarget, h⟩ := exists_of_bind_ok h
    split at h
    · rename_i hnone
      obtain ⟨hextends, hrest⟩ := ih hbefore hsteps h
      refine ⟨hextends, fun key hkey other hother hembeds => ?_⟩
      rcases mem_cons.mp hkey with rfl | hkey
      · cases htarget.symm.trans hother
        simp [hembeds] at hnone
      · exact hrest key hkey other hother hembeds
    · split at h
      · cases h
      · rename_i hgoal
        obtain ⟨⟨found, between⟩, hfound, h⟩ := exists_of_bind_ok h
        cases found with
        | true => cases h
        | false =>
          obtain ⟨hfirst, hmem⟩ := hvisit target.name before between hbefore hsteps hfound
          obtain ⟨hextends, hrest⟩ := ih hfirst.visited (hsteps.trans hfirst.length_le) h
          refine ⟨hfirst.trans hextends, fun key hkey other hother hembeds => ?_⟩
          rcases mem_cons.mp hkey with rfl | hkey
          · cases htarget.symm.trans hother
            exact ⟨hgoal, hextends.subset hmem⟩
          · exact hrest key hkey other hother hembeds

/-- The search from one table. Every search inside it has visited one more table, so that the steps
allowed for do not run out. -/
theorem embedSearch_extends {fuel : Nat} {name : String} (hbefore : c.Distinct before)
    (hfuel : c.entries.length + 1 ≤ fuel + before.length)
    (h : c.embedSearch goal fuel name before = .ok (false, after)) :
    c.Extends goal before after ∧ Text.lower name ∈ after := by
  induction fuel generalizing name before after with
  | zero =>
    have hle := hbefore.length_le
    omega
  | succ fuel ih =>
    rw [embedSearch] at h
    split at h
    · rename_i hmem
      cases h
      exact ⟨.refl hbefore, contains_iff_mem.mp hmem⟩
    · rename_i hfree
      obtain ⟨t, ht, h⟩ := exists_of_bind_ok h
      have hvisited : c.Distinct (Text.lower name :: before) := hbefore.cons (by simpa using hfree) ht
      obtain ⟨hextends, hkeys⟩ := searchKeys_extends (c.entries.length + 1 - fuel)
        (fun name before after hbefore hsteps h => ih hbefore (by omega) h) hvisited
        (by rw [length_cons]; omega) h
      refine ⟨⟨hextends.visited, (cons_subset.mp hextends.subset).2,
        (Nat.le_succ _).trans hextends.length_le, fun a b hafter hnot hab => ?_⟩,
        hextends.subset (mem_cons_self ..)⟩
      by_cases hsame : Text.lower a = Text.lower name
      · obtain ⟨t', fk, target, ht', hfk, htarget, hembeds, rfl⟩ := hab
        cases (table_of_lower hsame ht').symm.trans ht
        exact hkeys fk hfk target htarget hembeds
      · exact hextends.closed a b hafter (by simp [hsame, hnot]) hab

theorem not_same_of_embedChainReaches {name b : String}
    (h : c.embedChainReaches name goal = .ok false) (hchain : TransGen c.KeepsCopies name b) : ¬Text.same b goal := by
  obtain ⟨after, hsearch⟩ : ∃ after,
      c.embedSearch goal (c.entries.length + 1) name [] = .ok (false, after) := by
    rw [embedChainReaches] at h
    cases hsearch : c.embedSearch goal (c.entries.length + 1) name [] with
    | error e => rw [hsearch] at h; cases h
    | ok r =>
      rw [hsearch] at h
      exact ⟨r.2, congrArg Except.ok (Prod.ext (Except.ok.inj h) rfl)⟩
  obtain ⟨hextends, hname⟩ := embedSearch_extends (.nil c) (by simp) hsearch
  have hclosed : ¬Text.same b goal ∧ Text.lower b ∈ after := by
    induction hchain with
    | single hstep => exact hextends.closed _ _ hname (nomatch ·) hstep
    | tail _ hstep ih => exact hextends.closed _ _ ih.2 (nomatch ·) hstep
  exact hclosed.1

end Pushdown.Catalog
