import Pushdown.Proofs.Outcome
import Pushdown.Write.Change

/-!
# What planned writes are made of

`planUpdate_ok`, `planDelete_ok`: a plan that is accepted is taken apart into what its parts are planned from.
-/

namespace Pushdown.WriteContext

open Attempt

variable {σ : Type} {c : WriteContext σ} {delete : Delete} {s s' : σ} {plan : WritePlan}

theorem table_ok {name : String} {t : Table} (h : c.table name s = (.ok t, s')) :
    c.catalog.table name = .ok t ∧ s = s' :=
  ⟨ok_of_mapError (ofExcept_ok h).1, (ofExcept_ok h).2⟩

theorem layout_ok {name : String} {l : Layout} (h : c.layout name s = (.ok l, s')) :
    c.catalog.layout name = .ok l ∧ s = s' :=
  ⟨ok_of_mapError (ofExcept_ok h).1, (ofExcept_ok h).2⟩

theorem nested_ok {l : Layout} {filter : Option Expression} {action : NestedAction}
    {copies : List CopyFetch} (h : c.nested l filter action copies s = (.ok plan, s')) :
    ∃ table columns, c.catalog.table l.table = .ok table ∧
      table.columns.mapM (c.nestedColumn l) = .ok columns ∧
      plan = .nested {
        table := table.name, collection := l.collection, hops := l.hops, read := nestedRead l
        filter := filter, columns := columns, action := action, copies := copies } := by
  obtain ⟨table, s₁, htable, h⟩ := bind_ok h
  obtain ⟨columns, hcolumns, rfl⟩ := bind_pure_ok h
  exact ⟨table, columns, (table_ok htable).1, (ofExcept_ok hcolumns).1, rfl⟩

theorem planDelete_ok (h : c.planDelete delete s = (.ok plan, s')) :
    ∃ table l, c.catalog.table delete.table = .ok table ∧ c.catalog.layout table.name = .ok l ∧
      ((∃ filter s₁ direct, l.isMerged = false ∧
          c.propagation l filter .unset s₁ = (.ok direct.propagation, s') ∧ plan = .direct direct) ∨
        (∃ s₁, l.isMerged ∧ c.nested l delete.filter .delete [] s₁ = (.ok plan, s')) ∨
        ∃ q s₁ pulled, l.isMerged ∧ l.hops.getLast?.any Hop.isArray ∧
          c.condition l delete.filter .element s = (.ok q, s₁) ∧
          c.pull l delete.filter q s₁ = (.ok pulled, s') ∧ plan = .pull pulled) := by
  obtain ⟨table, s₁, h₁, h⟩ := bind_ok h
  obtain ⟨l, s₂, h₂, h⟩ := bind_ok h
  obtain ⟨htable, rfl⟩ := table_ok h₁
  obtain ⟨hl, rfl⟩ := layout_ok h₂
  refine ⟨table, l, htable, hl, ?_⟩
  split at h
  · rename_i htop
    obtain ⟨filter, s₃, -, h⟩ := bind_ok h
    obtain ⟨propagation, hpropagation, rfl⟩ := bind_pure_ok h
    exact .inl ⟨filter, s₃, _, by simpa using htop, hpropagation, rfl⟩
  · rename_i hmerged
    replace hmerged : l.isMerged := by simpa using hmerged
    split at h
    · rename_i hfast
      obtain ⟨choice, s₃, hchoice, h⟩ := bind_ok h
      rw [fastDelete] at hchoice
      cases choice with
      | inl q =>
        obtain ⟨pulled, hpulled, rfl⟩ := bind_pure_ok h
        split at hchoice
        · rename_i q' s₅ hcondition
          cases hchoice
          exact .inr (.inr ⟨q, s₃, pulled, hmerged, (Bool.and_eq_true_iff.mp hfast).1, hcondition, hpulled, rfl⟩)
        · cases hchoice
        · cases hchoice
      | inr _ => exact .inr (.inl ⟨s₃, hmerged, h⟩)
    · exact .inr (.inl ⟨_, hmerged, h⟩)

theorem planUpdate_ok {update : Update} (h : c.planUpdate update s = (.ok plan, s')) :
    ∃ table l assigned copies fields s₁ s₂ s₃, c.catalog.table update.table = .ok table ∧
      c.catalog.layout table.name = .ok l ∧
      update.assignments.mapM (assignment table l) = .ok assigned ∧
      c.refreshedCopies l assigned s₁ = (.ok copies, s₂) ∧
      assigned.mapM c.storeColumn s₂ = (.ok fields, s₃) ∧
      ((∃ filter s₄ propagation, l.isMerged = false ∧
          c.propagation l filter (.set (fields.filter fun f => !table.isPrimaryKeyColumn f.1)) s₄ =
            (.ok propagation, s') ∧
          plan = .direct {
            table := table.name
            mutation := .update {
              collection := l.collection, filter := filter, update := Changes.ofAssignments fields }
            copies := copies
            propagation := propagation }) ∨
        l.isMerged ∧ c.nested l update.filter (.update fields) copies s₃ = (.ok plan, s')) := by
  obtain ⟨table, s₁, h₁, h⟩ := bind_ok h
  obtain ⟨l, s₂, h₂, h⟩ := bind_ok h
  obtain ⟨htable, rfl⟩ := table_ok h₁
  obtain ⟨hl, rfl⟩ := layout_ok h₂
  obtain ⟨assigned, s₃, hassigned, h⟩ := bind_ok h
  obtain ⟨hassigned, -⟩ := ofExcept_ok hassigned
  extract_lets go at h
  by_cases hnone : assigned.isEmpty
  · rw [if_pos hnone] at h
    obtain ⟨_, _, hthrow, -⟩ := bind_ok h
    cases hthrow
  · rw [if_neg hnone] at h
    obtain ⟨copies, s₄, hcopies, h⟩ := bind_ok h
    obtain ⟨fields, s₅, hfields, h⟩ := bind_ok h
    refine ⟨table, l, assigned, copies, fields, s₃, s₄, s₅, htable, hl, hassigned, hcopies, hfields, ?_⟩
    split at h
    · rename_i hmerged
      exact .inr ⟨hmerged, h⟩
    · rename_i htop
      obtain ⟨filter, s₆, -, h⟩ := bind_ok h
      obtain ⟨propagation, hpropagation, rfl⟩ := bind_pure_ok h
      exact .inl ⟨filter, s₆, propagation, by simpa using htop, hpropagation, rfl⟩

end Pushdown.WriteContext
