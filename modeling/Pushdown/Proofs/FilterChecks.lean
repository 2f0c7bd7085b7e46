import Pushdown.Proofs.FastDelete

/-!
# Filters of writes that do not suit their table

`Suits`: a filter reads no aggregates, and only columns of the table. One that is made a condition for the store is
checked on the way (`suits_of_condition`). `unsuited_filter_accepted`: the filter of merged rows that are read first
is not made a condition, and passes.
-/

namespace Pushdown

open Attempt

namespace Attempt

variable {σ ε α β : Type} {x : Attempt σ ε α} {f g : α → Attempt σ ε β} {s : σ}

theorem isOk_bind {p : Bool} (h : ∀ a s₁, x s = (.ok a, s₁) → (f a s₁).1.isOk = (p && (g a s₁).1.isOk)) :
    ((x >>= f) s).1.isOk = (p && ((x >>= g) s).1.isOk) := by
  rcases hx : x s with ⟨r, s₁⟩
  cases r with
  | ok a =>
    rw [bind_of_ok hx, bind_of_ok hx]
    exact h a s₁ hx
  | error e =>
    rw [bind_of_error hx, bind_of_error hx]
    exact (Bool.and_false p).symm

theorem isOk_bind_of_not (h : (x s).1.isOk = false) : ((x >>= f) s).1.isOk = false := by
  rcases hx : x s with ⟨r, s₁⟩
  rw [hx] at h
  cases r with
  | ok a => cases h
  | error e => rw [bind_of_error hx]; rfl

end Attempt

namespace Expression

/-- Whether a filter can be decided on rows of a table: it reads no aggregates, and only columns of the table,
which are qualified by no other name. -/
def Suits (e : Expression) (t : Table) : Prop :=
  e.containsAggregate = false ∧
    ∀ ref ∈ e.columns, (ref.table.isEmpty ∨ Text.same t.name ref.table) ∧ (t.column? ref.column).isSome

instance (e : Expression) (t : Table) : Decidable (e.Suits t) := inferInstanceAs (Decidable (_ ∧ _))

theorem Suits.and {t : Table} {terms : List Expression} (h : ∀ e ∈ terms, e.Suits t) :
    (Expression.and terms).Suits t := by
  have hnone : anyAggregate terms = false := by
    induction terms with
    | nil => rfl
    | cons e es ih =>
      obtain ⟨he, hes⟩ := List.forall_mem_cons.mp h
      rw [anyAggregate, he.1, ih hes, Bool.or_self]
  refine ⟨hnone, fun ref href => ?_⟩
  rcases mem_columns.mp href with heq | ⟨e, he, href⟩
  · cases heq
  · exact (h e he).2 ref href

variable {σ : Type} {c : Context σ} {e t : Expression} {q : Condition} {s s' : Draft σ}

theorem exists_resolve_of_compile {b : Bson} (h : e.compile c .raw s = (.ok b, s')) :
    ∀ ref ∈ e.columns, ∃ column, c.resolve ref = .ok column := by
  induction e using induction_inner generalizing b s s' with
  | step e ih =>
    intro ref href
    rcases mem_columns.mp href with rfl | ⟨x, hx, href⟩
    · obtain ⟨column, _, hcolumn, -⟩ := bind_ok h
      exact ⟨column, (ofExcept_ok hcolumn).1⟩
    · rcases compiled_inner h with ⟨hscope, -⟩ | ⟨-, hinner⟩
      · cases hscope
      rcases hinner x hx with ⟨text, htext⟩ | ⟨b', s₁, s₂, hb, -⟩
      · cases x with
        | literal v => cases href
        | _ => cases htext
      · exact ih x hx hb ref href

theorem exists_resolve_of_fieldTest (h : FieldTest c t q) :
    ∀ ref ∈ t.columns, ∃ column, c.resolve ref = .ok column := by
  have hliterals (vs : List Value) : columnsOf (vs.map .literal) = [] := by
    induction vs with
    | nil => rfl
    | cons v vs ih => exact ih
  cases h with
  | @like _ _ pattern _ _ _ hcolumn htext =>
    cases pattern with
    | literal v => simp [columns, hcolumn]
    | _ => cases htext
  | isIn negated hcolumn => simp [columns, hliterals, hcolumn]
  | _ => simp [columns, *]

theorem exists_resolve_of_compiles (h : Compiles c e) : ∀ ref ∈ e.columns, ∃ column, c.resolve ref = .ok column := by
  intro ref href
  obtain ⟨t, ht, href⟩ := mem_columns_tests.mp href
  obtain ⟨q, s, s', hq⟩ := compiles_tests e h t ht
  rcases filter_cases (isTest_of_mem_tests e t ht) hq with hfield | ⟨-, s₁, hcomputed⟩
  · exact exists_resolve_of_fieldTest hfield ref href
  · rcases computedFilter_cases hcomputed with ⟨-, b, s₂, hb, -⟩ | ⟨-, b, hb, -⟩
    · exact exists_resolve_of_compile hb ref href
    · exact exists_resolve_of_compile hb ref href

end Expression

namespace WriteContext

variable {σ : Type} {c : WriteContext σ} {l : Layout} {t : Table} {e : Expression} {s s' : σ}

theorem suits_of_condition (ht : c.catalog.table l.table = .ok t) (hname : l.table = t.name) {mode : Mode}
    {q : Option Condition} (h : c.condition l (some e) mode s = (.ok q, s')) : e.Suits t := by
  obtain ⟨qs, hqs, -⟩ := condition_ok h
  refine Expression.of_conjuncts (fun _ => Expression.Suits.and) e fun term hterm => ?_
  obtain ⟨q, -, hplain, hq⟩ := exists_right_of_forall₂ hqs hterm
  refine ⟨hplain, fun ref href => ?_⟩
  obtain ⟨found, hfound⟩ := Expression.exists_resolve_of_compiles ⟨q, hq⟩ ref href
  obtain ⟨table, column, _, hqualified, htable, hcolumn, -⟩ := resolve_ok hfound
  cases ht.symm.trans htable
  exact ⟨hname ▸ hqualified, Option.isSome_of_mem hcolumn⟩

theorem isOk_nested (filter other : Option Expression) (action : NestedAction) (copies : List CopyFetch) (s s' : σ) :
    (c.nested l filter action copies s).1.isOk = (c.nested l other action copies s').1.isOk := by
  unfold nested table
  cases (c.catalog.table l.table).mapError WriteError.layout with
  | error e => rfl
  | ok t =>
    show ((Attempt.ofExcept (t.columns.mapM (c.nestedColumn l)) >>= _) s).1.isOk =
      ((Attempt.ofExcept (t.columns.mapM (c.nestedColumn l)) >>= _) s').1.isOk
    cases t.columns.mapM (c.nestedColumn l) <;> rfl

/-- Whether the filter of a delete of merged rows is left to be decided row by row. -/
def leavesToRows (c : WriteContext σ) (l : Layout) (e : Expression) (s : σ) : Bool :=
  !(l.hops.getLast?.any Hop.isArray && c.options.pullFastPath) ||
    match c.condition l (some e) .element s with
    | (.error (.query (.notElementLocal _)), _) => true
    | _ => false

section

variable {name : String} (ht : c.table name s = (.ok t, s)) (hl : c.layout t.name s = (.ok l, s))
  (h : ∀ mode s, (c.condition l (some e) mode s).1.isOk = false)
include h

theorem isOk_standaloneFilter_bind (f : Document → Planning σ WritePlan) (s : σ) :
    ((c.standaloneFilter l (some e) >>= f) s).1.isOk = false :=
  isOk_bind_of_not (isOk_bind_of_not (h .standalone s))

/-- Where no condition can be made, a delete by one update is given up for the rows, or fails. -/
theorem fastDelete_cases (hfast : (l.hops.getLast?.any Hop.isArray && c.options.pullFastPath) = true) (s : σ) :
    (c.leavesToRows l e s = true ∧ ∃ s', c.fastDelete l (some e) s = (.ok (.inr ()), s')) ∨
      c.leavesToRows l e s = false ∧ (c.fastDelete l (some e) s).1.isOk = false := by
  have helement := h .element s
  rw [leavesToRows, hfast, fastDelete]
  rcases hq : c.condition l (some e) .element s with ⟨r, s'⟩
  rw [hq] at helement
  split
  · rename_i heq
    cases heq
    exact .inl ⟨rfl, _, rfl⟩
  · rename_i hother
    refine .inr ⟨rfl, ?_⟩
    split
    · rename_i heq
      cases heq
      cases helement
    · rename_i heq
      exact absurd heq (hother _ _)
    · rfl

include ht hl

theorem isOk_planUpdate (assignments : List Assignment) :
    (c.planUpdate ⟨name, assignments, some e⟩ s).1.isOk =
      (l.isMerged && (c.planUpdate ⟨name, assignments, none⟩ s).1.isOk) := by
  rw [planUpdate, planUpdate, bind_of_ok ht, bind_of_ok ht, bind_of_ok hl, bind_of_ok hl]
  refine isOk_bind fun assigned s₁ _ => ?_
  by_cases hnone : assigned.isEmpty
  · simp only [hnone, if_true]
    exact (Bool.and_false _).symm
  · simp only [hnone]
    refine isOk_bind fun copies s₂ _ => isOk_bind fun fields s₃ _ => ?_
    cases hmerged : l.isMerged with
    | true => exact isOk_nested _ _ _ _ s₃ s₃
    | false => exact isOk_standaloneFilter_bind h _ s₃

theorem isOk_planDelete :
    (c.planDelete ⟨name, some e⟩ s).1.isOk =
      (l.isMerged && c.leavesToRows l e s && (c.nested l none .delete [] s).1.isOk) := by
  rw [planDelete, bind_of_ok ht, bind_of_ok hl]
  cases hmerged : l.isMerged with
  | false => exact isOk_standaloneFilter_bind h _ s
  | true =>
    simp only [Bool.not_true, Bool.false_eq_true, if_false, Bool.true_and]
    cases hfast : l.hops.getLast?.any Hop.isArray && c.options.pullFastPath with
    | false =>
      rw [leavesToRows, hfast]
      exact isOk_nested _ _ _ _ s s
    | true =>
      rw [if_pos rfl]
      rcases fastDelete_cases h hfast s with ⟨hleaves, s', hchoice⟩ | ⟨hleaves, hfails⟩
      · rw [hleaves, bind_of_ok hchoice]
        exact isOk_nested _ _ _ _ s' s
      · rw [hleaves]
        exact isOk_bind_of_not hfails

end

/-- A filter that does not suit its table is refused for rows with documents of their own. For merged rows an UPDATE
is accepted as if it had none, and so is a DELETE that `leavesToRows`. -/
theorem unsuited_filter_accepted (hc : c.catalog.WellKeyed) {name : String} (ht : c.catalog.table name = .ok t)
    (hl : c.catalog.layout t.name = .ok l) (he : ¬e.Suits t) (s : σ) :
    (∀ assignments, (c.planUpdate ⟨name, assignments, some e⟩ s).1.isOk =
      (l.isMerged && (c.planUpdate ⟨name, assignments, none⟩ s).1.isOk)) ∧
    (c.planDelete ⟨name, some e⟩ s).1.isOk =
      (l.isMerged && c.leavesToRows l e s && (c.nested l none .delete [] s).1.isOk) := by
  have htable : c.table name s = (.ok t, s) := by
    rw [table, ht]
    rfl
  have hlayout : c.layout t.name s = (.ok l, s) := by
    rw [layout, hl]
    rfl
  obtain ⟨own, hown, hname⟩ := Catalog.layout_table hl
  cases hown.symm.trans (Catalog.table_name hc ht)
  have hcondition (mode : Mode) (s : σ) : (c.condition l (some e) mode s).1.isOk = false := by
    rcases h : c.condition l (some e) mode s with ⟨r, s'⟩
    cases r with
    | ok q => exact absurd (suits_of_condition (hname ▸ hown) hname h) he
    | error _ => rfl
  exact ⟨isOk_planUpdate htable hlayout hcondition, isOk_planDelete htable hlayout hcondition⟩

/-- A comparison with a column that items do not have. -/
def strayTest : Expression := .comparison .eq (.column ⟨"", "zz"⟩) (.literal (.integer 1))

def shoutedNote : Expression :=
  .comparison .eq (.call "upper" [.column ⟨"", "note"⟩]) (.literal (.string "X"))

/-- Items are updated whatever column their filter reads, and are deleted where a term that has to be computed comes
before the one that cannot be decided. Orders are not. -/
theorem unsuited_filter_accepted_items :
    (orders.planUpdate ⟨"items", [⟨"note", .literal (.string "x")⟩], some strayTest⟩ ()).1.isOk ∧
      (orders.planDelete ⟨"items", some (.and [shoutedNote, strayTest])⟩ ()).1.isOk ∧
      (orders.planDelete ⟨"items", some (.and [strayTest, shoutedNote])⟩ ()).1.isOk = false ∧
      (orders.planDelete ⟨"orders", some strayTest⟩ ()).1.isOk = false := by
  have hc : orders.catalog.WellKeyed := Catalog.wellKeyed_ofTables _
  exact ⟨((unsuited_filter_accepted hc rfl rfl (by decide) ()).1 _).trans rfl,
    (unsuited_filter_accepted hc rfl rfl (by decide) ()).2.trans rfl,
    (unsuited_filter_accepted hc rfl rfl (by decide) ()).2.trans rfl,
    (unsuited_filter_accepted hc rfl rfl (by decide) ()).2.trans rfl⟩

end WriteContext

end Pushdown
