import Pushdown.Proofs.Accumulators

/-!
# Aggregates that a query meets

`Draft.Covers`: every aggregate in an expression is found in the group, or stands inside of a value that is found
there. `Clauses.CompiledFrom.covers`: in a compiled query this holds of HAVING and of every select item. Filters on
groups are gone through test by test (`OfGroupTests`).
-/

namespace Pushdown

open List Attempt Expression

def Draft.Covers {σ : Type} (s : Draft σ) (e : Expression) : Prop :=
  ∀ a ∈ e.parts, a.isAggregate → ∃ part ∈ e.parts, a ∈ part.parts ∧ (s.registry.groupedPath? part.sql).isSome

namespace Draft.Covers

variable {σ : Type} {s s' : Draft σ} {e : Expression}

theorem of_found (h : (s.registry.groupedPath? e.sql).isSome) : s.Covers e :=
  fun _ ha _ => ⟨e, e.self_mem_parts, ha, h⟩

theorem of_inner (he : e.isAggregate = false) (h : ∀ e' ∈ e.inner, s.Covers e') : s.Covers e := by
  intro a ha haggregate
  rcases mem_parts.mp ha with rfl | ⟨e', he', ha⟩
  · rw [he] at haggregate
    cases haggregate
  · obtain ⟨part, hpart, hmem, hfound⟩ := h e' he' a ha haggregate
    exact ⟨part, mem_parts.mpr (.inr ⟨e', he', hpart⟩), hmem, hfound⟩

theorem literal (v : Value) : s.Covers (.literal v) := of_inner rfl (by simp [Expression.inner])

theorem mono (h : s.Covers e) (hkeeps : s.Keeps s') : s'.Covers e := by
  intro a ha haggregate
  obtain ⟨part, hpart, hmem, hfound⟩ := h a ha haggregate
  obtain ⟨path, hpath⟩ := Option.isSome_iff_exists.mp hfound
  exact ⟨part, hpart, hmem, Option.isSome_iff_exists.mpr ⟨path, hkeeps.groupedPath? hpath⟩⟩

end Draft.Covers

/-- The field that a condition tests. -/
def Condition.tested? : Condition → Option String
  | .comparison field _ _ => field
  | .isIn field _ _ => field
  | .regex field _ _ _ => field
  | _ => none

namespace Compiling

variable {σ α : Type} {e : Expression}

def Covers (x : Compiling σ α) (e : Expression) : Prop :=
  ∀ (s : Draft σ) a (s' : Draft σ), x s = (.ok a, s') → s'.Covers e

end Compiling

namespace Expression

open Compiling

variable {σ : Type} {c : Context σ} {e : Expression} {s s' : Draft σ}

theorem covers_compile (e : Expression) : Covers (e.compile c .grouped) e := by
  induction e using induction_inner with
  | step e ih =>
    intro s b s' h
    rcases compiled_inner h with ⟨-, hfound⟩ | ⟨he, hinner⟩
    · exact .of_found hfound
    · refine .of_inner he fun x hx => ?_
      rcases hinner x hx with ⟨text, htext⟩ | ⟨b', s₁, s₂, hx', hkeeps⟩
      · obtain ⟨v, rfl, -⟩ := likePattern_ok htext
        exact .literal v
      · exact (ih x hx s₁ b' s₂ hx').mono hkeeps

theorem isFilterTrace_keeps (c : Context σ) : IsFilterTrace c .grouped (Draft.Keeps (σ := σ)) where
  toIsTrace := Draft.isTrace_keeps
  accumulate _ := accumulates_keeps c none
  compute h := by cases h

def Tests (t input : Expression) : Prop :=
  t = input ∨ t.isAggregate = false ∧ ∀ x ∈ t.inner, x = input ∨ ∃ v, x = .literal v

/-- A property of filters on groups that follows from their parts: it holds of a test of a field of the group,
of what is computed, and of what logic makes of conditions that have it. -/
structure OfGroupTests (c : Context σ) (Q : Expression → Condition → Draft σ → Prop) : Prop where
  mono : ∀ {e q s s'}, Q e q s → s.Keeps s' → Q e q s'
  field : ∀ {t input q path s}, Tests t input → s.registry.groupedPath? input.sql = some path →
    q.tested? = some path → Q t q s
  computed : ∀ {e b s s'}, e.compile c .grouped s = (.ok b, s') → Q e (.expr b) s'
  connective : ∀ {es qs s}, List.Forall₂ (Q · · s) es qs → Q (.and es) (.and qs) s ∧ Q (.or es) (.or qs) s
  negation : ∀ {e q s}, Q e q s → Q (.not e) q.negate s ∧ Q (.not (.not e)) q s

variable {Q : Expression → Condition → Draft σ → Prop} {q : Condition}

theorem OfGroupTests.computedFilter (hQ : OfGroupTests c Q) (h : computedFilter c .grouped e s = (.ok q, s')) :
    Q e q s' := by
  obtain ⟨b, hb, rfl⟩ := bind_pure_ok h
  exact hQ.computed hb

theorem OfGroupTests.fieldOr (hQ : OfGroupTests c Q) {test : String → Condition} {input : Expression}
    (htests : Tests e input) (htest : ∀ field, (test field).tested? = some field)
    (h : (do
      match ← field? c .grouped input with
      | some field => return test field
      | none => Expression.computedFilter c .grouped e : Compiling σ Condition) s = (.ok q, s')) : Q e q s' := by
  obtain ⟨field, s₁, hfield, h⟩ := bind_ok h
  cases field with
  | some field =>
    obtain ⟨rfl, rfl⟩ := pure_ok h
    exact hQ.field htests (groupedPath?_of_field? hfield) (htest field)
  | none => exact hQ.computedFilter h

theorem OfGroupTests.comparison (hQ : OfGroupTests c Q) {op : ComparisonOp} {left right : Expression}
    (h : comparisonFilter c .grouped op left right s = (.ok q, s')) : Q (.comparison op left right) q s' := by
  obtain ⟨input, s₁, hinput, h⟩ := bind_ok h
  obtain ⟨arg, s₂, harg, h⟩ := bind_ok h
  split at h
  · obtain ⟨rfl, rfl⟩ := pure_ok h
    obtain ⟨v, rfl, -⟩ := constant?_some harg
    have htests : Tests (.comparison op left (.literal v)) left := .inr ⟨rfl, by simp [inner]⟩
    obtain ⟨b, hstore, -⟩ := map_ok harg
    exact hQ.mono (hQ.field htests (groupedPath?_of_field? hinput) rfl)
      (traces_store Draft.isTrace_keeps v s₁ b s₂ hstore)
  · obtain ⟨arg', s₃, harg', h⟩ := bind_ok h
    obtain ⟨input', s₄, hinput', h⟩ := bind_ok h
    split at h
    · obtain ⟨rfl, rfl⟩ := pure_ok h
      obtain ⟨v, rfl, -⟩ := constant?_some harg'
      exact hQ.field (.inr ⟨rfl, by simp [inner]⟩) (groupedPath?_of_field? hinput') rfl
    · exact hQ.computedFilter h

mutual

theorem OfGroupTests.filter (hQ : OfGroupTests c Q) (e : Expression) {q : Condition} {s s' : Draft σ}
    (h : e.filter c .grouped s = (.ok q, s')) : Q e q s' := by
  cases e with
  | and terms =>
    obtain ⟨qs, hqs, rfl⟩ := bind_pure_ok h
    exact (hQ.connective (hQ.filters terms hqs)).1
  | or terms =>
    obtain ⟨qs, hqs, rfl⟩ := bind_pure_ok h
    exact (hQ.connective (hQ.filters terms hqs)).2
  | not term =>
    cases term with
    | not e =>
      rw [Expression.filter] at h
      exact (hQ.negation (hQ.filter e h)).2
    | _ =>
      obtain ⟨q', hq, rfl⟩ := bind_pure_ok h
      exact (hQ.negation (hQ.filter _ hq)).1
  | comparison op left right => exact hQ.comparison h
  | isIn input list negated =>
    obtain ⟨args, s₁, hargs, h⟩ := bind_ok h
    obtain ⟨field, s₂, hfield, h⟩ := bind_ok h
    split at h
    · obtain ⟨rfl, rfl⟩ := pure_ok h
      obtain ⟨vs, rfl, -⟩ := constants?_some hargs
      exact hQ.field (.inr ⟨rfl, by simp [inner]⟩) (groupedPath?_of_field? hfield) rfl
    · exact hQ.computedFilter h
  | isNull input negated => exact hQ.fieldOr (.inr ⟨rfl, by simp [inner]⟩) (fun _ => rfl) h
  | like input pattern escape negated =>
    obtain ⟨text, s₁, htext, h⟩ := bind_ok h
    obtain ⟨v, rfl, -⟩ := likePattern_ok (ofExcept_ok htext).1
    have htests : Tests (.like input (.literal v) escape negated) input := .inr ⟨rfl, by simp [inner]⟩
    cases input with
    | column ref =>
      obtain ⟨column, s₂, -, h⟩ := bind_ok h
      split at h
      · cases h
      · exact hQ.fieldOr htests (fun _ => rfl) h
    | _ => exact hQ.fieldOr htests (fun _ => rfl) h
  | column ref => exact hQ.fieldOr (.inl rfl) (fun _ => rfl) h
  | literal v | call name args | aggregate function arg distinct => exact hQ.computedFilter h

theorem OfGroupTests.filters (hQ : OfGroupTests c Q) (es : List Expression) {qs : List Condition} {s s' : Draft σ}
    (h : filters c .grouped es s = (.ok qs, s')) : List.Forall₂ (Q · · s') es qs := by
  cases es with
  | nil =>
    obtain ⟨rfl, -⟩ := pure_ok h
    exact .nil
  | cons e es =>
    obtain ⟨q, qs, s₁, hq, hqs, rfl⟩ := both_ok h
    exact .cons (hQ.mono (hQ.filter e hq) (traces_filters (isFilterTrace_keeps c) es s₁ qs s' hqs)) (hQ.filters es hqs)

end

theorem filters_eq_all (scope : Scope) (es : List Expression) :
    filters c scope es = Attempt.all (es.map (Expression.filter c scope)) := by
  induction es with
  | nil => rfl
  | cons e es ih => rw [filters, ih, map_cons, Attempt.all]

theorem OfGroupTests.all (hQ : OfGroupTests c Q) {es : List Expression} {qs : List Condition}
    (h : Attempt.all (es.map (Expression.filter c .grouped)) s = (.ok qs, s')) : List.Forall₂ (Q · · s') es qs :=
  hQ.filters es (filters_eq_all .grouped es ▸ h)

theorem ofGroupTests_covers (c : Context σ) : OfGroupTests c fun e _ s => s.Covers e where
  mono := .mono
  field htests hpath _ := by
    have hfound := Draft.Covers.of_found (Option.isSome_of_mem hpath)
    rcases htests with rfl | ⟨ht, hinner⟩
    · exact hfound
    · refine .of_inner ht fun x hx => ?_
      rcases hinner x hx with rfl | ⟨v, rfl⟩
      · exact hfound
      · exact .literal v
  computed h := covers_compile _ _ _ _ h
  connective h := by
    have hes : ∀ e ∈ _, _ := fun e he => (exists_right_of_forall₂ h he).choose_spec.2
    exact ⟨.of_inner rfl hes, .of_inner rfl hes⟩
  negation h := by
    have hnot := Draft.Covers.of_inner (e := .not _) rfl (forall_mem_singleton.mpr h)
    exact ⟨hnot, .of_inner rfl (forall_mem_singleton.mpr hnot)⟩

end Expression

namespace Select

open Compiling

variable {σ : Type} {c : Context σ} {q : Select}

theorem covers_compileHaving {having : Option Condition} {s s' : Draft σ}
    (h : compileHaving c q s = (.ok having, s')) : ∀ e ∈ q.having, s'.Covers e := by
  intro e he
  rw [compileHaving, Option.mem_def.mp he] at h
  obtain ⟨terms, hterms, -⟩ := bind_pure_ok h
  refine of_conjuncts (fun _ h => .of_inner rfl h) e fun term hterm => ?_
  obtain ⟨_, -, hcovers⟩ := exists_right_of_forall₂ ((ofGroupTests_covers c).all hterms) hterm
  exact hcovers

theorem covers_compileItem (name : String) (e : Expression) : Covers (compileItem c .grouped name e) e := by
  cases e with
  | aggregate function arg distinct => exact fun _ _ _ h => .of_found (isSome_of_compileAggregate h)
  | literal v => exact fun _ _ _ _ => .literal v
  | _ => exact covers_compile _

theorem Clauses.CompiledFrom.covers {placement : Placement} {r : Clauses σ} {objects : σ} {keys : GroupKeys}
    (h : r.CompiledFrom c placement q { objects }) (hkeys : r.keys = some keys) {e : Expression}
    (he : e ∈ q.having ∨ ∃ item ∈ q.columns, item.expr = e) : r.selected.Covers e := by
  rcases he with he | ⟨item, hitem, rfl⟩
  · have hkeeps := (traces_compileItems Draft.isTrace_keeps Draft.keeps_label (accumulates_keeps c none)
      (h.outputs_of_keys hkeys) fun _ _ _ => accumulates_keeps c _).1
    exact (covers_compileHaving h.having e he).mono hkeeps
  · obtain ⟨o, -, s₁, s₂, hkeeps, hcompile, -⟩ := exists_right_of_forall₂ (h.items hkeys) hitem
    exact (covers_compileItem _ _ s₁ _ s₂ hcompile).mono hkeeps

end Select

end Pushdown
