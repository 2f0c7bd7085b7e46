import Pushdown.Proofs.Outcome
import Pushdown.Proofs.Parts
import Pushdown.Query.Filter

/-!
# Properties of computations that follow from their parts

Compiling is made of few steps: a constant is stored, a value is met or looked up in the group, an aggregate or a
predicate is to be computed. `partwise_compile`, `partwise_filter`: a property that holds of each of them
(`OfSteps`), and of computations one after the other (`Partwise`), holds of whatever is compiled.
-/

namespace Pushdown

open List

variable {σ α β : Type} {P : (α : Type) → Compiling σ α → Prop} {c : Context σ} {scope : Scope}

namespace Compiling

/-- A property that holds of a computation as soon as it holds of its parts. -/
structure Partwise (P : (α : Type) → Compiling σ α → Prop) : Prop where
  ofExcept : ∀ {α} (r : Except QueryError α), P α (Attempt.ofExcept r)
  bind : ∀ {α β} {x : Compiling σ α} {f : α → Compiling σ β}, P α x → (∀ a, P β (f a)) → P β (x >>= f)
  both : ∀ {α β γ} {f : α → β → γ} {x : Compiling σ α} {y : Compiling σ β}, P α x → P β y → P γ (Attempt.both f x y)

namespace Partwise

variable (hP : Partwise P)
include hP

theorem pure (a : α) : P α (pure a) := hP.ofExcept (.ok a)

theorem throw (e : QueryError) : P α (throw e) := hP.ofExcept (.error e)

theorem map {x : Compiling σ α} (hx : P α x) (f : α → β) : P β (f <$> x) := by
  rw [map_eq_pure_bind]
  exact hP.bind hx fun _ => hP.pure _

theorem all {xs : List (Compiling σ α)} (h : ∀ x ∈ xs, P α x) : P (List α) (Attempt.all xs) := by
  induction xs with
  | nil => exact hP.pure []
  | cons x xs ih =>
    obtain ⟨hx, hxs⟩ := forall_mem_cons.mp h
    exact hP.both hx (ih hxs)

end Partwise

/-- A property that also holds of what compiling in a scope does besides storing constants. -/
structure OfSteps (c : Context σ) (scope : Scope) (P : (α : Type) → Compiling σ α → Prop) : Prop
    extends Partwise P where
  register : ∀ text b, P Unit (updateRegistry fun r => r.register text (.ofExpression b))
  groupedPath? : scope = .grouped → ∀ text, P _ (Compiling.groupedPath? text)
  aggregate : scope = .grouped → ∀ function arg distinct,
    P Bson (Expression.compileAggregate (Expression.aggregate function arg distinct).sql function distinct
      (arg.map (Expression.compile c .raw)) none)

end Compiling

namespace Expression

open Compiling

/-- The test of a field that a predicate is computed into ahead of the match. -/
def computedTest (b : Bson) : Compiling σ Condition := do
  let name := "__m" ++ toString (← get).helperFields.length
  modify fun d => { d with helperFields := d.helperFields ++ [(name, b)] }
  return .comparison (some name) .eq (.boolean true)

variable {es : List Expression}

section Compile

variable (hP : OfSteps c scope P)
include hP

theorem partwise_orGrouped {text : String} {x : Compiling σ Bson} (hx : P Bson x) :
    P Bson (orGrouped scope text x) := by
  cases scope with
  | raw => exact hx
  | grouped =>
    refine hP.bind (hP.groupedPath? rfl _) fun path => ?_
    cases path with
    | some path => exact hP.pure _
    | none => exact hx

theorem partwise_compileLiteral {v : Value} (hv : P Bson (c.store v)) : P Bson (compileLiteral c v) := by
  refine hP.bind hv fun b => ?_
  split
  · split
    · exact hP.ofExcept _
    · exact hP.pure _
  · exact hP.pure _

theorem partwise_compileAll (h : ∀ e ∈ es, P Bson (e.compile c scope)) : P _ (compileAll c scope es) := by
  induction es with
  | nil => exact hP.pure _
  | cons e es ih =>
    obtain ⟨he, hes⟩ := forall_mem_cons.mp h
    exact hP.both he (ih hes)

theorem partwise_compile (e : Expression) (h : ∀ v, .literal v ∈ e.parts → P Bson (c.store v)) :
    P Bson (e.compile c scope) := by
  induction e using induction_inner with
  | step e ih =>
    replace ih : ∀ x ∈ e.inner, P Bson (x.compile c scope) := fun x hx =>
      ih x hx fun v hv => h v (mem_parts.mpr (.inr ⟨x, hx, hv⟩))
    cases e with
    | column ref =>
      refine partwise_orGrouped hP ?_
      cases scope with
      | raw => exact hP.bind (hP.ofExcept _) fun _ => hP.bind (hP.register _ _) fun _ => hP.pure _
      | grouped => exact hP.throw _
    | literal v => exact partwise_orGrouped hP (partwise_compileLiteral hP (h v (self_mem_parts _)))
    | comparison op left right =>
      exact partwise_orGrouped hP (hP.bind (hP.both (ih left (by simp [inner])) (ih right (by simp [inner])))
        fun _ => hP.pure _)
    | and terms | or terms => exact partwise_orGrouped hP (hP.bind (partwise_compileAll hP ih) fun _ => hP.pure _)
    | not term | isNull term negated =>
      exact partwise_orGrouped hP (hP.bind (ih term (by simp [inner])) fun _ => hP.pure _)
    | isIn input list negated =>
      obtain ⟨hinput, hlist⟩ := forall_mem_cons.mp ih
      exact partwise_orGrouped hP (hP.bind hinput fun _ => hP.bind (partwise_compileAll hP hlist) fun _ => hP.pure _)
    | like input pattern escape negated =>
      exact partwise_orGrouped hP (hP.bind (hP.ofExcept _) fun _ =>
        hP.bind (ih input (by simp [inner])) fun _ => hP.pure _)
    | call name args =>
      exact partwise_orGrouped hP (hP.bind (hP.ofExcept _) fun _ =>
        hP.bind (partwise_compileAll hP ih) fun _ => hP.ofExcept _)
    | aggregate function arg distinct =>
      cases scope with
      | raw => cases arg <;> exact hP.throw _
      | grouped => cases arg <;> exact hP.aggregate rfl function _ distinct

end Compile

section Filter

variable (hP : OfSteps c scope P)
include hP

variable {e : Expression}

theorem partwise_field? (he : P Bson (e.compile c scope)) : P _ (field? c scope e) := by
  cases e with
  | column ref =>
    cases scope with
    | raw =>
      refine hP.bind he fun b => ?_
      split <;> exact hP.pure _
    | grouped => exact hP.groupedPath? rfl _
  | aggregate function arg distinct =>
    cases scope with
    | raw => exact hP.pure _
    | grouped => exact hP.bind (hP.aggregate rfl function arg distinct) fun _ => hP.groupedPath? rfl _
  | _ =>
    cases scope with
    | raw => exact hP.pure _
    | grouped => exact hP.groupedPath? rfl _

theorem partwise_constant? (h : ∀ v, .literal v ∈ e.parts → P Bson (c.store v)) : P _ (constant? c e) := by
  cases e with
  | literal v => exact hP.map (h v (self_mem_parts _)) some
  | _ => exact hP.pure _

theorem partwise_constants? (h : ∀ v, .literal v ∈ partsOf es → P Bson (c.store v)) : P _ (constants? c es) := by
  induction es with
  | nil => exact hP.pure _
  | cons e es ih =>
    refine hP.bind (partwise_constant? hP fun v hv => h v (mem_append_left _ hv)) fun b => ?_
    cases b with
    | none => exact hP.pure _
    | some b =>
      refine hP.bind (ih fun v hv => h v (mem_append_right _ hv)) fun bs => ?_
      cases bs <;> exact hP.pure _

section Computed

variable (hcomputed : scope = .raw → c.mode = .pipeline → ∀ b, P _ (computedTest b))
include hcomputed

theorem partwise_computedFilter (he : P Bson (e.compile c scope)) : P _ (computedFilter c scope e) := by
  cases scope with
  | grouped => exact hP.bind he fun _ => hP.pure _
  | raw =>
    cases hmode : c.mode with
    | pipeline =>
      simp only [computedFilter, hmode]
      exact hP.bind he (hcomputed rfl hmode)
    | standalone =>
      simp only [computedFilter, hmode]
      exact hP.bind he fun _ => hP.pure _
    | element =>
      simp only [computedFilter, hmode]
      exact hP.throw _

theorem partwise_fieldOr {input : Expression} {q : String → Condition} (hinput : P Bson (input.compile c scope))
    (he : P Bson (e.compile c scope)) :
    P _ (do
      match ← field? c scope input with
      | some field => return q field
      | none => computedFilter c scope e) := by
  refine hP.bind (partwise_field? hP hinput) fun field => ?_
  cases field with
  | some field => exact hP.pure _
  | none => exact partwise_computedFilter hP hcomputed he

end Computed

end Filter

mutual

theorem partwise_filter (hP : OfSteps c scope P)
    (hcomputed : scope = .raw → c.mode = .pipeline → ∀ b, P _ (computedTest b)) (e : Expression)
    (h : ∀ v, .literal v ∈ e.parts → P Bson (c.store v)) : P _ (e.filter c scope) := by
  have he := partwise_compile hP e h
  have hinner {x : Expression} (hx : x ∈ e.inner) : ∀ v, .literal v ∈ x.parts → P Bson (c.store v) :=
    fun v hv => h v (mem_parts.mpr (.inr ⟨x, hx, hv⟩))
  cases e with
  | and terms | or terms =>
    exact hP.bind (partwise_filters hP hcomputed terms fun v hv => h v (mem_cons_of_mem _ hv)) fun _ => hP.pure _
  | not term =>
    cases term with
    | not e =>
      rw [filter]
      exact partwise_filter hP hcomputed e fun v hv => h v (mem_cons_of_mem _ (mem_cons_of_mem _ hv))
    | _ => exact hP.bind (partwise_filter hP hcomputed _ (hinner (mem_singleton_self _))) fun _ => hP.pure _
  | comparison op left right =>
    have hleft := hinner (mem_cons_self ..)
    have hright := hinner (mem_cons_of_mem _ (mem_singleton_self right))
    refine hP.bind (partwise_field? hP (partwise_compile hP left hleft)) fun input =>
      hP.bind (partwise_constant? hP hright) fun arg => ?_
    split
    · exact hP.pure _
    · refine hP.bind (partwise_constant? hP hleft) fun arg =>
        hP.bind (partwise_field? hP (partwise_compile hP right hright)) fun input => ?_
      split
      · exact hP.pure _
      · exact partwise_computedFilter hP hcomputed he
  | isIn input list negated =>
    refine hP.bind (partwise_constants? hP fun v hv => h v (mem_cons_of_mem _ (mem_append_right _ hv)))
      fun args => hP.bind (partwise_field? hP (partwise_compile hP _ (hinner (mem_cons_self ..)))) fun field => ?_
    split
    · exact hP.pure _
    · exact partwise_computedFilter hP hcomputed he
  | isNull input negated =>
    exact partwise_fieldOr hP hcomputed (partwise_compile hP _ (hinner (mem_singleton_self _))) he
  | like input pattern escape negated =>
    refine hP.bind (hP.ofExcept _) fun text => ?_
    cases input with
    | column ref =>
      refine hP.bind (hP.ofExcept _) fun column => ?_
      split
      · exact hP.throw _
      · exact partwise_fieldOr hP hcomputed (partwise_compile hP _ (hinner (mem_cons_self ..))) he
    | _ => exact partwise_fieldOr hP hcomputed (partwise_compile hP _ (hinner (mem_cons_self ..))) he
  | column ref => exact partwise_fieldOr hP hcomputed he he
  | literal v | call name args | aggregate function arg distinct => exact partwise_computedFilter hP hcomputed he

theorem partwise_filters (hP : OfSteps c scope P)
    (hcomputed : scope = .raw → c.mode = .pipeline → ∀ b, P _ (computedTest b)) (es : List Expression)
    (h : ∀ v, .literal v ∈ partsOf es → P Bson (c.store v)) : P _ (filters c scope es) := by
  cases es with
  | nil => exact hP.pure _
  | cons e es =>
    exact hP.both (partwise_filter hP hcomputed e fun v hv => h v (mem_append_left _ hv))
      (partwise_filters hP hcomputed es fun v hv => h v (mem_append_right _ hv))

end

end Expression

end Pushdown
