import Mathlib.Logic.Relation
import Pushdown.Proofs.Traces

/-!
# Compiling in steps

`Step`: the state of the store of large objects changes, a value is met, or an aggregate is to be computed.
Compiling an expression is made of these (`steps_compile`). What is found in a group stays where it is
(`Steps.groupedPath?`), and without aggregates nothing is added to a group (`Steps.raw`).
-/

namespace Pushdown

namespace Draft

variable {σ : Type} {scope : Scope} {s s' : Draft σ}

/-- One change that compiling makes to a draft. -/
inductive Step (scope : Scope) : Draft σ → Draft σ → Prop where
  | store (s : Draft σ) (objects : σ) : Step scope s { s with objects }
  | register (s : Draft σ) (text : String) (b : Bson) :
      Step scope s { s with registry := s.registry.register text (.ofExpression b) }
  | accumulate (s : Draft σ) (text : String) (a : Accumulator) (hscope : scope = .grouped)
      (hnew : s.registry.groupedPath? text = none) :
      Step scope s (s.accumulated text a)

def Steps (scope : Scope) : Draft σ → Draft σ → Prop := Relation.ReflTransGen (Step scope)

theorem Steps.refl (s : Draft σ) : s.Steps scope s := Relation.ReflTransGen.refl

theorem Steps.trans {s₁ s₂ s₃ : Draft σ} (h : s₁.Steps scope s₂) (h' : s₂.Steps scope s₃) :
    s₁.Steps scope s₃ := Relation.ReflTransGen.trans h h'

theorem Steps.of_step (h : Step scope s s') : s.Steps scope s' := Relation.ReflTransGen.single h

theorem Step.raw (h : Step .raw s s') :
    s'.accumulators = s.accumulators ∧ ∀ text, s'.registry.groupedPath? text = s.registry.groupedPath? text := by
  cases h with
  | store objects => exact ⟨rfl, fun _ => rfl⟩
  | register text b => exact ⟨rfl, fun t => Registry.groupedPath?_register rfl t⟩
  | accumulate text a hscope _ => cases hscope

theorem Steps.raw (h : s.Steps .raw s') :
    s'.accumulators = s.accumulators ∧ ∀ text, s'.registry.groupedPath? text = s.registry.groupedPath? text := by
  induction h with
  | refl => exact ⟨rfl, fun _ => rfl⟩
  | tail _ step ih => exact ⟨step.raw.1.trans ih.1, fun text => (step.raw.2 text).trans (ih.2 text)⟩

theorem Step.keeps (h : Step scope s s') : s.Keeps s' := by
  cases h with
  | store objects => exact isTrace_keeps.store s objects
  | register text b => exact isTrace_keeps.register s text b
  | accumulate text a _ hnew => exact keeps_accumulated hnew a

theorem Steps.groupedPath? (h : s.Steps scope s') {text path : String}
    (hpath : s.registry.groupedPath? text = some path) : s'.registry.groupedPath? text = some path := by
  induction h with
  | refl => exact hpath
  | tail _ step ih => exact step.keeps.groupedPath? ih

theorem isTrace_steps (scope : Scope) : IsTrace (Steps (σ := σ) scope) where
  refl := .refl
  trans := .trans
  store s objects := .of_step (.store s objects)
  register s text b := .of_step (.register s text b)

theorem accumulates_steps (c : Context σ) (wanted : Option String) :
    Expression.Accumulates c wanted (Steps (σ := σ) .grouped) :=
  fun s text a hnew _ _ => .of_step (.accumulate s text a rfl hnew)

end Draft

namespace Expression

open Compiling

variable {σ : Type} {c : Context σ} {scope : Scope}

theorem steps_compile (scope : Scope) (e : Expression) : Traces (Draft.Steps scope) (e.compile c scope) :=
  traces_compile (Draft.isTrace_steps scope) scope (fun h => h ▸ Draft.accumulates_steps c none) e

theorem steps_compileAll (scope : Scope) (es : List Expression) : Traces (Draft.Steps scope) (compileAll c scope es) :=
  traces_compileAll (Draft.isTrace_steps scope) scope (fun h => h ▸ Draft.accumulates_steps c none) es

theorem isFilterTrace_steps (c : Context σ) : IsFilterTrace c .grouped (Draft.Steps .grouped) where
  toIsTrace := Draft.isTrace_steps .grouped
  accumulate _ := Draft.accumulates_steps c none
  compute h := by cases h

end Expression

end Pushdown
