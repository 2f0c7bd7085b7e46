import Pushdown.Sql.Expression

/-!
# The parts of an expression

`parts`: an expression and all expressions that it is made of, at any depth. `inner`: those that it is made of
directly.
-/

namespace Pushdown.Expression

open List

mutual

def parts : Expression → List Expression
  | .column ref => [.column ref]
  | .literal value => [.literal value]
  | .comparison op left right => .comparison op left right :: (parts left ++ parts right)
  | .and terms => .and terms :: partsOf terms
  | .or terms => .or terms :: partsOf terms
  | .not term => .not term :: parts term
  | .isIn input list negated => .isIn input list negated :: (parts input ++ partsOf list)
  | .isNull input negated => .isNull input negated :: parts input
  | .like input pattern escape negated => .like input pattern escape negated :: (parts input ++ parts pattern)
  | .call name args => .call name args :: partsOf args
  | .aggregate function none distinct => [.aggregate function none distinct]
  | .aggregate function (some arg) distinct => .aggregate function (some arg) distinct :: parts arg

def partsOf : List Expression → List Expression
  | [] => []
  | e :: es => parts e ++ partsOf es

end

theorem self_mem_parts (e : Expression) : e ∈ e.parts := by
  cases e with
  | aggregate function arg distinct => cases arg <;> simp [parts]
  | _ => simp [parts]

def inner : Expression → List Expression
  | .column _ | .literal _ => []
  | .comparison _ left right => [left, right]
  | .and terms | .or terms => terms
  | .not term => [term]
  | .isIn input list _ => input :: list
  | .isNull input _ => [input]
  | .like input pattern _ _ => [input, pattern]
  | .call _ args => args
  | .aggregate _ arg _ => arg.toList

def isAggregate : Expression → Bool
  | .aggregate .. => true
  | _ => false

variable {e a : Expression} {es : List Expression} {P : Expression → Prop}

theorem sizeOf_lt_of_mem_inner {e' : Expression} (h : e' ∈ e.inner) : sizeOf e' < sizeOf e := by
  have hlist {es : List Expression} : e' ∈ es → sizeOf e' < sizeOf es := sizeOf_lt_of_mem
  cases e with
  | column ref | literal value => cases h
  | _ =>
    simp only [inner, mem_cons, not_mem_nil, Option.mem_toList, or_false] at h
    grind

theorem induction_inner {P : Expression → Prop} (step : ∀ e : Expression, (∀ e' ∈ e.inner, P e') → P e)
    (e : Expression) : P e :=
  step e fun e' _ => induction_inner step e'
termination_by sizeOf e
decreasing_by exact sizeOf_lt_of_mem_inner ‹_›

theorem mem_partsOf : a ∈ partsOf es ↔ ∃ e ∈ es, a ∈ e.parts := by
  induction es with
  | nil => simp [partsOf]
  | cons e es ih => simp [partsOf, ih]

theorem mem_parts : a ∈ e.parts ↔ a = e ∨ ∃ e' ∈ e.inner, a ∈ e'.parts := by
  cases e with
  | aggregate function arg distinct => cases arg <;> simp [parts, inner]
  | _ => simp [parts, inner, mem_partsOf]

theorem mem_columns {ref : ColumnRef} : ref ∈ e.columns ↔ e = .column ref ∨ ∃ e' ∈ e.inner, ref ∈ e'.columns := by
  have hlist (es : List Expression) : ref ∈ columnsOf es ↔ ∃ e ∈ es, ref ∈ e.columns := by
    induction es with
    | nil => simp [columnsOf]
    | cons e es ih => simp [columnsOf, ih]
  cases e with
  | aggregate function arg distinct => cases arg <;> simp [columns, inner]
  | _ => simp [columns, inner, hlist, eq_comm]

theorem mem_conjunctsOf : a ∈ conjunctsOf es ↔ ∃ e ∈ es, a ∈ e.conjuncts := by
  induction es with
  | nil => simp [conjunctsOf]
  | cons e es ih => simp [conjunctsOf, ih]

theorem of_conjuncts (hand : ∀ terms, (∀ e ∈ terms, P e) → P (.and terms)) (e : Expression)
    (h : ∀ term ∈ e.conjuncts, P term) : P e := by
  induction e using induction_inner with
  | step e ih =>
    cases e with
    | and terms => exact hand terms fun e he => ih e he fun term ht => h term (mem_conjunctsOf.mpr ⟨e, he, ht⟩)
    | _ => exact h _ (mem_singleton_self _)

theorem forall_conjuncts (hand : ∀ terms, P (.and terms) → ∀ e ∈ terms, P e) (e : Expression) (h : P e) :
    ∀ term ∈ e.conjuncts, P term := by
  induction e using induction_inner with
  | step e ih =>
    cases e with
    | and terms =>
      intro term ht
      obtain ⟨e, he, ht⟩ := mem_conjunctsOf.mp ht
      exact ih e he (hand terms h e he) term ht
    | _ => exact forall_mem_singleton.mpr h

end Pushdown.Expression
