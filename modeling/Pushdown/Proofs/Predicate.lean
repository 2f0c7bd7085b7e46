import Mathlib.Data.List.Forall2
import Pushdown.Proofs.Negation
import Pushdown.Proofs.Parts
import Pushdown.Write.Evaluation

/-!
# Predicates and their tests

A predicate is built by conjunction, disjunction and negation from `tests`. Its truth value is built from those of
its tests by three-valued logic (`truthBy`), and so is the decision that a condition makes on a document from the
decisions of its parts (`Decides.negate`).
-/

namespace Pushdown

open List Bson

namespace Expression

mutual

def tests : Expression → List Expression
  | .and terms => testsOf terms
  | .or terms => testsOf terms
  | .not term => tests term
  | e => [e]

def testsOf : List Expression → List Expression
  | [] => []
  | e :: es => tests e ++ testsOf es

end

/-- Whether an expression is a test, that is, not built from others by logic. -/
def isTest : Expression → Bool
  | .and _ | .or _ | .not _ => false
  | _ => true

variable {t e : Expression}

theorem mem_testsOf {es : List Expression} : t ∈ testsOf es ↔ ∃ e ∈ es, t ∈ e.tests := by
  induction es with
  | nil => simp [testsOf]
  | cons e es ih => simp [testsOf, ih]

theorem tests_of_isTest (h : e.isTest) : e.tests = [e] := by
  cases e <;> first | rfl | cases h

theorem mem_tests (h : e.isTest = false) : t ∈ e.tests ↔ ∃ e' ∈ e.inner, t ∈ e'.tests := by
  cases e with
  | and terms | or terms | not term => simp [tests, inner, mem_testsOf]
  | _ => cases h

theorem isTest_of_mem_tests (e : Expression) : ∀ t ∈ e.tests, t.isTest := by
  induction e using induction_inner with
  | step e ih =>
    intro t ht
    cases he : e.isTest with
    | true =>
      rw [tests_of_isTest he, mem_singleton] at ht
      rwa [ht]
    | false =>
      obtain ⟨e', he', ht⟩ := (mem_tests he).mp ht
      exact ih e' he' t ht

theorem mem_columns_tests {ref : ColumnRef} : ref ∈ e.columns ↔ ∃ t ∈ e.tests, ref ∈ t.columns := by
  induction e using induction_inner with
  | step e ih =>
    cases he : e.isTest with
    | true => simp [tests_of_isTest he]
    | false =>
      have hcolumn : e ≠ .column ref := by
        rintro rfl
        cases he
      rw [mem_columns]
      simp only [mem_tests he, hcolumn, false_or]
      grind

mutual

def truthBy (truth : Expression → Option Bool) : Expression → Option Bool
  | .and terms => Truth.all (truthsBy truth terms)
  | .or terms => Truth.any (truthsBy truth terms)
  | .not term => (truthBy truth term).map (!·)
  | e => truth e

def truthsBy (truth : Expression → Option Bool) : List Expression → List (Option Bool)
  | [] => []
  | e :: es => truthBy truth e :: truthsBy truth es

end

theorem truthBy_of_isTest (h : t.isTest) (truth : Expression → Option Bool) : t.truthBy truth = truth t := by
  cases t <;> first | rfl | cases h

mutual

theorem all_conjuncts (truth : Expression → Option Bool) (e : Expression) :
    (e.conjuncts.all fun e => e.truthBy truth == some true) = (e.truthBy truth == some true) := by
  cases e with
  | and terms =>
    rw [conjuncts, truthBy, Truth.all_eq_true]
    exact all_conjunctsOf truth terms
  | _ => exact Bool.and_true _

theorem all_conjunctsOf (truth : Expression → Option Bool) (es : List Expression) :
    ((conjunctsOf es).all fun e => e.truthBy truth == some true) = (truthsBy truth es).all (· == some true) := by
  cases es with
  | nil => rfl
  | cons e es =>
    rw [conjunctsOf, all_append, all_conjuncts truth e, all_conjunctsOf truth es, truthsBy, all_cons]

end

mutual

theorem tests_conjuncts (e : Expression) : e.conjuncts.flatMap tests = e.tests := by
  cases e with
  | and terms => exact tests_conjunctsOf terms
  | _ => exact append_nil _

theorem tests_conjunctsOf (es : List Expression) : (conjunctsOf es).flatMap tests = testsOf es := by
  cases es with
  | nil => rfl
  | cons e es =>
    rw [conjunctsOf, flatMap_append, tests_conjuncts e, tests_conjunctsOf es, testsOf]

end

mutual

def mapTests (f : Expression → Expression) : Expression → Expression
  | .and terms => .and (mapTestsOf f terms)
  | .or terms => .or (mapTestsOf f terms)
  | .not term => .not (mapTests f term)
  | e => f e

def mapTestsOf (f : Expression → Expression) : List Expression → List Expression
  | [] => []
  | e :: es => mapTests f e :: mapTestsOf f es

end

mutual

theorem mapTests_eq_self {f : Expression → Expression} (e : Expression)
    (h : ∀ t ∈ e.tests, f t = t) : e.mapTests f = e := by
  cases e with
  | and terms | or terms => rw [mapTests, mapTestsOf_eq_self terms h]
  | not term => rw [mapTests, mapTests_eq_self term h]
  | _ => exact h _ (mem_singleton.mpr rfl)

theorem mapTestsOf_eq_self {f : Expression → Expression} (es : List Expression)
    (h : ∀ t ∈ testsOf es, f t = t) : mapTestsOf f es = es := by
  cases es with
  | nil => rfl
  | cons e es =>
    rw [mapTestsOf, mapTests_eq_self e fun t ht => h t (mem_append_left _ ht),
      mapTestsOf_eq_self es fun t ht => h t (mem_append_right _ ht)]

end

def HasTruth (column : ColumnRef → Except WriteError Value) (e : Expression) (t : Option Bool) : Prop :=
  ∃ v, e.evaluate column = .ok v ∧ v.truth? = t

/-- The truth value of an expression; none also where it cannot be evaluated. -/
def truthOf (column : ColumnRef → Except WriteError Value) (e : Expression) : Option Bool :=
  match e.evaluate column with
  | .ok v => v.truth?
  | .error _ => none

section Evaluation

variable {column : ColumnRef → Except WriteError Value} {ts : List (Option Bool)} {es : List Expression}
  {t : Option Bool}

theorem truthOf_of_hasTruth (h : HasTruth column e t) : e.truthOf column = t := by
  obtain ⟨v, hv, rfl⟩ := h
  rw [truthOf, hv]

theorem truth?_ofTruth (t : Option Bool) : (Value.ofTruth t).truth? = t := by cases t <;> rfl

theorem accepts_of_hasTruth (h : HasTruth column e t) : e.accepts column = .ok (t == some true) := by
  obtain ⟨v, hv, rfl⟩ := h
  rw [accepts, hv]
  rfl

section

variable (h : List.Forall₂ (HasTruth column) es ts)

include h

theorem evaluateAnd_eq : evaluateAnd column es = .ok (Truth.all ts) := by
  induction h with
  | nil => rfl
  | @cons e t es ts he hes ih =>
    obtain ⟨v, hv, rfl⟩ := he
    have hcons : Truth.all (v.truth? :: ts) = Truth.and v.truth? (Truth.all ts) := rfl
    rw [evaluateAnd, hv, ih, hcons]
    simp only [bind, Except.bind]
    rcases v.truth? with _ | _ | _ <;> rcases Truth.all ts with _ | _ | _ <;> rfl

theorem evaluateOr_eq : evaluateOr column es = .ok (Truth.any ts) := by
  induction h with
  | nil => rfl
  | @cons e t es ts he hes ih =>
    obtain ⟨v, hv, rfl⟩ := he
    have hcons : Truth.any (v.truth? :: ts) = Truth.or v.truth? (Truth.any ts) := rfl
    rw [evaluateOr, hv, ih, hcons]
    simp only [bind, Except.bind]
    rcases v.truth? with _ | _ | _ <;> rcases Truth.any ts with _ | _ | _ <;> rfl

theorem hasTruth_and : HasTruth column (.and es) (Truth.all ts) :=
  ⟨.ofTruth (Truth.all ts), by rw [evaluate, evaluateAnd_eq h]; rfl, truth?_ofTruth _⟩

theorem hasTruth_or : HasTruth column (.or es) (Truth.any ts) :=
  ⟨.ofTruth (Truth.any ts), by rw [evaluate, evaluateOr_eq h]; rfl, truth?_ofTruth _⟩

end

theorem hasTruth_not (h : HasTruth column e t) : HasTruth column (.not e) (t.map (!·)) := by
  obtain ⟨v, hv, rfl⟩ := h
  exact ⟨.ofTruth (v.truth?.map (!·)), by rw [evaluate, hv]; rfl, truth?_ofTruth _⟩

mutual

theorem hasTruth_mapTests {f : Expression → Expression} {truth : Expression → Option Bool}
    (e : Expression) (h : ∀ t ∈ e.tests, HasTruth column (f t) (truth t)) :
    HasTruth column (e.mapTests f) (e.truthBy truth) := by
  cases e with
  | and terms => exact hasTruth_and (hasTruths_mapTestsOf terms h)
  | or terms => exact hasTruth_or (hasTruths_mapTestsOf terms h)
  | not term => exact hasTruth_not (hasTruth_mapTests term h)
  | _ => exact h _ (mem_singleton.mpr rfl)

theorem hasTruths_mapTestsOf {f : Expression → Expression} {truth : Expression → Option Bool}
    (es : List Expression) (h : ∀ t ∈ testsOf es, HasTruth column (f t) (truth t)) :
    List.Forall₂ (HasTruth column) (mapTestsOf f es) (truthsBy truth es) := by
  cases es with
  | nil => exact .nil
  | cons e es =>
    exact .cons (hasTruth_mapTests e fun t ht => h t (mem_append_left _ ht))
      (hasTruths_mapTestsOf es fun t ht => h t (mem_append_right _ ht))

end

end Evaluation

end Expression

namespace Condition

variable {search : Search} {d : Document}

theorem accepts_expr (e : Bson) : (Condition.expr e).accepts search d = isTruthy (compute? (.document d) e) := by
  rw [accepts, toDocument, satisfies_cons, satisfies_nil, Bool.and_true]
  cases e <;> rfl

theorem decides_expr (e : Bson) : Decides search d (.expr e) (some (isTruthy (compute? (.document d) e))) where
  yes := by
    rw [accepts_expr]
    cases isTruthy (compute? (.document d) e) <;> rfl
  no := by
    have hnot : Bson.isTruthy (Bson.compute? (.document d) (.opList "$not" [e])) =
        !isTruthy (compute? (.document d) e) := rfl
    rw [negate, accepts_expr, hnot]
    cases isTruthy (compute? (.document d) e) <;> rfl

mutual

/-- Whether a condition is built by conjunction and disjunction from tests and computed
conditions. -/
def isTested : Condition → Bool
  | .and terms => allTested terms
  | .or terms => allTested terms
  | .nor _ => false
  | .elemMatch .. => false
  | _ => true

def allTested : List Condition → Bool
  | [] => true
  | q :: qs => isTested q && allTested qs

end

mutual

theorem isTested_negate (q : Condition) (h : q.isTested) : q.negate.isTested := by
  cases q with
  | and terms | or terms => exact allTested_negateAll terms h
  | nor terms | elemMatch field q => cases h
  | _ => rfl

theorem allTested_negateAll (qs : List Condition) (h : allTested qs) : allTested (negateAll qs) := by
  cases qs with
  | nil => rfl
  | cons q qs =>
    obtain ⟨hq, hqs⟩ := Bool.and_eq_true_iff.mp h
    rw [negateAll, allTested, isTested_negate q hq, allTested_negateAll qs hqs]
    rfl

end

mutual

theorem accepts_negate_negate (q : Condition) (h : q.isTested) :
    q.negate.negate.accepts search d = q.accepts search d := by
  cases q with
  | and terms =>
    rw [negate, negate, accepts_and, accepts_and, (all_negateAll_negateAll terms h).1]
  | or terms => rw [negate, negate, accepts_or, accepts_or, (all_negateAll_negateAll terms h).2]
  | nor terms | elemMatch field q => cases h
  | comparison field op arg => rw [negate, negate, MatchOp.negate_negate]
  | isIn field args negated | regex field pattern options negated =>
    rw [negate, negate, Bool.not_not]
  | expr e =>
    rw [negate, negate, accepts_expr, accepts_expr]
    show (!!isTruthy (compute? (.document d) e)) = _
    rw [Bool.not_not]

theorem all_negateAll_negateAll (qs : List Condition) (h : allTested qs) :
    ((negateAll (negateAll qs)).all fun q => q.accepts search d) = (qs.all fun q => q.accepts search d) ∧
      ((negateAll (negateAll qs)).any fun q => q.accepts search d) = (qs.any fun q => q.accepts search d) := by
  cases qs with
  | nil => exact ⟨rfl, rfl⟩
  | cons q qs =>
    obtain ⟨hq, hqs⟩ := Bool.and_eq_true_iff.mp h
    obtain ⟨hall, hany⟩ := all_negateAll_negateAll qs hqs
    rw [negateAll, negateAll, all_cons, all_cons, any_cons, any_cons, hall, hany, accepts_negate_negate q hq]
    exact ⟨rfl, rfl⟩

end

theorem Decides.negate {q : Condition} {t : Option Bool} (h : Decides search d q t)
    (hq : q.isTested) : Decides search d q.negate (t.map (!·)) where
  yes := by rw [h.no, map_not_eq]
  no := by
    rw [accepts_negate_negate q hq, h.yes]
    rcases t with _ | _ | _ <;> rfl

end Condition

end Pushdown
