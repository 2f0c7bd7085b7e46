import Mathlib.Logic.Relation
import Pushdown.Proofs.Predicate

/-!
# Rewritten predicates

`Rewrites`: a predicate can be rewritten by taking nested conjunctions apart, by removing double negations, and by
moving a negation inwards, down to a test that can be turned into its opposite (`oppositeTest?`).
`outcome_of_rewrites`: it is evaluated as before, though terms are evaluated from left to right, no further than
needed (`conj`, `disj`), and any of them may fail. `pushed` is rewritten as far as it goes.
-/

namespace Pushdown

open List Truth

namespace Truth

variable {ε : Type}

/-- Conjunction from left to right. The second truth value is not asked for when the first is false. -/
def conj (x y : Except ε (Option Bool)) : Except ε (Option Bool) := do
  let t ← x
  if t = some false then return t else Truth.and t <$> y

/-- Disjunction from left to right. The second truth value is not asked for when the first is true. -/
def disj (x y : Except ε (Option Bool)) : Except ε (Option Bool) := do
  let t ← x
  if t = some true then return t else Truth.or t <$> y

def opposite (x : Except ε (Option Bool)) : Except ε (Option Bool) := Option.map (!·) <$> x

variable (x y z : Except ε (Option Bool))

theorem opposite_opposite : opposite (opposite x) = x := by
  rcases x with _ | _ | _ | _ <;> rfl

theorem opposite_conj : opposite (conj x y) = disj (opposite x) (opposite y) := by
  rcases x with _ | _ | _ | _ <;> rcases y with _ | _ | _ | _ <;> rfl

theorem opposite_disj : opposite (disj x y) = conj (opposite x) (opposite y) := by
  rcases x with _ | _ | _ | _ <;> rcases y with _ | _ | _ | _ <;> rfl

theorem conj_true : conj x (.ok (some true)) = x := by
  rcases x with _ | _ | _ | _ <;> rfl

theorem conj_assoc : conj (conj x y) z = conj x (conj y z) := by
  rcases x with _ | _ | _ | _ <;> rcases y with _ | _ | _ | _ <;> rcases z with _ | _ | _ | _ <;> rfl

end Truth

namespace Expression

/-- The truth value of an expression, or the reason why it cannot be evaluated. -/
def outcome (column : ColumnRef → Except WriteError Value) (e : Expression) : Except WriteError (Option Bool) :=
  Value.truth? <$> e.evaluate column

section Outcome

variable {column : ColumnRef → Except WriteError Value}

theorem truth?_map_ofTruth (x : Except WriteError (Option Bool)) :
    Value.truth? <$> (do return .ofTruth (← x)) = x := by
  cases x with
  | error e => rfl
  | ok t => exact congrArg Except.ok (truth?_ofTruth t)

theorem outcome_and (es : List Expression) : (Expression.and es).outcome column = evaluateAnd column es := by
  rw [outcome, evaluate]
  exact truth?_map_ofTruth _

theorem outcome_or (es : List Expression) : (Expression.or es).outcome column = evaluateOr column es := by
  rw [outcome, evaluate]
  exact truth?_map_ofTruth _

theorem outcome_not (e : Expression) : e.not.outcome column = opposite (e.outcome column) := by
  rw [outcome, evaluate, outcome, opposite]
  cases e.evaluate column with
  | error e => rfl
  | ok v => exact congrArg Except.ok (truth?_ofTruth _)

theorem evaluateAnd_cons (e : Expression) (es : List Expression) :
    evaluateAnd column (e :: es) = conj (e.outcome column) (evaluateAnd column es) := by
  rw [evaluateAnd, outcome]
  cases e.evaluate column with
  | error e => rfl
  | ok v =>
    simp only [bind, Except.bind, conj, Functor.map, Except.map]
    rcases v.truth? with _ | _ | _ <;> rcases evaluateAnd column es with _ | _ | _ | _ <;> rfl

theorem evaluateOr_cons (e : Expression) (es : List Expression) :
    evaluateOr column (e :: es) = disj (e.outcome column) (evaluateOr column es) := by
  rw [evaluateOr, outcome]
  cases e.evaluate column with
  | error e => rfl
  | ok v =>
    simp only [bind, Except.bind, disj, Functor.map, Except.map]
    rcases v.truth? with _ | _ | _ <;> rcases evaluateOr column es with _ | _ | _ | _ <;> rfl

theorem evaluateAnd_append (es es' : List Expression) :
    evaluateAnd column (es ++ es') = conj (evaluateAnd column es) (evaluateAnd column es') := by
  induction es with
  | nil =>
    rw [evaluateAnd, nil_append]
    rcases evaluateAnd column es' with _ | _ | _ | _ <;> rfl
  | cons e es ih => rw [cons_append, evaluateAnd_cons, evaluateAnd_cons, ih, conj_assoc]

mutual

theorem evaluateAnd_conjuncts (e : Expression) : evaluateAnd column e.conjuncts = e.outcome column := by
  cases e with
  | and terms => rw [conjuncts, evaluateAnd_conjunctsOf terms, outcome_and]
  | _ => exact (evaluateAnd_cons _ []).trans (conj_true _)

theorem evaluateAnd_conjunctsOf (es : List Expression) :
    evaluateAnd column (conjunctsOf es) = evaluateAnd column es := by
  cases es with
  | nil => rfl
  | cons e es =>
    rw [conjunctsOf, evaluateAnd_append, evaluateAnd_conjuncts e, evaluateAnd_conjunctsOf es, evaluateAnd_cons]

end

theorem evaluateOr_map_not (es : List Expression) :
    evaluateOr column (es.map .not) = opposite (evaluateAnd column es) := by
  induction es with
  | nil => rfl
  | cons e es ih =>
    rw [map_cons, evaluateOr_cons, evaluateAnd_cons, ih, outcome_not, opposite_conj]

theorem evaluateAnd_map_not (es : List Expression) :
    evaluateAnd column (es.map .not) = opposite (evaluateOr column es) := by
  induction es with
  | nil => rfl
  | cons e es ih =>
    rw [map_cons, evaluateOr_cons, evaluateAnd_cons, ih, outcome_not, opposite_disj]

end Outcome

/-- The test that is true where the given one is false, and the other way round. Values have none. -/
def oppositeTest? : Expression → Option Expression
  | .comparison op left right => some (.comparison op.negate left right)
  | .isIn input list negated => some (.isIn input list !negated)
  | .isNull input negated => some (.isNull input !negated)
  | .like input pattern escape negated => some (.like input pattern escape !negated)
  | _ => none

section OppositeTests

variable {column : ColumnRef → Except WriteError Value}

theorem truth?_evaluate (op : ComparisonOp) (l r : Value) : (op.evaluate l r).truth? = (l.compare? r).map op.holds :=
  truth?_ofTruth _

theorem outcome_comparison_negate (op : ComparisonOp) (left right : Expression) :
    (comparison op.negate left right).outcome column = opposite ((comparison op left right).outcome column) := by
  simp only [outcome, evaluate]
  cases left.evaluate column with
  | error e => rfl
  | ok l =>
    cases right.evaluate column with
    | error e => rfl
    | ok r =>
      refine congrArg Except.ok ?_
      rw [truth?_evaluate, truth?_evaluate, Option.map_map]
      exact congrArg (Option.map · _) (funext (op.holds_negate ·))

theorem outcome_isIn_not (input : Expression) (list : List Expression) (negated : Bool) :
    (isIn input list !negated).outcome column = opposite ((isIn input list negated).outcome column) := by
  simp only [outcome, evaluate]
  cases input.evaluate column with
  | error e => rfl
  | ok v =>
    simp only [bind, Except.bind]
    cases v.isNull with
    | true => rfl
    | false =>
      cases evaluateIn column v list with
      | error e => rfl
      | ok found => rcases found with _ | _ | _ <;> cases negated <;> rfl

theorem outcome_isNull_not (input : Expression) (negated : Bool) :
    (isNull input !negated).outcome column = opposite ((isNull input negated).outcome column) := by
  simp only [outcome, evaluate]
  cases input.evaluate column with
  | error e => rfl
  | ok v =>
    refine congrArg (Except.ok ∘ some) ?_
    cases v.isNull <;> cases negated <;> rfl

theorem outcome_like_not (input pattern : Expression) (escape : Option Char) (negated : Bool) :
    (like input pattern escape !negated).outcome column =
      opposite ((like input pattern escape negated).outcome column) := by
  simp only [outcome, evaluate]
  cases input.evaluate column with
  | error e => rfl
  | ok v =>
    simp only [bind, Except.bind]
    cases v.text? with
    | none => rfl
    | some text =>
      cases pattern.likePattern with
      | error e => rfl
      | ok pattern =>
        refine congrArg (Except.ok ∘ some) ?_
        cases (LikeRegex.ofPattern pattern escape).matchesIn text <;> cases negated <;> rfl

theorem outcome_oppositeTest {t t' : Expression} (h : t.oppositeTest? = some t') :
    t'.outcome column = opposite (t.outcome column) := by
  cases t <;> cases h
  · exact outcome_comparison_negate ..
  · exact outcome_isIn_not ..
  · exact outcome_isNull_not ..
  · exact outcome_like_not ..

end OppositeTests

/-- One rewriting of a predicate, at the top or below conjunctions, disjunctions and negations. -/
inductive Rewrites : Expression → Expression → Prop
  | conjuncts (e : Expression) : Rewrites e (.and e.conjuncts)
  | notNot (e : Expression) : Rewrites (.not (.not e)) e
  | notAnd (terms : List Expression) : Rewrites (.not (.and terms)) (.or (terms.map .not))
  | notOr (terms : List Expression) : Rewrites (.not (.or terms)) (.and (terms.map .not))
  | notTest {t t' : Expression} : t.oppositeTest? = some t' → Rewrites (.not t) t'
  | and (before after : List Expression) {e e' : Expression} : Rewrites e e' →
      Rewrites (.and (before ++ e :: after)) (.and (before ++ e' :: after))
  | or (before after : List Expression) {e e' : Expression} : Rewrites e e' →
      Rewrites (.or (before ++ e :: after)) (.or (before ++ e' :: after))
  | not {e e' : Expression} : Rewrites e e' → Rewrites (.not e) (.not e')

section Rewriting

variable {column : ColumnRef → Except WriteError Value} {e e' : Expression}

theorem evaluateAnd_replace (before after : List Expression) (h : e'.outcome column = e.outcome column) :
    evaluateAnd column (before ++ e' :: after) = evaluateAnd column (before ++ e :: after) := by
  rw [evaluateAnd_append, evaluateAnd_append, evaluateAnd_cons, evaluateAnd_cons, h]

theorem evaluateOr_replace (before after : List Expression) (h : e'.outcome column = e.outcome column) :
    evaluateOr column (before ++ e' :: after) = evaluateOr column (before ++ e :: after) := by
  induction before with
  | nil => rw [nil_append, nil_append, evaluateOr_cons, evaluateOr_cons, h]
  | cons first before ih => rw [cons_append, cons_append, evaluateOr_cons, evaluateOr_cons, ih]

theorem Rewrites.outcome_eq (h : Rewrites e e') : e'.outcome column = e.outcome column := by
  induction h with
  | conjuncts e => rw [outcome_and, evaluateAnd_conjuncts]
  | notNot e => rw [outcome_not, outcome_not, opposite_opposite]
  | notAnd terms => rw [outcome_or, outcome_not, outcome_and, evaluateOr_map_not]
  | notOr terms => rw [outcome_and, outcome_not, outcome_or, evaluateAnd_map_not]
  | notTest h => rw [outcome_not, outcome_oppositeTest h]
  | and before after _ ih => rw [outcome_and, outcome_and, evaluateAnd_replace before after ih]
  | or before after _ ih => rw [outcome_or, outcome_or, evaluateOr_replace before after ih]
  | not _ ih => rw [outcome_not, outcome_not, ih]

end Rewriting

open Relation

section Congruence

variable {terms terms' : List Expression}

theorem reflTransGen_terms {join : List Expression → Expression} (hjoin : ∀ before after {e e'}, Rewrites e e' →
      Rewrites (join (before ++ e :: after)) (join (before ++ e' :: after)))
    (before : List Expression) (h : List.Forall₂ (ReflTransGen Rewrites) terms terms') :
    ReflTransGen Rewrites (join (before ++ terms)) (join (before ++ terms')) := by
  induction h generalizing before with
  | nil => exact .refl
  | @cons e e' terms terms' he _ ih =>
    have hfirst : ReflTransGen Rewrites (join (before ++ e :: terms)) (join (before ++ e' :: terms)) :=
      he.lift (fun e => join (before ++ e :: terms)) fun _ _ => hjoin before terms
    have hrest := ih (before ++ [e'])
    rw [append_assoc, append_assoc] at hrest
    exact hfirst.trans hrest

theorem reflTransGen_and (h : List.Forall₂ (ReflTransGen Rewrites) terms terms') :
    ReflTransGen Rewrites (.and terms) (.and terms') :=
  reflTransGen_terms (fun before after _ _ => .and before after) [] h

theorem reflTransGen_or (h : List.Forall₂ (ReflTransGen Rewrites) terms terms') :
    ReflTransGen Rewrites (.or terms) (.or terms') :=
  reflTransGen_terms (fun before after _ _ => .or before after) [] h

end Congruence

mutual

/-- The predicate, or its negation, with negations moved inwards as far as they go and nested conjunctions
taken apart. -/
def pushed (negated : Bool) : Expression → Expression
  | .and terms =>
    if negated then .or (pushedAll negated terms) else .and (conjunctsOf (pushedAll negated terms))
  | .or terms =>
    if negated then .and (conjunctsOf (pushedAll negated terms)) else .or (pushedAll negated terms)
  | .not term => pushed (!negated) term
  | e => if negated then e.oppositeTest?.getD (.not e) else e

def pushedAll (negated : Bool) : List Expression → List Expression
  | [] => []
  | e :: es => pushed negated e :: pushedAll negated es

end

def isAnd : Expression → Bool
  | .and _ => true
  | _ => false

mutual

/-- Whether no conjunction is a term of another, and negations stand before nothing but values. -/
def isPushed : Expression → Bool
  | .and terms => allPushed terms && terms.all (!·.isAnd)
  | .or terms => allPushed terms
  | .not e => e.isTest && e.oppositeTest?.isNone
  | _ => true

def allPushed : List Expression → Bool
  | [] => true
  | e :: es => isPushed e && allPushed es

end

theorem rewrites_oppositeTest (e : Expression) : ReflTransGen Rewrites (.not e) (e.oppositeTest?.getD (.not e)) := by
  cases h : e.oppositeTest? with
  | none => exact .refl
  | some t => exact .single (.notTest h)

theorem allPushed_eq_all (es : List Expression) : allPushed es = es.all isPushed := by
  induction es with
  | nil => rfl
  | cons e es ih => rw [allPushed, all_cons, ih]

mutual

theorem rewrites_pushed (negated : Bool) (e : Expression) :
    ReflTransGen Rewrites (if negated then .not e else e) (e.pushed negated) := by
  cases e with
  | and terms =>
    have hterms := rewrites_pushedAll negated terms
    cases negated with
    | false => exact (reflTransGen_and hterms).tail (.conjuncts _)
    | true => exact (reflTransGen_or hterms).head (.notAnd terms)
  | or terms =>
    have hterms := rewrites_pushedAll negated terms
    cases negated with
    | false => exact reflTransGen_or hterms
    | true => exact ((reflTransGen_and hterms).head (.notOr terms)).tail (.conjuncts _)
  | not term =>
    have hterm := rewrites_pushed (!negated) term
    cases negated with
    | false => exact hterm
    | true => exact hterm.head (.notNot term)
  | _ =>
    cases negated with
    | false => exact .refl
    | true => exact rewrites_oppositeTest _

theorem rewrites_pushedAll (negated : Bool) (es : List Expression) :
    List.Forall₂ (ReflTransGen Rewrites) (if negated then es.map .not else es) (pushedAll negated es) := by
  cases es with
  | nil => cases negated <;> exact .nil
  | cons e es =>
    have he := rewrites_pushed negated e
    have hes := rewrites_pushedAll negated es
    cases negated <;> exact .cons he hes

end

mutual

theorem pushed_conjuncts (e : Expression) (h : e.isPushed) :
    e.conjuncts.all isPushed ∧ e.conjuncts.all (!·.isAnd) := by
  cases e with
  | and terms => exact pushed_conjunctsOf terms (Bool.and_eq_true_iff.mp h).1
  | _ => exact ⟨(Bool.and_true _).trans h, rfl⟩

theorem pushed_conjunctsOf (es : List Expression) (h : allPushed es) :
    (conjunctsOf es).all isPushed ∧ (conjunctsOf es).all (!·.isAnd) := by
  cases es with
  | nil => exact ⟨rfl, rfl⟩
  | cons e es =>
    obtain ⟨he, hes⟩ := Bool.and_eq_true_iff.mp h
    obtain ⟨hfirst, hflat⟩ := pushed_conjuncts e he
    obtain ⟨hrest, hflat'⟩ := pushed_conjunctsOf es hes
    rw [conjunctsOf, all_append, all_append, hfirst, hflat, hrest, hflat']
    exact ⟨rfl, rfl⟩

end

theorem isPushed_and_conjunctsOf {es : List Expression} (h : allPushed es) :
    (Expression.and (conjunctsOf es)).isPushed := by
  obtain ⟨hterms, hflat⟩ := pushed_conjunctsOf es h
  rw [isPushed, allPushed_eq_all, hterms, hflat]
  rfl

mutual

theorem isPushed_pushed (negated : Bool) (e : Expression) : (e.pushed negated).isPushed := by
  cases e with
  | and terms =>
    have hterms := allPushed_pushedAll negated terms
    cases negated with
    | false => exact isPushed_and_conjunctsOf hterms
    | true => exact hterms
  | or terms =>
    have hterms := allPushed_pushedAll negated terms
    cases negated with
    | false => exact hterms
    | true => exact isPushed_and_conjunctsOf hterms
  | not term => exact isPushed_pushed (!negated) term
  | _ => cases negated <;> rfl

theorem allPushed_pushedAll (negated : Bool) (es : List Expression) : allPushed (pushedAll negated es) := by
  cases es with
  | nil => rfl
  | cons e es => rw [pushedAll, allPushed, isPushed_pushed negated e, allPushed_pushedAll negated es]; rfl

end

/-- However a predicate `Rewrites`, its `outcome` is the same truth value or the same failure, whatever columns hold
and whichever of them cannot be read. Rewriting comes to a form in which no conjunction is a term of another and
negations stand before nothing but values. -/
theorem outcome_of_rewrites (e : Expression) :
    (∀ e', ReflTransGen Rewrites e e' → ∀ column, e'.outcome column = e.outcome column) ∧
      ReflTransGen Rewrites e (e.pushed false) ∧ (e.pushed false).isPushed := by
  refine ⟨fun e' h column => ?_, rewrites_pushed false e, isPushed_pushed false e⟩
  induction h with
  | refl => rfl
  | tail _ hstep ih => exact hstep.outcome_eq.trans ih

def neitherMissing : Expression :=
  .not (.or [.not (.comparison .eq (.column ⟨"", "a"⟩) (.literal (.integer 1))),
    .not (.and [.isNull (.column ⟨"", "b"⟩) true,
      .isIn (.column ⟨"", "c"⟩) [.literal (.integer 1), .literal .null] true])])

def rowWith (c : Except WriteError Value) (ref : ColumnRef) : Except WriteError Value :=
  if ref.column = "a" then .ok (.integer 1) else if ref.column = "b" then .ok (.integer 5) else c

theorem outcome_of_rewrites_neitherMissing :
    neitherMissing.pushed false =
        .and [.comparison .eq (.column ⟨"", "a"⟩) (.literal (.integer 1)),
          .isNull (.column ⟨"", "b"⟩) true,
          .isIn (.column ⟨"", "c"⟩) [.literal (.integer 1), .literal .null] true] ∧
      (neitherMissing.pushed false).outcome (rowWith (.ok (.integer 2))) = .ok none ∧
      (neitherMissing.pushed false).outcome (rowWith (.error (.evaluation "c"))) =
        .error (.evaluation "c") := by
  obtain ⟨hsame, hpushed, -⟩ := outcome_of_rewrites neitherMissing
  have hrow := hsame (neitherMissing.pushed false) hpushed
  exact ⟨rfl, (hrow _).trans rfl, (hrow _).trans rfl⟩

end Expression

end Pushdown
