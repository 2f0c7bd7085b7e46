import Pushdown.Proofs.Predicate
import Pushdown.Proofs.StoredOrder
import Pushdown.Proofs.Traces

/-!
# Predicates made conditions

A test becomes a test of one field (`FieldTest`), or is computed: into a field of its own ahead of the match, or in
the condition (`computedFilter_cases`). `decides_filter`: the condition of a predicate decides a document as soon as
the conditions of its tests do (`Decided`), so that what a predicate selects is settled test by test.
-/

namespace Pushdown

open List Attempt Expression

namespace Expression

variable {σ : Type} {c : Context σ} {s s' : Draft σ} {q : Condition} {t : Expression}
  {es : List Expression} {e : Expression}

/-- A test of one field, and the condition that it becomes. -/
inductive FieldTest (c : Context σ) : Expression → Condition → Prop where
  | comparison {ref column v arg} (op : ComparisonOp) (hcolumn : c.resolve ref = .ok column) (harg : v.Stored arg) :
      FieldTest c (.comparison op (.column ref) (.literal v)) (.comparison (some column.path) op.test arg)
  | flipped {ref column v arg} (op : ComparisonOp) (hcolumn : c.resolve ref = .ok column) (harg : v.Stored arg) :
      FieldTest c (.comparison op (.literal v) (.column ref)) (.comparison (some column.path) op.flip.test arg)
  | isIn {ref column vs args} (negated : Bool) (hcolumn : c.resolve ref = .ok column)
      (hargs : List.Forall₂ Value.Stored vs args) :
      FieldTest c (.isIn (.column ref) (vs.map .literal) negated) (.isIn (some column.path) args negated)
  | isNull {ref column} (negated : Bool) (hcolumn : c.resolve ref = .ok column) :
      FieldTest c (.isNull (.column ref) negated) (.comparison (some column.path) (if negated then .ne else .eq) .null)
  | like {ref column pattern text} (escape : Option Char) (negated : Bool) (hcolumn : c.resolve ref = .ok column)
      (htext : pattern.likePattern = .ok text) :
      FieldTest c (.like (.column ref) pattern escape negated)
        (.regex (some column.path) (LikeRegex.ofPattern text escape).text "s" negated)
  | column {ref column} (hcolumn : c.resolve ref = .ok column) :
      FieldTest c (.column ref) (.comparison (some column.path) .eq (.boolean true))

theorem afterMark_fieldRef (path : String) : Path.afterMark ("$" ++ path) = path := by
  rw [Path.afterMark, String.toList_append]
  exact String.ofList_toList

theorem field?_column {ref : ColumnRef} {field : Option String} (h : field? c .raw (.column ref) s = (.ok field, s')) :
    ∃ column, c.resolve ref = .ok column ∧ field = some column.path := by
  obtain ⟨b, s₁, hcompile, h⟩ := bind_ok h
  obtain ⟨column, s₂, hresolve, hcompile⟩ := bind_ok hcompile
  obtain ⟨_, -, rfl⟩ := bind_pure_ok hcompile
  obtain ⟨rfl, -⟩ := pure_ok h
  exact ⟨column, (ofExcept_ok hresolve).1, congrArg some (afterMark_fieldRef column.path)⟩

theorem field?_some {field : String} (h : field? c .raw e s = (.ok (some field), s')) :
    ∃ ref column, e = .column ref ∧ c.resolve ref = .ok column ∧ field = column.path := by
  cases e with
  | column ref =>
    obtain ⟨column, hcolumn, hfield⟩ := field?_column h
    exact ⟨ref, column, rfl, hcolumn, Option.some.inj hfield⟩
  | _ => cases h

theorem store_ok {v : Value} {b : Bson} (h : c.store v s = (.ok b, s')) : v.Stored b := by
  refine ⟨σ, c.objects, s.objects, ((v.toStored c.objects) s.objects).2, ?_⟩
  rw [Context.store, Attempt.within, Attempt.failingAs] at h
  rcases hstored : v.toStored c.objects s.objects with ⟨r, t⟩
  rw [hstored] at h
  cases r with
  | error e => cases h
  | ok b' => cases h; rfl

theorem constant?_some {b : Bson} (h : constant? c e s = (.ok (some b), s')) : ∃ v, e = .literal v ∧ v.Stored b := by
  cases e with
  | literal v =>
    obtain ⟨b', hstore, heq⟩ := map_ok h
    cases heq
    exact ⟨v, rfl, store_ok hstore⟩
  | _ => cases h

theorem constants?_some {bs : List Bson} (h : constants? c es s = (.ok (some bs), s')) :
    ∃ vs, es = vs.map .literal ∧ List.Forall₂ Value.Stored vs bs := by
  induction es generalizing bs s with
  | nil => cases h; exact ⟨[], rfl, .nil⟩
  | cons e es ih =>
    obtain ⟨b, s₁, hb, h⟩ := bind_ok h
    cases b with
    | none => cases h
    | some b =>
      obtain ⟨rest, s₂, hrest, h⟩ := bind_ok h
      cases rest with
      | none => cases h
      | some rest =>
        cases h
        obtain ⟨v, rfl, hv⟩ := constant?_some hb
        obtain ⟨vs, rfl, hvs⟩ := ih hrest
        exact ⟨v :: vs, rfl, .cons hv hvs⟩

def isLiteral : Expression → Bool
  | .literal _ => true
  | _ => false

def isFieldTest : Expression → Bool
  | .comparison _ (.column _) (.literal _) => true
  | .comparison _ (.literal _) (.column _) => true
  | .isIn (.column _) list _ => list.all isLiteral
  | .isNull (.column _) _ => true
  | .like (.column _) _ _ _ => true
  | .column _ => true
  | _ => false

theorem isFieldTest_of_fieldTest (h : FieldTest c t q) : t.isFieldTest := by
  cases h with
  | isIn negated hcolumn hargs => simp [isFieldTest, isLiteral]
  | _ => rfl

variable {left right : Expression} {op : ComparisonOp} {terms : List Expression}

theorem isFieldTest_comparison (h : (comparison op left right).isFieldTest) :
    (∃ ref v, left = .column ref ∧ right = .literal v) ∨ ∃ ref v, left = .literal v ∧ right = .column ref := by
  cases left with
  | column ref =>
    cases right with
    | literal v => exact .inl ⟨ref, v, rfl, rfl⟩
    | _ => cases h
  | literal v =>
    cases right with
    | column ref => exact .inr ⟨ref, v, rfl, rfl⟩
    | _ => cases h
  | _ => cases h

theorem constant?_literal {v : Value} {arg : Option Bson}
    (h : constant? c (.literal v) s = (.ok arg, s')) : ∃ b, arg = some b := by
  obtain ⟨b, -, rfl⟩ := map_ok h
  exact ⟨_, rfl⟩

theorem constants?_literals (hes : es.all isLiteral) {args : Option (List Bson)}
    (h : constants? c es s = (.ok args, s')) : ∃ bs, args = some bs := by
  induction es generalizing args s s' with
  | nil => cases h; exact ⟨[], rfl⟩
  | cons e es ih =>
    obtain ⟨he, hes⟩ := Bool.and_eq_true_iff.mp hes
    obtain ⟨b, s₁, hb, h⟩ := bind_ok h
    cases e with
    | literal v =>
      obtain ⟨b, rfl⟩ := constant?_literal hb
      obtain ⟨rest, s₂, hrest, h⟩ := bind_ok h
      obtain ⟨bs, rfl⟩ := ih hes hrest
      cases h
      exact ⟨_, rfl⟩
    | _ => cases he

/-- A comparison of a field with a constant tests the field, in either order. All others are
computed. -/
theorem comparison_cases (h : (comparison op left right).filter c .raw s = (.ok q, s')) :
    FieldTest c (.comparison op left right) q ∨
      ((comparison op left right).isFieldTest = false ∧
        ∃ s₁, computedFilter c .raw (.comparison op left right) s₁ = (.ok q, s')) := by
  rw [filter] at h
  obtain ⟨input, s₁, hinput, h⟩ := bind_ok h
  obtain ⟨arg, s₂, harg, h⟩ := bind_ok h
  split at h
  · cases h
    obtain ⟨ref, column, rfl, hcolumn, rfl⟩ := field?_some hinput
    obtain ⟨v, rfl, hv⟩ := constant?_some harg
    exact .inl (.comparison op hcolumn hv)
  rename_i hfirst
  obtain ⟨arg', s₃, harg', h⟩ := bind_ok h
  obtain ⟨input', s₄, hinput', h⟩ := bind_ok h
  split at h
  · cases h
    obtain ⟨ref, column, rfl, hcolumn, rfl⟩ := field?_some hinput'
    obtain ⟨v, rfl, hv⟩ := constant?_some harg'
    exact .inl (.flipped op hcolumn hv)
  rename_i hsecond
  refine .inr ⟨Bool.eq_false_iff.mpr fun hfield => ?_, _, h⟩
  rcases isFieldTest_comparison hfield with ⟨ref, v, rfl, rfl⟩ | ⟨ref, v, rfl, rfl⟩
  · obtain ⟨column, -, rfl⟩ := field?_column hinput
    obtain ⟨b, rfl⟩ := constant?_literal harg
    exact hfirst column.path b rfl rfl
  · obtain ⟨column, -, rfl⟩ := field?_column hinput'
    obtain ⟨b, rfl⟩ := constant?_literal harg'
    exact hsecond b column.path rfl rfl

theorem isIn_cases {input : Expression} {list : List Expression} {negated : Bool}
    (h : (isIn input list negated).filter c .raw s = (.ok q, s')) :
    FieldTest c (.isIn input list negated) q ∨
      ((isIn input list negated).isFieldTest = false ∧
        ∃ s₁, computedFilter c .raw (.isIn input list negated) s₁ = (.ok q, s')) := by
  rw [filter] at h
  obtain ⟨args, s₁, hargs, h⟩ := bind_ok h
  obtain ⟨field, s₂, hfield, h⟩ := bind_ok h
  split at h
  · cases h
    obtain ⟨ref, column, rfl, hcolumn, rfl⟩ := field?_some hfield
    obtain ⟨vs, rfl, hvs⟩ := constants?_some hargs
    exact .inl (.isIn negated hcolumn hvs)
  rename_i hnone
  refine .inr ⟨Bool.eq_false_iff.mpr fun htest => ?_, _, h⟩
  cases input with
  | column ref =>
    obtain ⟨column, -, rfl⟩ := field?_column hfield
    obtain ⟨bs, rfl⟩ := constants?_literals htest hargs
    exact hnone column.path bs rfl rfl
  | _ => cases htest

theorem filter_cases (ht : t.isTest) (h : t.filter c .raw s = (.ok q, s')) :
    FieldTest c t q ∨ (t.isFieldTest = false ∧ ∃ s₁, computedFilter c .raw t s₁ = (.ok q, s')) := by
  cases t with
  | and terms | or terms | not term => cases ht
  | comparison op left right => exact comparison_cases h
  | isIn input list negated => exact isIn_cases h
  | isNull input negated =>
    rw [filter] at h
    obtain ⟨field, s₁, hfield, h⟩ := bind_ok h
    cases field with
    | some field =>
      cases h
      obtain ⟨ref, column, rfl, hcolumn, rfl⟩ := field?_some hfield
      exact .inl (.isNull negated hcolumn)
    | none =>
      cases input with
      | column ref =>
        obtain ⟨column, -, hsome⟩ := field?_column hfield
        cases hsome
      | _ => exact .inr ⟨rfl, _, h⟩
  | like input pattern escape negated =>
    rw [filter] at h
    obtain ⟨text, s₁, htext, h⟩ := bind_ok h
    cases input with
    | column ref =>
      obtain ⟨_, s₂, -, h⟩ := bind_ok h
      split at h
      · cases h
      · obtain ⟨field, s₃, hfield, h⟩ := bind_ok h
        obtain ⟨column, hcolumn, rfl⟩ := field?_column hfield
        cases h
        exact .inl (.like escape negated hcolumn (ofExcept_ok htext).1)
    | _ => exact .inr ⟨rfl, _, h⟩
  | column ref =>
    rw [filter] at h
    obtain ⟨field, s₁, hfield, h⟩ := bind_ok h
    obtain ⟨column, hcolumn, rfl⟩ := field?_column hfield
    cases h
    exact .inl (.column hcolumn)
  | literal v | call name args | aggregate function arg distinct => exact .inr ⟨rfl, _, h⟩

theorem isTested_of_fieldTest (h : FieldTest c t q) : q.isTested := by
  cases h <;> rfl

def nextHelper (s : Draft σ) : String := "__m" ++ toString s.helperFields.length

theorem computedFilter_cases (h : computedFilter c .raw t s = (.ok q, s')) :
    (c.mode = .pipeline ∧ ∃ b s₁, t.compile c .raw s = (.ok b, s₁) ∧
        q = .comparison (some (nextHelper s₁)) .eq (.boolean true) ∧
        s' = { s₁ with helperFields := s₁.helperFields ++ [(nextHelper s₁, b)] }) ∨
      (c.mode = .standalone ∧ ∃ b, t.compile c .raw s = (.ok b, s') ∧ q = .expr b) := by
  cases hmode : c.mode with
  | pipeline =>
    simp only [computedFilter, hmode] at h
    obtain ⟨b, s₁, hb, h⟩ := bind_ok h
    cases h
    exact .inl ⟨rfl, b, s₁, hb, rfl, rfl⟩
  | standalone =>
    simp only [computedFilter, hmode] at h
    obtain ⟨b, s₁, hb, h⟩ := bind_ok h
    cases h
    exact .inr ⟨rfl, b, hb, rfl⟩
  | element =>
    simp only [computedFilter, hmode] at h
    cases h

theorem isTested_of_computed (h : computedFilter c .raw t s = (.ok q, s')) : q.isTested := by
  rcases computedFilter_cases h with ⟨-, _, _, -, rfl, -⟩ | ⟨-, _, -, rfl⟩ <;> rfl

theorem filter_and_ok (h : (Expression.and terms).filter c .raw s = (.ok q, s')) :
    ∃ qs, filters c .raw terms s = (.ok qs, s') ∧ q = .and qs := by
  rw [filter] at h
  obtain ⟨qs, s₁, hqs, h⟩ := bind_ok h
  cases h
  exact ⟨qs, hqs, rfl⟩

theorem filter_or_ok (h : (Expression.or terms).filter c .raw s = (.ok q, s')) :
    ∃ qs, filters c .raw terms s = (.ok qs, s') ∧ q = .or qs := by
  rw [filter] at h
  obtain ⟨qs, s₁, hqs, h⟩ := bind_ok h
  cases h
  exact ⟨qs, hqs, rfl⟩

theorem filter_not_not (e : Expression) : (Expression.not (.not e)).filter c .raw = e.filter c .raw := by
  rw [filter]

theorem filter_not_ok {term : Expression} (hterm : ∀ e, term ≠ .not e)
    (h : (Expression.not term).filter c .raw s = (.ok q, s')) :
    ∃ q', term.filter c .raw s = (.ok q', s') ∧ q = q'.negate := by
  rw [filter] at h
  · obtain ⟨q', s₁, hq, h⟩ := bind_ok h
    cases h
    exact ⟨q', hq, rfl⟩
  · exact hterm

theorem filters_cons_ok {qs : List Condition} (h : filters c .raw (e :: es) s = (.ok qs, s')) :
    ∃ q rest s₁, e.filter c .raw s = (.ok q, s₁) ∧ filters c .raw es s₁ = (.ok rest, s') ∧ qs = q :: rest := by
  rw [filters] at h
  obtain ⟨q, rest, s₁, hq, hrest, heq⟩ := both_ok h
  exact ⟨q, rest, s₁, hq, hrest, heq⟩

mutual

theorem filter_isTested (e : Expression) {q : Condition} {s s' : Draft σ}
    (h : e.filter c .raw s = (.ok q, s')) : q.isTested := by
  have htest : e.isTest → q.isTested := fun ht =>
    (filter_cases ht h).elim isTested_of_fieldTest fun ⟨_, _, hcomputed⟩ => isTested_of_computed hcomputed
  cases e with
  | and terms =>
    obtain ⟨qs, hqs, rfl⟩ := filter_and_ok h
    exact filters_isTested terms hqs
  | or terms =>
    obtain ⟨qs, hqs, rfl⟩ := filter_or_ok h
    exact filters_isTested terms hqs
  | not term =>
    cases term with
    | not e => exact filter_isTested e (filter_not_not e ▸ h)
    | _ =>
      obtain ⟨q', hq, rfl⟩ := filter_not_ok (by nofun) h
      exact Condition.isTested_negate _ (filter_isTested _ hq)
  | _ => exact htest rfl

theorem filters_isTested (es : List Expression) {qs : List Condition} {s s' : Draft σ}
    (h : filters c .raw es s = (.ok qs, s')) : Condition.allTested qs := by
  cases es with
  | nil => cases h; rfl
  | cons e es =>
    obtain ⟨q, rest, s₁, hq, hrest, rfl⟩ := filters_cons_ok h
    rw [Condition.allTested, filter_isTested e hq, filters_isTested es hrest]
    rfl

end

def Compiles (c : Context σ) (t : Expression) : Prop :=
  ∃ (q : Condition) (s s' : Draft σ), t.filter c .raw s = (.ok q, s')

mutual

theorem compiles_tests (e : Expression) (h : Compiles c e) : ∀ t ∈ e.tests, Compiles c t := by
  obtain ⟨q, s, s', h⟩ := h
  cases e with
  | and terms =>
    obtain ⟨qs, hqs, -⟩ := filter_and_ok h
    exact compiles_testsOf terms hqs
  | or terms =>
    obtain ⟨qs, hqs, -⟩ := filter_or_ok h
    exact compiles_testsOf terms hqs
  | not term =>
    cases term with
    | not e => exact compiles_tests e ⟨q, s, s', filter_not_not e ▸ h⟩
    | _ =>
      obtain ⟨q', hq, -⟩ := filter_not_ok (by nofun) h
      have hterm : Compiles c _ := ⟨q', s, s', hq⟩
      exact fun t ht => compiles_tests _ hterm t ht
  | _ =>
    intro t ht
    obtain rfl := mem_singleton.mp ht
    exact ⟨q, s, s', h⟩

theorem compiles_testsOf (es : List Expression) {qs : List Condition} {s s' : Draft σ}
    (h : filters c .raw es s = (.ok qs, s')) : ∀ t ∈ testsOf es, Compiles c t := by
  cases es with
  | nil => exact fun _ ht => nomatch ht
  | cons e es =>
    obtain ⟨q, rest, s₁, hq, hrest, -⟩ := filters_cons_ok h
    exact forall_mem_append.mpr ⟨compiles_tests e ⟨q, s, s₁, hq⟩, compiles_testsOf es hrest⟩

end

end Expression

/-- Fields that are named by their positions, from `start` on. -/
def Numbered : Nat → List (String × Bson) → Prop
  | _, [] => True
  | start, (name, _) :: rest => name = "__m" ++ toString start ∧ Numbered (start + 1) rest

theorem numbered_append {start : Nat} {fs gs : List (String × Bson)} (hf : Numbered start fs)
    (hg : Numbered (start + fs.length) gs) : Numbered start (fs ++ gs) := by
  induction fs generalizing start with
  | nil => exact hg
  | cons f fs ih =>
    refine ⟨hf.1, ih hf.2 ?_⟩
    rwa [length_cons, Nat.add_comm fs.length, ← Nat.add_assoc] at hg

/-- Computed fields are added after those that are there, and named by their positions. -/
def Draft.Grows {σ : Type} (s s' : Draft σ) : Prop :=
  ∃ added, s'.helperFields = s.helperFields ++ added ∧ Numbered s.helperFields.length added

namespace Draft.Grows

variable {σ : Type} {s₁ s₂ s₃ : Draft σ}

theorem of_eq (h : s₂.helperFields = s₁.helperFields) : s₁.Grows s₂ :=
  ⟨[], by rw [h, append_nil], True.intro⟩

theorem trans (h : s₁.Grows s₂) (h' : s₂.Grows s₃) : s₁.Grows s₃ := by
  obtain ⟨added, heq, hnum⟩ := h
  obtain ⟨more, heq', hnum'⟩ := h'
  refine ⟨added ++ more, by rw [heq', heq, append_assoc], numbered_append hnum ?_⟩
  rwa [heq, length_append] at hnum'

theorem isPrefix (h : s₁.Grows s₂) : s₁.helperFields <+: s₂.helperFields := by
  obtain ⟨added, heq, -⟩ := h
  exact ⟨added, heq.symm⟩

end Draft.Grows

theorem Draft.isTrace_grows {σ : Type} : Draft.IsTrace (Draft.Grows (σ := σ)) where
  refl _ := .of_eq rfl
  trans := .trans
  store _ _ := .of_eq rfl
  register _ _ _ := .of_eq rfl

namespace Expression

open Compiling

variable {σ : Type} {c : Context σ}

theorem isFilterTrace_grows (c : Context σ) : IsFilterTrace c .raw Draft.Grows where
  toIsTrace := Draft.isTrace_grows
  accumulate h := by cases h
  compute _ s b := ⟨[(nextHelper s, b)], rfl, rfl, True.intro⟩

variable {search : Search} {d : Document} {truth : Expression → Option Bool}
  {helpers : List (String × Bson)}

/-- The condition of the test, wherever it stands, decides the document, where the fields that are
computed along with it are among `helpers`. -/
def Decided (c : Context σ) (search : Search) (d : Document) (helpers : List (String × Bson))
    (t : Expression) (truth : Option Bool) : Prop :=
  ∀ (q : Condition) (s s' : Draft σ), t.filter c .raw s = (.ok q, s') →
    s'.helperFields <+: helpers → q.Decides search d truth

mutual

theorem decides_filter (e : Expression) {q : Condition} {s s' : Draft σ}
    (h : e.filter c .raw s = (.ok q, s')) (hs : s'.helperFields <+: helpers)
    (htests : ∀ t ∈ e.tests, Decided c search d helpers t (truth t)) : q.Decides search d (e.truthBy truth) := by
  cases e with
  | and terms =>
    obtain ⟨qs, hqs, rfl⟩ := filter_and_ok h
    exact (decidesAll_filters terms hqs hs htests).and
  | or terms =>
    obtain ⟨qs, hqs, rfl⟩ := filter_or_ok h
    exact (decidesAll_filters terms hqs hs htests).or
  | not term =>
    cases term with
    | not e =>
      have htwice : (Expression.not (.not e)).truthBy truth = e.truthBy truth := by
        rw [truthBy, truthBy]
        rcases e.truthBy truth with _ | _ | _ <;> rfl
      rw [htwice]
      exact decides_filter e (filter_not_not e ▸ h) hs htests
    | _ =>
      obtain ⟨q', hq, rfl⟩ := filter_not_ok (by nofun) h
      exact (decides_filter _ hq hs htests).negate (filter_isTested _ hq)
  | _ => exact htests _ (mem_singleton.mpr rfl) q s s' h hs

theorem decidesAll_filters (es : List Expression) {qs : List Condition} {s s' : Draft σ}
    (h : filters c .raw es s = (.ok qs, s')) (hs : s'.helperFields <+: helpers)
    (htests : ∀ t ∈ testsOf es, Decided c search d helpers t (truth t)) :
    Condition.DecidesAll search d qs (truthsBy truth es) := by
  cases es with
  | nil => cases h; exact True.intro
  | cons e es =>
    obtain ⟨q, rest, s₁, hq, hrest, rfl⟩ := filters_cons_ok h
    have hgrows := traces_filters (isFilterTrace_grows c) es _ _ _ hrest
    exact ⟨decides_filter e hq (hgrows.isPrefix.trans hs) fun t ht => htests t (mem_append_left _ ht),
      decidesAll_filters es hrest hs fun t ht => htests t (mem_append_right _ ht)⟩

end

end Expression

end Pushdown
