import Pushdown.Proofs.Compilation
import Pushdown.Proofs.PatternText

/-!
# Tests of fields

`decides_fieldTest`: a test of a field against constants selects what its `storedTest` selects on the values that
are read, as long as these are compared with values of their kind (`isKindred`). That is the test itself but for
NULL among the constants: a comparison with NULL is never known, but the store compares it as any other value, which
tests for NULL say (`nullTest`, `nullItemTest`).
-/

namespace Pushdown

open List Bson Condition Expression Value

/-! ### Values of a row -/

namespace Value

variable {x v : Value} {b : Bson}

/-- A stored value that may not be there is what is kept of `x`. -/
def Keeps (x : Value) (b : Option Bson) : Prop :=
  (x = .null ∧ Bson.isAbsent b) ∨ ∃ c, b = some c ∧ x.isNull = false ∧ x.Stored c

theorem storeContent_ok {σ : Type} {objects : LargeObjects σ} {content : List UInt8} {s s' : σ}
    (h : storeContent objects content s = (.ok b, s')) : ∃ id, b = .string id := by
  unfold storeContent at h
  rcases hput : objects.put content s with ⟨r, t⟩
  rw [hput] at h
  cases r with
  | error e => cases h
  | ok id => cases h; exact ⟨id, rfl⟩

theorem Stored.present (h : v.Stored b) (hv : v.isNull = false) : b.isNullish = false := by
  obtain ⟨σ, objects, s, s', h⟩ := h
  cases v with
  | null => cases hv
  | bigDecimal text =>
    rw [toStored] at h
    cases hread : readFloat? text with
    | none => rw [hread] at h; cases h
    | some x => rw [hread] at h; cases h; rfl
  | array items =>
    obtain ⟨bs, s₁, -, h⟩ := Attempt.bind_ok h
    cases h
    rfl
  | blob bytes | clob text | xml text => obtain ⟨id, rfl⟩ := storeContent_ok h; rfl
  | _ => cases h; rfl

theorem Stored.null (h : null.Stored b) : b = .null := by
  obtain ⟨σ, objects, s, s', h⟩ := h
  cases h
  rfl

theorem Keeps.isAbsent_eq {b : Option Bson} (h : x.Keeps b) : isAbsent b = x.isNull := by
  rcases h with ⟨rfl, habsent⟩ | ⟨c, rfl, hnull, hstored⟩
  · exact habsent
  · rw [hnull]
    exact hstored.present hnull

def comparesWith (x v : Value) : Bool :=
  v.isExact && (x.isNull || (x.isExact && (x.compare? v).isSome))

end Value

/-! ### Tests against NULL -/

namespace Expression

def isNullLiteral : Expression → Bool
  | .literal v => v.isNull
  | _ => false

/-- What the store makes of a comparison with NULL: it is equal to itself, and is in no order to
other values. -/
def nullTest (op : ComparisonOp) (input : Expression) : Expression :=
  match op with
  | .eq => .isNull input false
  | .neq => .isNull input true
  | .lte | .gte => .or [.isNull input false, .literal .null]
  | .lt | .gt => .and [.isNull input true, .literal .null]

/-- What the store makes of a test for being in a list with NULL: NULL is an item like any other. -/
def nullItemTest (input : Expression) (list : List Expression) (negated : Bool) : Expression :=
  let others := list.filter fun e => !e.isNullLiteral
  if negated then .and [.isNull input true, .isIn input others true]
  else .or [.isNull input false, .isIn input others false]

/-- The test that has the truth values which the store gives to a test of a field. -/
def storedTest : Expression → Expression
  | .comparison op left right =>
    if right.isNullLiteral then nullTest op left
    else if left.isNullLiteral then nullTest op.flip right
    else .comparison op left right
  | .isIn input list negated =>
    if list.any isNullLiteral then nullItemTest input list negated else .isIn input list negated
  | e => e

variable {left right : Expression}

theorem storedTest_comparison (op : ComparisonOp) (hl : left.isNullLiteral = false) (hr : right.isNullLiteral = false) :
    storedTest (.comparison op left right) = .comparison op left right := by
  rw [storedTest, hl, hr]
  rfl

def testsNull : Expression → Bool
  | .comparison _ left right => left.isNullLiteral || right.isNullLiteral
  | .isIn _ list _ => list.any isNullLiteral
  | _ => false

theorem storedTest_eq_self {t : Expression} (h : t.testsNull = false) : t.storedTest = t := by
  cases t with
  | comparison op left right =>
    obtain ⟨hl, hr⟩ := Bool.or_eq_false_iff.mp h
    exact storedTest_comparison op hl hr
  | isIn input list negated =>
    rw [testsNull] at h
    rw [storedTest, h]
    rfl
  | _ => rfl

def reads (column : ColumnRef → Except WriteError Value) (ref : ColumnRef) (p : Value → Bool) : Bool :=
  match column ref with
  | .ok x => p x
  | .error _ => false

/-- Whether a text is searched in the same way wherever it is done: the end of a text is not told
apart from a line break before it. -/
def isSearchable (r : LikeRegex) (text : String) : Bool :=
  !r.items.contains (.char '\x00') && !(r.atEnd && text.toList.getLast? == some '\n')

/-- Whether a test of a column, on the given row, compares the column with constants of its kind. -/
def isKindred (column : ColumnRef → Except WriteError Value) : Expression → Bool
  | .comparison _ (.column ref) (.literal v) => v.isNull || reads column ref (·.comparesWith v)
  | .comparison _ (.literal v) (.column ref) => v.isNull || reads column ref (·.comparesWith v)
  | .isIn (.column ref) list _ =>
    list.all fun
      | .literal v => v.isNull || reads column ref (·.comparesWith v)
      | _ => false
  | .like (.column ref) pattern escape _ =>
    reads column ref fun x =>
      x.isNull || (x.isExact &&
        match pattern.likePattern, x.text? with
        | .ok p, some text => isSearchable (.ofPattern p escape) text
        | _, _ => false)
  | .column ref => reads column ref fun x => x.isNull || x.truth?.isSome
  | _ => true

/-! ### Comparisons and lists -/

section Tests

variable {search : Search} {d : Document} {field : String} {b : Option Bson} {x v : Value}
  {arg : Bson} {vs : List Value}

theorem holds_test (op : ComparisonOp) (o : Ordering) : op.test.holds o = op.holds o := by
  cases op <;> rfl

theorem isNaN_of_comparesWith (hx : x.Keeps b) (h : x.comparesWith v) : b.any isNaN = false := by
  obtain ⟨-, h⟩ := Bool.and_eq_true_iff.mp h
  rcases hx with ⟨rfl, habsent⟩ | ⟨c, rfl, hnull, hstored⟩
  · rcases b with _ | b
    · rfl
    · cases b <;> first | rfl | cases habsent
  · rw [hnull, Bool.false_or] at h
    exact isNaN_of_isConstant (hstored.isConstant (Bool.and_eq_true_iff.mp h).1)

theorem order_of_comparesWith {c : Bson} (hnull : x.isNull = false) (hx : x.Stored c)
    (hv : v.Stored arg) (h : x.comparesWith v) : ∃ o, x.compare? v = some o ∧ c.rank = arg.rank ∧ c.order arg = o := by
  obtain ⟨hvexact, h⟩ := Bool.and_eq_true_iff.mp h
  rw [hnull, Bool.false_or] at h
  obtain ⟨hxexact, hsome⟩ := Bool.and_eq_true_iff.mp h
  obtain ⟨o, ho⟩ := Option.isSome_iff_exists.mp hsome
  obtain ⟨hrank, horder⟩ := hx.order hv hxexact hvexact ho
  exact ⟨o, ho, hrank, horder⟩

theorem decides_compared (hread : Condition.Reads d field b) (hx : x.Keeps b) (hv : v.Stored arg)
    (h : x.comparesWith v) (op : ComparisonOp) :
    (Condition.comparison (some field) op.test arg).Decides search d ((x.compare? v).map op.holds) := by
  have hconstant : arg.isConstant := hv.isConstant (Bool.and_eq_true_iff.mp h).1
  have hdecides : Condition.Decides search d (.comparison (some field) op.test arg) _ :=
    Condition.decides_comparison hread (isNaN_of_comparesWith hx h) hconstant op.test
  rcases hx with ⟨rfl, habsent⟩ | ⟨c, rfl, hnull, hstored⟩
  · rwa [Condition.ofPresent_of_isAbsent habsent] at hdecides
  · obtain ⟨o, ho, hrank, horder⟩ := order_of_comparesWith hnull hstored hv h
    rw [Condition.ofPresent_of_present (hstored.present hnull), Condition.comparisonTruth,
      if_pos (.inr (.inr hrank)), horder, holds_test] at hdecides
    rwa [ho]

def nullTruth (op : ComparisonOp) (isNull : Bool) : Option Bool :=
  match op with
  | .eq => some isNull
  | .neq => some !isNull
  | .lte | .gte => if isNull then some true else none
  | .lt | .gt => if isNull then some false else none

theorem decides_null (hread : Condition.Reads d field b) (hx : x.Keeps b) (op : ComparisonOp) :
    (Condition.comparison (some field) op.test .null).Decides search d (nullTruth op x.isNull) := by
  have haccepts (op : MatchOp) : (Condition.comparison (some field) op .null).accepts search d =
      if op = .ne then !x.isNull else x.isNull && op.holds .eq := by
    have hmarked : (Condition.comparisonTest op .null).head?.any fun f => isMarked f.1 := by
      rw [Condition.comparisonTest, if_neg (by simp [Bson.isNull])]
      exact Condition.isMarked_name op
    rw [Condition.accepts, Condition.toDocument, Condition.satisfies_under hread hmarked,
      Condition.testAll_null, hx.isAbsent_eq]
  constructor
  · rw [haccepts]
    cases op <;> cases x.isNull <;> rfl
  · rw [Condition.negate, haccepts]
    cases op <;> cases x.isNull <;> rfl

variable {column : ColumnRef → Except WriteError Value} {ref : ColumnRef}

theorem hasTruth_isNull (hx : column ref = .ok x) (negated : Bool) :
    HasTruth column (.isNull (.column ref) negated) (some (x.isNull != negated)) :=
  ⟨.boolean (x.isNull != negated), by rw [evaluate, evaluate, hx]; rfl, rfl⟩

section

variable {e f : Expression} {t u : Option Bool} (he : HasTruth column e t) (hf : HasTruth column f u)

include he hf

theorem hasTruth_or_pair : HasTruth column (.or [e, f]) (Truth.any [t, u]) := hasTruth_or (.cons he (.cons hf .nil))

theorem hasTruth_and_pair : HasTruth column (.and [e, f]) (Truth.all [t, u]) := hasTruth_and (.cons he (.cons hf .nil))

end

theorem hasTruth_nullTest (hx : column ref = .ok x) (op : ComparisonOp) :
    HasTruth column (nullTest op (.column ref)) (nullTruth op x.isNull) := by
  have hnull : HasTruth column (.literal .null) none := ⟨.null, rfl, rfl⟩
  have hyes := hasTruth_isNull hx false
  have hno := hasTruth_isNull hx true
  rw [Bool.bne_false] at hyes
  rw [Bool.bne_true] at hno
  have hor := hasTruth_or_pair hyes hnull
  have hand := hasTruth_and_pair hno hnull
  cases op with
  | eq => exact hyes
  | neq => exact hno
  | lte | gte => cases hisNull : x.isNull <;> rw [hisNull] at hor <;> exact hor
  | lt | gt => cases hisNull : x.isNull <;> rw [hisNull] at hand <;> exact hand

def among (x : Value) (vs : List Value) : Bool := vs.any fun v => x.compare? v == some .eq

def itemTruth (x : Value) (vs : List Value) : Option Bool :=
  if x.isNull then (if vs.any Value.isNull then some true else none) else some (among x vs)

def ComparesAll (x : Value) (vs : List Value) : Prop := ∀ v ∈ vs, v.isNull || x.comparesWith v

theorem eq_null_of_isNull (h : v.isNull) : v = .null := by
  cases v with
  | null => rfl
  | _ => cases h

theorem isNull_of_isExact (h : v.isExact) : v.isNull = false := by
  cases v with
  | null => cases h
  | _ => rfl

theorem stands_stored (hx : x.Keeps b) (hv : v.Stored arg) (h : v.isNull || x.comparesWith v) :
    stands .eq arg b = if x.isNull then v.isNull else x.compare? v == some .eq := by
  rcases Bool.or_eq_true_iff.mp h with hnull | hcompares
  · obtain rfl := eq_null_of_isNull hnull
    obtain rfl := hv.null
    rw [stands_null, hx.isAbsent_eq, compare?_null_right]
    cases x.isNull <;> rfl
  · have hexact := (Bool.and_eq_true_iff.mp hcompares).1
    rcases hx with ⟨rfl, habsent⟩ | ⟨c, rfl, hxnull, hstored⟩
    · rw [stands_of_isAbsent (hv.isConstant hexact) habsent, isNull_of_isExact hexact]
      rfl
    · obtain ⟨o, ho, -, horder⟩ := order_of_comparesWith hxnull hstored hv hcompares
      have hnan := isNaN_of_comparesWith (.inr ⟨c, rfl, hxnull, hstored⟩) hcompares
      rw [stands_eq_constant (hv.isConstant hexact) hnan, horder, ho, hxnull]
      cases o <;> rfl

theorem isAmong_singleton (search : Search) (hv : v.Stored arg) (h : v.isNull || x.comparesWith v)
    (b : Option Bson) : Bson.isAmong search [arg] b = stands .eq arg b := by
  rcases Bool.or_eq_true_iff.mp h with hnull | hcompares
  · obtain rfl := eq_null_of_isNull hnull
    obtain rfl := hv.null
    exact Bool.or_false _
  · have hconstant := hv.isConstant (Bool.and_eq_true_iff.mp hcompares).1
    cases arg with
    | regex pattern options => cases hconstant
    | _ => exact Bool.or_false _

theorem isAmong_stored (search : Search) (hx : x.Keeps b) {args : List Bson}
    (hargs : List.Forall₂ Value.Stored vs args) (h : ComparesAll x vs) :
    Bson.isAmong search args b = if x.isNull then vs.any Value.isNull else among x vs := by
  induction hargs with
  | nil => cases x.isNull <;> rfl
  | @cons v arg vs args hv hargs ih =>
    have hhead := h v (mem_cons_self ..)
    rw [show arg :: args = [arg] ++ args from rfl, isAmong_append,
      isAmong_singleton search hv hhead, stands_stored hx hv hhead,
      ih fun v hv => h v (mem_cons_of_mem _ hv)]
    cases x.isNull <;> rfl

theorem decides_item (hread : Condition.Reads d field b) (hx : x.Keeps b) {args : List Bson}
    (hargs : List.Forall₂ Value.Stored vs args) (h : ComparesAll x vs) (negated : Bool) :
    (Condition.isIn (some field) args negated).Decides search d ((itemTruth x vs).map (· != negated)) := by
  have haccepts (negated : Bool) : (Condition.isIn (some field) args negated).accepts search d =
      ((itemTruth x vs).map (· != negated) == some true) := by
    have hmarked : (isInTest args negated).head?.any fun f => isMarked f.1 := by
      rw [isInTest]
      split <;> simp [isMarked]
    rw [Condition.accepts, Condition.toDocument, Condition.satisfies_under hread hmarked, itemTruth]
    cases negated with
    | false =>
      rw [testAll_isIn, isAmong_stored search hx hargs h]
      cases x.isNull <;> cases vs.any Value.isNull <;> cases among x vs <;> rfl
    | true =>
      rw [testAll_not_isIn, isAmong_stored search hx hargs h, hx.isAbsent_eq]
      cases x.isNull <;> cases vs.any Value.isNull <;> cases among x vs <;> rfl
  refine ⟨haccepts negated, ?_⟩
  rw [Condition.negate, haccepts, ← Condition.map_not_eq, Option.map_map]
  simp only [not_bne, Function.comp_def]

theorem evaluateIn_literals (h : ∀ v ∈ vs, (x.compare? v).isSome) :
    evaluateIn column x (vs.map .literal) = .ok (some (among x vs)) := by
  induction vs with
  | nil => rfl
  | cons v vs ih =>
    obtain ⟨o, ho⟩ := Option.isSome_iff_exists.mp (h v (mem_cons_self ..))
    have hcons : among x (v :: vs) = (x.compare? v == some .eq || among x vs) := rfl
    rw [map_cons, evaluateIn, evaluate, ih fun v hv => h v (mem_cons_of_mem _ hv), hcons]
    simp only [bind, Except.bind, ho]
    cases o <;> rfl

theorem hasTruth_isIn (hx : column ref = .ok x)
    (h : x.isNull = false → ∀ v ∈ vs, (x.compare? v).isSome) (negated : Bool) :
    HasTruth column (.isIn (.column ref) (vs.map .literal) negated)
      (if x.isNull then none else some (among x vs != negated)) := by
  cases hnull : x.isNull with
  | true =>
    refine ⟨.null, ?_, rfl⟩
    rw [evaluate, evaluate, hx]
    simp only [bind, Except.bind, hnull]
    rfl
  | false =>
    refine ⟨.boolean (among x vs != negated), ?_, rfl⟩
    rw [evaluate, evaluate, hx]
    simp only [bind, Except.bind, hnull, evaluateIn_literals (h hnull)]
    rfl

theorem hasTruth_comparison {l r : Value} (hl : left.evaluate column = .ok l) (hr : right.evaluate column = .ok r)
    (op : ComparisonOp) : HasTruth column (.comparison op left right) ((l.compare? r).map op.holds) :=
  ⟨op.evaluate l r, by rw [evaluate, hl, hr]; rfl, truth?_ofTruth _⟩

theorem among_others (x : Value) (vs : List Value) : among x (vs.filter fun v => !v.isNull) = among x vs := by
  induction vs with
  | nil => rfl
  | cons v vs ih =>
    have hcons : among x (v :: vs) = (x.compare? v == some .eq || among x vs) := rfl
    rw [filter_cons, hcons, ← ih]
    cases hnull : v.isNull with
    | false => rfl
    | true =>
      obtain rfl := eq_null_of_isNull hnull
      rw [compare?_null_right]
      rfl

theorem hasTruth_item (hx : column ref = .ok x) (h : ComparesAll x vs) (negated : Bool) :
    HasTruth column (storedTest (.isIn (.column ref) (vs.map .literal) negated))
      ((itemTruth x vs).map (· != negated)) := by
  have hany : (vs.map Expression.literal).any isNullLiteral = vs.any Value.isNull := any_map
  have hknown (hnull : x.isNull = false) (v : Value) (hv : v ∈ vs) (hvnull : v.isNull = false) :
      (x.compare? v).isSome := by
    have hcompares := h v hv
    rw [hvnull, Bool.false_or, comparesWith, hnull, Bool.false_or] at hcompares
    exact (Bool.and_eq_true_iff.mp (Bool.and_eq_true_iff.mp hcompares).2).2
  rw [storedTest, hany, itemTruth]
  by_cases hsome : vs.any Value.isNull
  · have hothers : (vs.map Expression.literal).filter (fun e => !e.isNullLiteral) =
        (vs.filter fun v => !v.isNull).map .literal := filter_map
    have hin (negated : Bool) :
        HasTruth column (.isIn (.column ref) ((vs.filter fun v => !v.isNull).map .literal) negated)
          (if x.isNull then none else some (among x vs != negated)) := by
      rw [← among_others]
      refine hasTruth_isIn hx (fun hnull v hv => ?_) negated
      obtain ⟨hv, hvnull⟩ := mem_filter.mp hv
      exact hknown hnull v hv (by simpa using hvnull)
    rw [if_pos hsome, if_pos hsome, nullItemTest, hothers]
    cases negated with
    | false =>
      have hor := hasTruth_or_pair (hasTruth_isNull hx false) (hin false)
      cases hnull : x.isNull <;> rw [hnull] at hor <;> cases hamong : among x vs <;>
        rw [hamong] at hor <;> exact hor
    | true =>
      have hand := hasTruth_and_pair (hasTruth_isNull hx true) (hin true)
      cases hnull : x.isNull <;> rw [hnull] at hand <;> cases hamong : among x vs <;>
        rw [hamong] at hand <;> exact hand
  · have hin := hasTruth_isIn hx
      (fun hnull v hv => hknown hnull v hv (by simpa using any_eq_false.mp (by simpa using hsome) v hv))
      negated
    rw [if_neg hsome, if_neg hsome]
    cases hnull : x.isNull <;> rw [hnull] at hin <;> exact hin

/-! ### Patterns and truth values -/

/-- The store finds the patterns of LIKE where they match. -/
def FindsPatterns (search : Search) : Prop :=
  ∀ (r : LikeRegex) (text : String), isSearchable r text → search r.text "s" text = r.matchesIn text

/-- The search of a store that knows the regular expressions of patterns only. -/
def likeSearch (pattern _ text : String) : Bool := (LikeRegex.ofText pattern).matchesIn text

theorem findsPatterns_likeSearch : FindsPatterns likeSearch := by
  intro r text _
  rw [likeSearch, LikeRegex.ofText_text]

theorem decides_pattern (hsearch : FindsPatterns search) (hread : Condition.Reads d field b)
    (hx : x.Keeps b) {r : LikeRegex} {text : String}
    (htext : x.isNull = false → x.isExact ∧ x.text? = some text ∧ isSearchable r text) (negated : Bool) :
    (Condition.regex (some field) r.text "s" negated).Decides search d
      (if x.isNull then none else some (r.matchesIn text != negated)) := by
  have hdecides : Condition.Decides search d (.regex (some field) r.text "s" negated) _ :=
    Condition.decides_regex hread r.text "s" negated
  rcases hx with ⟨rfl, habsent⟩ | ⟨c, rfl, hnull, hstored⟩
  · rwa [Condition.ofPresent_of_isAbsent habsent] at hdecides
  · obtain ⟨hexact, htext, hsearchable⟩ := htext hnull
    obtain rfl := hstored.text hexact htext
    rw [Condition.ofPresent_of_present rfl, found, hsearch r text hsearchable] at hdecides
    rwa [hnull]

theorem hasTruth_like (hx : column ref = .ok x) {pattern : Expression} {p text : String}
    (hpattern : pattern.likePattern = .ok p) (htext : x.isNull = false → x.text? = some text)
    (escape : Option Char) (negated : Bool) :
    HasTruth column (.like (.column ref) pattern escape negated)
      (if x.isNull then none else some ((LikeRegex.ofPattern p escape).matchesIn text != negated)) := by
  cases hnull : x.isNull with
  | true =>
    obtain rfl := eq_null_of_isNull hnull
    exact ⟨.null, by rw [evaluate, evaluate, hx]; rfl, rfl⟩
  | false =>
    refine ⟨.boolean ((LikeRegex.ofPattern p escape).matchesIn text != negated), ?_, rfl⟩
    rw [evaluate, evaluate, hx]
    simp only [bind, Except.bind, htext hnull, hpattern]
    rfl

theorem stored_boolean (p : Bool) : (Value.boolean p).Stored (.boolean p) :=
  ⟨Unit, .unavailable, (), (), rfl⟩

theorem decides_truthValue (hread : Condition.Reads d field b) (hx : x.Keeps b) (h : x.isNull || x.truth?.isSome) :
    (Condition.comparison (some field) .eq (.boolean true)).Decides search d x.truth? := by
  have hcases : x = .null ∨ ∃ p, x = .boolean p := by
    cases x with
    | null => exact .inl rfl
    | boolean p => exact .inr ⟨p, rfl⟩
    | _ => cases h
  have htrue (hcompares : x.comparesWith (.boolean true)) :
      Condition.Decides search d (.comparison (some field) .eq (.boolean true)) _ :=
    decides_compared hread hx (stored_boolean true) hcompares .eq
  rcases hcases with rfl | ⟨p, rfl⟩
  · exact htrue rfl
  · cases p <;> exact htrue rfl

end Tests

/-! ### All tests of fields -/

section Fields

variable {σ : Type} {c : Context σ} {search : Search} {d : Document}
  {column : ColumnRef → Except WriteError Value}

/-- Where the column is found, the document holds what `column` reads. -/
def HoldsColumn (c : Context σ) (d : Document) (column : ColumnRef → Except WriteError Value)
    (ref : ColumnRef) : Prop :=
  ∀ found, c.resolve ref = .ok found → ∃ x b, column ref = .ok x ∧ Condition.Reads d found.path b ∧ x.Keeps b

theorem reads_of_ok {ref : ColumnRef} {x : Value} (hx : column ref = .ok x) (p : Value → Bool) :
    reads column ref p = p x := by
  rw [reads, hx]

theorem decides_fieldTest (hsearch : FindsPatterns search) {t : Expression} {q : Condition}
    (h : FieldTest c t q) (hrow : ∀ ref ∈ t.columns, HoldsColumn c d column ref) (hkindred : isKindred column t) :
    ∃ truth, HasTruth column (storedTest t) truth ∧ q.Decides search d truth := by
  cases h with
  | @comparison ref found v arg op hcolumn harg =>
    obtain ⟨x, b, hx, hread, hkeeps⟩ := hrow ref (by simp [columns]) found hcolumn
    rw [isKindred, reads_of_ok hx] at hkindred
    cases hnull : v.isNull with
    | true =>
      obtain rfl := eq_null_of_isNull hnull
      obtain rfl := harg.null
      exact ⟨_, hasTruth_nullTest hx op, decides_null hread hkeeps op⟩
    | false =>
      rw [hnull, Bool.false_or] at hkindred
      have hcolumn : (Expression.column ref).evaluate column = .ok x := hx
      have hl : (Expression.column ref).isNullLiteral = false := rfl
      have hr : (Expression.literal v).isNullLiteral = false := hnull
      rw [storedTest_comparison op hl hr]
      exact ⟨_, hasTruth_comparison hcolumn rfl op, decides_compared hread hkeeps harg hkindred op⟩
  | @flipped ref found v arg op hcolumn harg =>
    obtain ⟨x, b, hx, hread, hkeeps⟩ := hrow ref (by simp [columns]) found hcolumn
    rw [isKindred, reads_of_ok hx] at hkindred
    cases hnull : v.isNull with
    | true =>
      obtain rfl := eq_null_of_isNull hnull
      obtain rfl := harg.null
      exact ⟨_, hasTruth_nullTest hx op.flip, decides_null hread hkeeps op.flip⟩
    | false =>
      rw [hnull, Bool.false_or] at hkindred
      have hflip : (x.compare? v).map op.flip.holds = (v.compare? x).map op.holds := by
        rw [compare?_swap v x, Option.map_map]
        exact congrArg (Option.map · _) (funext fun o => op.holds_flip o)
      have hcolumn : (Expression.column ref).evaluate column = .ok x := hx
      have hl : (Expression.literal v).isNullLiteral = false := hnull
      have hr : (Expression.column ref).isNullLiteral = false := rfl
      rw [storedTest_comparison op hl hr]
      exact ⟨_, hasTruth_comparison rfl hcolumn op, hflip ▸ decides_compared hread hkeeps harg hkindred op.flip⟩
  | @isIn ref found vs args negated hcolumn hargs =>
    obtain ⟨x, b, hx, hread, hkeeps⟩ := hrow ref (by simp [columns]) found hcolumn
    have hcompares : ComparesAll x vs := by
      intro v hv
      have hitem : v.isNull || reads column ref (·.comparesWith v) :=
        List.all_eq_true.mp hkindred (.literal v) (mem_map_of_mem hv)
      rwa [reads_of_ok hx] at hitem
    exact ⟨_, hasTruth_item hx hcompares negated, decides_item hread hkeeps hargs hcompares negated⟩
  | @isNull ref found negated hcolumn =>
    obtain ⟨x, b, hx, hread, hkeeps⟩ := hrow ref (by simp [columns]) found hcolumn
    refine ⟨_, hasTruth_isNull hx negated, ?_⟩
    cases negated with
    | false =>
      rw [Bool.bne_false]
      exact decides_null hread hkeeps .eq
    | true =>
      rw [Bool.bne_true]
      exact decides_null hread hkeeps .neq
  | @like ref found pattern text escape negated hcolumn htext =>
    obtain ⟨x, b, hx, hread, hkeeps⟩ := hrow ref (by simp [columns]) found hcolumn
    rw [isKindred, reads_of_ok hx, htext] at hkindred
    have hfound : ∃ t, x.isNull = false →
        x.isExact ∧ x.text? = some t ∧ isSearchable (.ofPattern text escape) t := by
      rcases Bool.or_eq_true_iff.mp hkindred with hnull | hkindred
      · exact ⟨"", fun hpresent => by rw [hnull] at hpresent; cases hpresent⟩
      · obtain ⟨hexact, hkindred⟩ := Bool.and_eq_true_iff.mp hkindred
        cases ht : x.text? with
        | none => rw [ht] at hkindred; cases hkindred
        | some t => rw [ht] at hkindred; exact ⟨t, fun _ => ⟨hexact, rfl, hkindred⟩⟩
    obtain ⟨t, ht⟩ := hfound
    exact ⟨_, hasTruth_like hx htext (fun hnull => (ht hnull).2.1) escape negated,
      decides_pattern hsearch hread hkeeps ht negated⟩
  | @column ref found hcolumn =>
    obtain ⟨x, b, hx, hread, hkeeps⟩ := hrow ref (by simp [columns]) found hcolumn
    rw [isKindred, reads_of_ok hx] at hkindred
    exact ⟨_, ⟨x, hx, rfl⟩, decides_truthValue hread hkeeps hkindred⟩

end Fields

end Expression

end Pushdown
