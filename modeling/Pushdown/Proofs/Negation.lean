import Pushdown.Bson.Path
import Pushdown.Proofs.Matching

/-!
# Negated conditions

`accepts_iff_truth`: a condition that is negated test by test decides a document as three-valued logic does
(`Decides`): the condition accepts the documents on which its `truth` is true, its negation those on which it is
false, and neither those on which it is unknown because a field is null or not there.
-/

namespace Pushdown

open List Bson MatchOp Bool

/-! ### Three truth values -/

namespace Truth

/-- Conjunction, where `none` is not known. -/
def and : Option Bool → Option Bool → Option Bool
  | some false, _ => some false
  | some true, t => t
  | none, some false => some false
  | none, _ => none

def or : Option Bool → Option Bool → Option Bool
  | some true, _ => some true
  | some false, t => t
  | none, some true => some true
  | none, _ => none

def all (ts : List (Option Bool)) : Option Bool := ts.foldr and (some true)

def any (ts : List (Option Bool)) : Option Bool := ts.foldr or (some false)

theorem all_eq_true (ts : List (Option Bool)) : (all ts == some true) = ts.all (· == some true) := by
  induction ts with
  | nil => rfl
  | cons t ts ih =>
    rw [all_cons, ← ih]
    show (and t (all ts) == some true) = _
    rcases t with _ | _ | _ <;> rcases all ts with _ | _ | _ <;> rfl

end Truth

/-! ### Single values -/

namespace Bson

def isSingle : List String → Bson → Bool
  | [], b => !b.isArray
  | _ :: _, .array _ => false
  | name :: names, .document fields =>
    match Document.get? fields name with
    | some b => isSingle names b
    | none => true
  | _ :: _, _ => true

theorem reachField_eq (name : String) (names : List String) (fields : Document) :
    reachField name names fields =
      match Document.get? fields name with
      | some b => reach names b
      | none => [none] := by
  induction fields with
  | nil => rfl
  | cons f fields ih =>
    obtain ⟨key, b⟩ := f
    rw [reachField, Document.get?_cons, ih]
    split <;> rfl

variable {names : List String}

theorem reach_of_isSingle {b : Bson} (h : isSingle names b) : reach names b = [follow? names b] := by
  induction names generalizing b with
  | nil => cases b <;> rfl
  | cons name names ih =>
    cases b with
    | document fields =>
      rw [isSingle] at h
      show reachField name names fields = [(Document.get? fields name).bind (follow? names)]
      rw [reachField_eq]
      split at h
      · rename_i c hget
        rw [hget]
        exact ih h
      · rename_i hget
        rw [hget]
        rfl
    | array items => cases h
    | _ => rfl

theorem not_isArray_of_isSingle {b c : Bson} (h : isSingle names b) (hc : follow? names b = some c) :
    c.isArray = false := by
  induction names generalizing b with
  | nil =>
    cases hc
    rwa [isSingle, Bool.not_eq_eq_eq_not, Bool.not_true] at h
  | cons name names ih =>
    cases b with
    | document fields =>
      rw [isSingle] at h
      rw [follow?, step?] at hc
      split at h
      · rename_i e hget
        rw [hget] at hc
        exact ih h hc
      · rename_i hget
        rw [hget] at hc
        cases hc
    | array items => cases h
    | _ => cases hc

theorem spread_of_not_isArray {b : Option Bson} (h : ∀ c, b = some c → c.isArray = false) : spread b = [b] := by
  rcases b with _ | b
  · rfl
  · cases b with
    | array items => cases h _ rfl
    | _ => rfl

end Bson

/-! ### Tests of one value -/

variable {arg : Bson} {args : List Bson}

namespace Bson

variable {b : Option Bson}

def isConstant : Bson → Bool
  | .string _ | .boolean _ | .dateTime _ | .binary .. | .objectId _ | .int32 _ | .int64 _ => true
  | .double x => !x.isNaN
  | _ => false

/-- Null or not there. -/
def isAbsent (b : Option Bson) : Bool := b.all isNullish

theorem order_rank {a b : Bson} (h : order a b = .eq) : a.rank = b.rank := by
  unfold order at h
  split at h
  · rfl
  · rfl
  · rw [Ordering.then_eq_eq] at h
    exact Std.LawfulEqOrd.eq_of_compare h.1

theorem rank_ge (b : Bson) : -1 ≤ b.rank := by cases b <;> simp [rank]

theorem rank_of_isConstant (h : arg.isConstant) : 10 ≤ arg.rank := by
  cases arg <;> simp_all [isConstant, rank]

theorem isNaN_of_isConstant (h : arg.isConstant) : arg.isNaN = false := by
  cases arg <;> simp_all [isConstant, isNaN]

theorem stands_null (op : MatchOp) (b : Option Bson) : stands op .null b = (isAbsent b && op.holds .eq) := by
  rcases b with _ | b
  · rfl
  · cases b <;> rfl

theorem stands_of_isAbsent (h : arg.isConstant) (hb : isAbsent b) (op : MatchOp) : stands op arg b = false := by
  have hrank := rank_of_isConstant h
  have hlow : rankMaybe b = 0 ∨ rankMaybe b = 5 := by
    rcases b with _ | b
    · exact .inl rfl
    · simpa [isAbsent, isNullish, rankMaybe] using hb
  rw [stands.eq_def, if_neg (by omega), if_neg (by omega)]
  cases arg <;> first | rfl | cases h

theorem stands_constant {b : Bson} (h : arg.isConstant) (hb : b.isNaN = false) (op : MatchOp) :
    stands op arg (some b) = (b.rank == arg.rank && op.holds (order b arg)) := by
  have hrank := rank_of_isConstant h
  have hlow := rank_ge b
  rw [stands.eq_def]
  by_cases heq : b.rank = arg.rank
  · simp [rankMaybe, heq, hb, isNaN_of_isConstant h]
  · rw [if_neg (by simpa [rankMaybe] using heq), if_neg (by simp only [rankMaybe]; omega)]
    have hne : (b.rank == arg.rank) = false := by simpa using heq
    rw [hne, Bool.false_and]
    cases arg <;> first | rfl | cases h

theorem stands_eq_constant {b : Bson} (h : arg.isConstant) (hb : b.isNaN = false) :
    stands .eq arg (some b) = (order b arg == .eq) := by
  rw [stands_constant h hb, holds]
  cases horder : order b arg with
  | eq => simp [order_rank horder]
  | _ => exact and_false _

theorem isAmong_append (search : Search) (as bs : List Bson) (b : Option Bson) :
    isAmong search (as ++ bs) b = (isAmong search as b || isAmong search bs b) := any_append ..

theorem isAmong_of_isAbsent (search : Search) (h : ∀ arg ∈ args, arg.isConstant) (hb : isAbsent b) :
    isAmong search args b = false := by
  refine any_eq_false.mpr fun arg harg => ?_
  have hconst := h arg harg
  have hstands := stands_of_isAbsent hconst hb .eq
  cases arg with
  | regex pattern options => cases hconst
  | _ => simp [hstands]

theorem exists_of_present (h : isAbsent b = false) : ∃ c, b = some c ∧ c.isNullish = false := by
  rcases b with _ | c
  · cases h
  · exact ⟨c, rfl, h⟩

theorem isAmong_constants (search : Search) (h : ∀ arg ∈ args, arg.isConstant) {b : Bson} (hb : b.isNaN = false) :
    isAmong search args (some b) = args.any fun arg => order b arg == .eq := by
  induction args with
  | nil => rfl
  | cons arg args ih =>
    have harg := h arg (mem_cons_self ..)
    rw [isAmong, any_cons, any_cons, ← stands_eq_constant harg hb]
    congr 1
    · cases arg <;> first | rfl | cases harg
    · exact ih fun a ha => h a (mem_cons_of_mem _ ha)

end Bson

namespace Condition

variable {search : Search} {d : Document}

def Reads (d : Document) (field : String) (b : Option Bson) : Prop :=
  isMarked field = false ∧ Bson.isSingle (Path.split field) (.document d) = true ∧ Document.atPath? d field = b

theorem satisfies_under {field : String} {b : Option Bson} (h : Reads d field b) {tests : Document}
    (htests : tests.head?.any fun f => isMarked f.1) :
    satisfies search (under (some field) tests) (.document d) =
      testAll search [b] (optionsIn tests) tests := by
  obtain ⟨hfield, hsingle, rfl⟩ := h
  have hspread : (reach (Path.split field) (.document d)).flatMap spread =
      [Document.atPath? d field] := by
    rw [reach_of_isSingle hsingle, flatMap_singleton]
    exact spread_of_not_isArray fun c hc => not_isArray_of_isSingle hsingle hc
  rw [under, satisfies_cons, clause, satisfies_nil, Bool.and_true, hspread]
  simp only [hfield, htests, Bool.false_eq_true, if_false, if_true]

theorem isMarked_name (op : MatchOp) : isMarked op.name = true := by cases op <;> decide +kernel

theorem testAll_comparison (h : arg.isConstant) (b : Option Bson) (op : MatchOp) (options : String) :
    testAll search [b] options (comparisonTest op arg) =
      if op = .ne then !(stands .eq arg b || isAbsent b) else stands op arg b := by
  have hnull : arg.isNull = false := by cases arg <;> first | rfl | cases h
  have hregex : isAmong search [arg, .null] b = (stands .eq arg b || isAbsent b) := by
    have hsame : isAmong search [arg] b = stands .eq arg b := by
      cases arg <;> first | exact Bool.or_false _ | cases h
    rw [show [arg, null] = [arg] ++ [.null] from rfl, isAmong_append, hsame, isAmong]
    simp [stands_null, holds]
  have htest : ∀ op, test search [b] options op arg = scalarTest search [b] options op arg := by
    cases arg <;> first | exact fun _ => rfl | cases h
  cases op with
  | ne =>
    rw [comparisonTest, if_pos ⟨rfl, by rw [hnull]; rfl⟩, testAll_cons, testAll_nil, test_nin,
      Bool.and_true, ← hregex]
    simp
  | _ => simp [comparisonTest, testAll_cons, testAll_nil, htest, scalarTest_name]

theorem testAll_null (b : Option Bson) (op : MatchOp) (options : String) :
    testAll search [b] options (comparisonTest op .null) =
      if op = .ne then !isAbsent b else isAbsent b && op.holds .eq := by
  cases op <;> simp [comparisonTest, testAll_cons, testAll_nil, test_null, scalarTest_name,
    stands_null, holds, isNull]

theorem testAll_isIn (args : List Bson) (b : Option Bson) (options : String) :
    testAll search [b] options (isInTest args false) = isAmong search args b := by
  simp [isInTest, testAll_cons, testAll_nil, test_in]

theorem testAll_not_isIn (args : List Bson) (b : Option Bson) (options : String) :
    testAll search [b] options (isInTest args true) =
      !(isAmong search args b || isAbsent b) := by
  have hnull : isAmong search [.null] b = isAbsent b := by
    simp [isAmong, stands_null, holds]
  have hlist : isAmong search (if args.any isNull then args else args ++ [.null]) b =
      (isAmong search args b || isAbsent b) := by
    split
    · rename_i hany
      -- null is one of the values already
      obtain ⟨arg, harg, hisNull⟩ := any_eq_true.mp hany
      obtain rfl : arg = .null := by cases arg <;> first | rfl | cases hisNull
      cases habsent : isAbsent b with
      | false => rw [Bool.or_false]
      | true =>
        rw [Bool.or_true]
        exact any_eq_true.mpr ⟨.null, harg, by simp [stands_null, habsent, holds]⟩
    · rw [isAmong_append, hnull]
  rw [← hlist]
  simp [isInTest, testAll_cons, testAll_nil, test_nin]

theorem testAll_regex (pattern options : String) (b : Option Bson) (negated : Bool) :
    testAll search [b] (optionsIn (regexTest pattern options negated)) (regexTest pattern options negated) =
      if negated then !(found search pattern options b || isAbsent b)
      else found search pattern options b := by
  have hoptions : Bson.optionsIn [("$regex", .string pattern), ("$options", .string options)] = options := rfl
  cases negated with
  | false => simp [regexTest, hoptions, testAll_cons, testAll_nil, test_regex, test_options]
  | true =>
    have hne : Bson.scalarTest search [b] (Bson.optionsIn (regexTest pattern options true)) "$ne" .null =
        !isAbsent b := by
      rw [show "$ne" = MatchOp.ne.name from rfl, Bson.scalarTest_name]
      simp [stands_null, holds]
    simp only [regexTest, if_true] at hne
    simp [regexTest, hoptions, testAll_cons, testAll_nil, test_not, test_regex,
      test_options, test_null, hne]

/-! ### Deciding a document -/

/-- The condition accepts the document when the truth value is true, and its negation does when it is
false. -/
structure Decides (search : Search) (d : Document) (q : Condition) (t : Option Bool) : Prop where
  yes : q.accepts search d = (t == some true)
  no : q.negate.accepts search d = (t == some false)

/-- Each condition of a list decides the document. -/
def DecidesAll (search : Search) (d : Document) : List Condition → List (Option Bool) → Prop
  | [], [] => True
  | q :: qs, t :: ts => Decides search d q t ∧ DecidesAll search d qs ts
  | _, _ => False

theorem satisfiesAll_toDocuments (qs : List Condition) :
    satisfiesAll search (toDocuments qs) (.document d) = qs.all fun q => q.accepts search d := by
  induction qs with
  | nil => rfl
  | cons q qs ih => rw [toDocuments, satisfiesAll_cons, ih, all_cons, accepts]

theorem satisfiesSome_toDocuments (qs : List Condition) :
    satisfiesSome search (toDocuments qs) (.document d) = qs.any fun q => q.accepts search d := by
  induction qs with
  | nil => rfl
  | cons q qs ih => rw [toDocuments, satisfiesSome_cons, ih, any_cons, accepts]

theorem accepts_and (qs : List Condition) :
    (Condition.and qs).accepts search d = qs.all fun q => q.accepts search d := by
  rw [← satisfiesAll_toDocuments]
  rcases qs with _ | ⟨q, _ | ⟨r, qs⟩⟩
  · simp [accepts, toDocument, toDocuments, satisfies_cons, satisfies_nil, clause_and]
  · simp [accepts, toDocument, toDocuments, satisfiesAll]
  · simp [accepts, toDocument, satisfies_cons, satisfies_nil, clause_and]

theorem accepts_or (qs : List Condition) :
    (Condition.or qs).accepts search d = qs.any fun q => q.accepts search d := by
  rw [← satisfiesSome_toDocuments]
  rcases qs with _ | ⟨q, _ | ⟨r, qs⟩⟩
  · simp [accepts, toDocument, toDocuments, satisfies_cons, satisfies_nil, clause_or]
  · simp [accepts, toDocument, toDocuments, satisfiesSome]
  · simp [accepts, toDocument, satisfies_cons, satisfies_nil, clause_or]

namespace DecidesAll

variable {qs : List Condition} {ts : List (Option Bool)}

theorem truths (h : DecidesAll search d qs ts) :
    (qs.all fun q => q.accepts search d) = (Truth.all ts == some true) ∧
      (qs.any fun q => q.accepts search d) = (Truth.any ts == some true) ∧
      ((negateAll qs).all fun q => q.accepts search d) = (Truth.any ts == some false) ∧
      ((negateAll qs).any fun q => q.accepts search d) = (Truth.all ts == some false) := by
  induction qs generalizing ts with
  | nil =>
    cases ts with
    | nil => exact ⟨rfl, rfl, rfl, rfl⟩
    | cons t ts => cases h
  | cons q qs ih =>
    cases ts with
    | nil => cases h
    | cons t ts =>
      obtain ⟨hall, hany, hnone, hsome⟩ := ih h.2
      have hcons : Truth.all (t :: ts) = Truth.and t (Truth.all ts) := rfl
      have hcons' : Truth.any (t :: ts) = Truth.or t (Truth.any ts) := rfl
      simp only [negateAll, all_cons, any_cons, h.1.yes, h.1.no, hall, hany, hnone, hsome, hcons, hcons']
      rcases t with _ | _ | _ <;> rcases Truth.all ts with _ | _ | _ <;>
        rcases Truth.any ts with _ | _ | _ <;> exact ⟨rfl, rfl, rfl, rfl⟩

theorem and (h : DecidesAll search d qs ts) : Decides search d (.and qs) (Truth.all ts) where
  yes := by rw [accepts_and, h.truths.1]
  no := by rw [negate, accepts_or, h.truths.2.2.2]

theorem or (h : DecidesAll search d qs ts) : Decides search d (.or qs) (Truth.any ts) where
  yes := by rw [accepts_or, h.truths.2.1]
  no := by rw [negate, accepts_and, h.truths.2.2.1]

end DecidesAll

/-! ### Truth of conditions -/

/-- A truth value that depends on a value that may be null or not there, and is not known then. -/
def ofPresent (b : Option Bson) (t : Bson → Option Bool) : Option Bool :=
  match b with
  | some b => if b.isNullish then none else t b
  | none => none

/-- Whether a value stands in the relation to a constant. An order between values of different kinds
is not known. -/
def comparisonTruth (op : MatchOp) (arg b : Bson) : Option Bool :=
  if op = .eq ∨ op = .ne ∨ b.rank = arg.rank then some (op.holds (b.order arg)) else none

mutual

/-- The truth value of a condition on a document, where tests of fields that are null or not there
are not known. -/
def truth (search : Search) (d : Document) : Condition → Option Bool
  | .and terms => Truth.all (truths search d terms)
  | .or terms => Truth.any (truths search d terms)
  | .comparison (some field) op arg => ofPresent (Document.atPath? d field) (comparisonTruth op arg)
  | .isIn (some field) args negated =>
    ofPresent (Document.atPath? d field) fun b => some ((args.any fun arg => b.order arg == .eq) != negated)
  | .regex (some field) pattern options negated =>
    ofPresent (Document.atPath? d field) fun b => some (Bson.found search pattern options (some b) != negated)
  | _ => none

def truths (search : Search) (d : Document) : List Condition → List (Option Bool)
  | [] => []
  | q :: qs => truth search d q :: truths search d qs

end

mutual

/-- Whether a condition is built by `and` and `or` from tests of fields against constants. A field that starts
with `$` does not count, since the store reads it as an operator, nor does a connective without terms, which
the store refuses. -/
def isPlain : Condition → Bool
  | .and terms => !terms.isEmpty && allPlain terms
  | .or terms => !terms.isEmpty && allPlain terms
  | .comparison (some field) _ arg => !isMarked field && arg.isConstant
  | .isIn (some field) args _ => !isMarked field && args.all Bson.isConstant
  | .regex (some field) _ _ _ => !isMarked field
  | _ => false

def allPlain : List Condition → Bool
  | [] => true
  | q :: qs => isPlain q && allPlain qs

end

mutual

def fields : Condition → List String
  | .and terms => fieldsOf terms
  | .or terms => fieldsOf terms
  | .nor terms => fieldsOf terms
  | .comparison field _ _ => field.toList
  | .isIn field _ _ => field.toList
  | .regex field _ _ _ => field.toList
  | .elemMatch field _ => [field]
  | .expr _ => []

def fieldsOf : List Condition → List String
  | [] => []
  | q :: qs => fields q ++ fieldsOf qs

end

/-- Whether a field of a document holds no array, nor lies in one, and is not NaN. -/
def isScalar (d : Document) (field : String) : Bool :=
  Bson.isSingle (Path.split field) (.document d) && !(Document.atPath? d field).any Bson.isNaN

section Tests

variable {field : String} {b : Option Bson}

theorem ofPresent_of_isAbsent (h : isAbsent b) (t : Bson → Option Bool) : ofPresent b t = none := by
  rcases b with _ | b
  · rfl
  · exact if_pos h

theorem ofPresent_of_present {b : Bson} (h : b.isNullish = false) (t : Bson → Option Bool) :
    ofPresent (some b) t = t b := if_neg (by rw [h]; exact false_ne_true)

theorem accepts_comparison (hread : Reads d field b) (hnan : b.any isNaN = false) (h : arg.isConstant)
    (op : MatchOp) :
    (Condition.comparison (some field) op arg).accepts search d =
      (ofPresent b (comparisonTruth op arg) == some true) := by
  have hmarked : (comparisonTest op arg).head?.any fun f => isMarked f.1 := by
    rw [comparisonTest]
    split
    · simp [isMarked]
    · exact isMarked_name op
  rw [accepts, toDocument, satisfies_under hread hmarked, testAll_comparison h]
  cases habsent : isAbsent b with
  | true =>
    rw [Bool.or_true, ofPresent_of_isAbsent habsent]
    split
    · rfl
    · exact stands_of_isAbsent h habsent op
  | false =>
    obtain ⟨c, rfl, hpresent⟩ := exists_of_present habsent
    rw [ofPresent_of_present hpresent, comparisonTruth, Bool.or_false, stands_eq_constant h hnan,
      stands_constant h hnan]
    by_cases heq : op = .eq
    · subst heq
      cases horder : c.order arg with
      | eq => simp [holds, order_rank horder]
      | _ => simp [holds]
    · by_cases hne : op = .ne
      · subst hne
        cases c.order arg <;> rfl
      · by_cases hrank : c.rank = arg.rank <;> simp [heq, hne, hrank]

theorem ofPresent_map (t : Bson → Option Bool) (f : Bool → Bool) :
    ofPresent b (fun b => (t b).map f) = (ofPresent b t).map f := by
  rcases b with _ | b
  · rfl
  · rw [ofPresent, ofPresent]
    split <;> rfl

theorem map_not_eq (t : Option Bool) : (t.map (!·) == some true) = (t == some false) := by
  rcases t with _ | _ | _ <;> rfl

theorem decides_comparison (hread : Reads d field b) (hnan : b.any isNaN = false) (h : arg.isConstant)
    (op : MatchOp) : Decides search d (.comparison (some field) op arg) (ofPresent b (comparisonTruth op arg)) where
  yes := accepts_comparison hread hnan h op
  no := by
    have hnegate : comparisonTruth op.negate arg = fun b => (comparisonTruth op arg b).map (!·) := by
      funext b
      rw [comparisonTruth, comparisonTruth, holds_negate]
      by_cases hrank : b.rank = arg.rank
      · simp [hrank]
      · cases op <;> simp [MatchOp.negate, hrank]
    rw [negate, accepts_comparison hread hnan h, hnegate, ofPresent_map, map_not_eq]

theorem accepts_isIn (hread : Reads d field b) (hnan : b.any isNaN = false) (h : ∀ arg ∈ args, arg.isConstant)
    (negated : Bool) :
    (Condition.isIn (some field) args negated).accepts search d =
      (ofPresent b (fun b => some ((args.any fun arg => b.order arg == .eq) != negated)) == some true) := by
  have hmarked : (isInTest args negated).head?.any fun f => isMarked f.1 := by
    rw [isInTest]
    split <;> simp [isMarked]
  rw [accepts, toDocument, satisfies_under hread hmarked]
  cases habsent : isAbsent b with
  | true =>
    rw [ofPresent_of_isAbsent habsent]
    cases negated with
    | false => rw [testAll_isIn, isAmong_of_isAbsent search h habsent]; rfl
    | true => rw [testAll_not_isIn, habsent, Bool.or_true]; rfl
  | false =>
    obtain ⟨c, rfl, hpresent⟩ := exists_of_present habsent
    rw [ofPresent_of_present hpresent]
    cases negated with
    | false => rw [testAll_isIn, isAmong_constants search h hnan]; simp
    | true => rw [testAll_not_isIn, isAmong_constants search h hnan, habsent]; simp

theorem not_bne (x y : Bool) : (x != !y) = !(x != y) := by cases x <;> cases y <;> rfl

theorem accepts_regex (hread : Reads d field b) (pattern options : String) (negated : Bool) :
    (Condition.regex (some field) pattern options negated).accepts search d =
      (ofPresent b (fun b => some (found search pattern options (some b) != negated)) == some true) := by
  have hmarked : (regexTest pattern options negated).head?.any fun f => isMarked f.1 := by
    rw [regexTest]
    split <;> simp [isMarked]
  rw [accepts, toDocument, satisfies_under hread hmarked, testAll_regex]
  cases habsent : isAbsent b with
  | true =>
    have hnone : found search pattern options b = false := by
      rcases b with _ | b
      · rfl
      · cases b <;> first | rfl | cases habsent
    rw [ofPresent_of_isAbsent habsent, hnone]
    cases negated <;> rfl
  | false =>
    obtain ⟨c, rfl, hpresent⟩ := exists_of_present habsent
    rw [ofPresent_of_present hpresent, Bool.or_false]
    cases negated <;> simp

theorem decides_regex (hread : Reads d field b) (pattern options : String) (negated : Bool) :
    Decides search d (.regex (some field) pattern options negated)
      (ofPresent b fun b => some (found search pattern options (some b) != negated)) where
  yes := accepts_regex hread pattern options negated
  no := by
    rw [negate, accepts_regex hread, ← map_not_eq, ← ofPresent_map]
    simp only [not_bne, Option.map_some]

end Tests

theorem reads_of_isScalar {field : String} (hfield : isMarked field = false) (h : isScalar d field) :
    Reads d field (Document.atPath? d field) ∧ (Document.atPath? d field).any isNaN = false := by
  obtain ⟨hsingle, hnan⟩ := and_eq_true_iff.mp h
  exact ⟨⟨hfield, hsingle, rfl⟩, by simpa using hnan⟩

mutual

theorem negate_negate (q : Condition) (h : q.isPlain) : q.negate.negate = q := by
  cases q with
  | and terms | or terms => rw [negate, negate, negateAll_negateAll terms (and_eq_true_iff.mp h).2]
  | comparison field op arg => rw [negate, negate, MatchOp.negate_negate]
  | isIn field args negated | regex field pattern options negated =>
    rw [negate, negate, Bool.not_not]
  | nor terms | elemMatch field q | expr e => cases h

theorem negateAll_negateAll (qs : List Condition) (h : allPlain qs) : negateAll (negateAll qs) = qs := by
  cases qs with
  | nil => rfl
  | cons q qs =>
    obtain ⟨hq, hqs⟩ := and_eq_true_iff.mp h
    rw [negateAll, negateAll, negate_negate q hq, negateAll_negateAll qs hqs]

end

mutual

theorem decides_truth (q : Condition) (h : q.isPlain) (hd : ∀ field ∈ q.fields, isScalar d field) :
    Decides search d q (q.truth search d) := by
  cases q with
  | and terms => exact (decidesAll_truths terms (and_eq_true_iff.mp h).2 hd).and
  | or terms => exact (decidesAll_truths terms (and_eq_true_iff.mp h).2 hd).or
  | comparison field op arg =>
    cases field with
    | none => cases h
    | some field =>
      obtain ⟨hfield, harg⟩ := and_eq_true_iff.mp h
      obtain ⟨hread, hnan⟩ := reads_of_isScalar (by simpa using hfield) (hd field (by simp [fields]))
      exact decides_comparison hread hnan harg op
  | isIn field args negated =>
    cases field with
    | none => cases h
    | some field =>
      obtain ⟨hfield, hargs⟩ := and_eq_true_iff.mp h
      obtain ⟨hread, hnan⟩ := reads_of_isScalar (by simpa using hfield) (hd field (by simp [fields]))
      refine ⟨accepts_isIn hread hnan (List.all_eq_true.mp hargs) negated, ?_⟩
      rw [negate, accepts_isIn hread hnan (List.all_eq_true.mp hargs), ← map_not_eq, truth, ← ofPresent_map]
      simp only [not_bne, Option.map_some]
  | regex field pattern options negated =>
    cases field with
    | none => cases h
    | some field =>
      have hfield : isMarked field = false := by simpa [isPlain] using h
      exact decides_regex (reads_of_isScalar hfield (hd field (by simp [fields]))).1 pattern options negated
  | nor terms | elemMatch field q | expr e => cases h

theorem decidesAll_truths (qs : List Condition) (h : allPlain qs)
    (hd : ∀ field ∈ fieldsOf qs, isScalar d field) : DecidesAll search d qs (truths search d qs) := by
  cases qs with
  | nil => exact True.intro
  | cons q qs =>
    obtain ⟨hq, hqs⟩ := and_eq_true_iff.mp h
    exact ⟨decides_truth q hq fun f hf => hd f (mem_append_left _ hf),
      decidesAll_truths qs hqs fun f hf => hd f (mem_append_right _ hf)⟩

end

/-- Negation moved down to the tests is negation in three-valued logic, and the negation of the negation is the
condition. -/
theorem accepts_iff_truth (search : Search) {q : Condition} (hq : q.isPlain) {d : Document}
    (hd : ∀ field ∈ q.fields, isScalar d field) :
    (q.accepts search d = true ↔ q.truth search d = some true) ∧
      (q.negate.accepts search d = true ↔ q.truth search d = some false) ∧ q.negate.negate = q := by
  have h : Decides search d q (q.truth search d) := decides_truth q hq hd
  refine ⟨?_, ?_, negate_negate q hq⟩
  · rw [h.yes, beq_iff_eq]
  · rw [h.no, beq_iff_eq]

def literalSearch : Search := fun pattern _ text =>
  (List.range (text.length + 1)).any fun i => pattern.toList.isPrefixOf (text.toList.drop i)

def mixedTests : Condition :=
  .or [
    .and [.comparison (some "n") .gt (.double 2.5), .comparison (some "gone") .ne (.string "x")],
    .isIn (some "k.t") [.string "u", .int32 1] false,
    .regex (some "k.t") "ab" "s" true]

def mixedDocument : Document := [("n", .int64 2), ("k", .document [("t", .string "cab")])]

theorem accepts_negate_mixedTests :
    mixedTests.isPlain ∧ (∀ field ∈ mixedTests.fields, isScalar mixedDocument field) ∧
      ¬mixedTests.accepts literalSearch mixedDocument = true ∧
      mixedTests.negate.accepts literalSearch mixedDocument = true := by
  have hq : mixedTests.isPlain := by decide +kernel
  have hd : ∀ field ∈ mixedTests.fields, isScalar mixedDocument field := by decide +kernel
  have htruth : mixedTests.truth literalSearch mixedDocument = some false := by decide +kernel
  obtain ⟨hyes, hno, -⟩ := accepts_iff_truth literalSearch hq hd
  refine ⟨hq, hd, fun h => ?_, hno.mpr htruth⟩
  rw [hyes, htruth] at h
  cases h

/-- A test of a field that starts with `$` is true of a document that its condition does not accept. -/
theorem not_accepts_marked :
    let q := Condition.comparison (some "$x") .eq (.int32 1)
    let d : Document := [("$x", .int32 1)]
    (Bson.int32 1).isConstant ∧ (∀ field ∈ q.fields, isScalar d field) ∧
      q.truth literalSearch d = some true ∧ ¬q.accepts literalSearch d = true := by
  decide +kernel

end Condition

end Pushdown
