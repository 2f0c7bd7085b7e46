import Pushdown.Proofs.FieldTests
import Pushdown.Proofs.PlainValue

/-!
# Computed values

`storeValue`: what the store computes for an expression over columns and constants (`compute?_compile`). Comparisons
have two values there: NULL has its place in the order of all values, below the others. A value other than NULL is
computed as it is evaluated (`Agrees`), unless NULL is asked for where something had to be computed (`isSettled`);
one that is NULL may be computed as any truth value.
-/

namespace Pushdown

open List Attempt Bson Value Bool

variable {b : Bson} {v : Value}

namespace Bson

theorem readField?_eq (name : String) (names : List String) (fields : Document) :
    readField? name names fields = (Document.get? fields name).bind (read? names) := by
  induction fields with
  | nil => rfl
  | cons f fields ih =>
    obtain ⟨key, b⟩ := f
    rw [readField?, Document.get?_cons, ih]
    split <;> rfl

theorem read?_of_isSingle {names : List String} (h : isSingle names b) : read? names b = follow? names b := by
  induction names generalizing b with
  | nil => cases b <;> rfl
  | cons name names ih =>
    cases b with
    | document fields =>
      rw [isSingle] at h
      show readField? name names fields = (Document.get? fields name).bind (follow? names)
      rw [readField?_eq]
      cases hget : Document.get? fields name with
      | none => rfl
      | some b =>
        rw [hget] at h
        exact ih h
    | array items => cases h
    | _ => rfl

end Bson

namespace Value

theorem stored?_of_stored (hv : v.isNull || v.isExact) (h : v.Stored b) : v.stored? = some b := by
  obtain ⟨σ, objects, s, s', h⟩ := h
  cases v with
  | bigDecimal text =>
    rw [toStored] at h
    rw [stored?, toStored]
    cases hread : readFloat? text with
    | none => rw [hread] at h; cases h
    | some x => rw [hread] at h; cases h; rfl
  | varbinary bytes | blob bytes | clob text | xml text | array items => cases hv
  | _ => cases h; rfl

end Value

namespace Expression

mutual

/-- Whether an expression is built from columns and constants by comparisons, lists, tests for NULL
and logic. -/
def isRelational : Expression → Bool
  | .column _ => true
  | .literal v => v.isNull || v.isExact
  | .comparison _ left right => isRelational left && isRelational right
  | .and terms => allRelational terms
  | .or terms => allRelational terms
  | .not term => isRelational term
  | .isIn input list _ => isRelational input && allRelational list
  | .isNull input _ => isRelational input
  | _ => false

def allRelational : List Expression → Bool
  | [] => true
  | e :: es => isRelational e && allRelational es

end

mutual

/-- The value of an expression in the store, where `stored` gives what is stored of a column. -/
def storeValue (stored : ColumnRef → Option Bson) : Expression → Option Bson
  | .column ref => stored ref
  | .literal v => v.stored?
  | .comparison op left right =>
    some (.boolean (op.holds (Bson.orderMaybe (storeValue stored left) (storeValue stored right))))
  | .and terms => some (.boolean ((storeValues stored terms).all Bson.isTruthy))
  | .or terms => some (.boolean ((storeValues stored terms).any Bson.isTruthy))
  | .not term => some (.boolean !Bson.isTruthy (storeValue stored term))
  | .isIn input list negated =>
    some (.boolean (((storeValues stored list).any fun b =>
      Bson.orderMaybe (storeValue stored input) (some (b.getD .null)) == .eq) != negated))
  | .isNull input negated => some (.boolean (Bson.isAbsent (storeValue stored input) != negated))
  | _ => none

def storeValues (stored : ColumnRef → Option Bson) : List Expression → List (Option Bson)
  | [] => []
  | e :: es => storeValue stored e :: storeValues stored es

end

section Compile

variable {σ : Type} {c : Context σ} {d : Document} {stored : ColumnRef → Option Bson}

/-- Where the column is found, the document holds what is stored of it. -/
def Stores (c : Context σ) (d : Document) (stored : ColumnRef → Option Bson) (ref : ColumnRef) : Prop :=
  ∀ found, c.resolve ref = .ok found → Condition.Reads d found.path (stored ref)

theorem isMarked_fieldRef (path : String) : isMarked ("$" ++ path) = true := by
  rw [isMarked, String.toList_append]
  rfl

theorem compute?_fieldRef {path : String} {b : Option Bson} (h : Condition.Reads d path b) :
    Bson.compute? (.document d) (.fieldRef path) = b := by
  obtain ⟨-, hsingle, rfl⟩ := h
  show Bson.compute? (.document d) (.string ("$" ++ path)) = _
  rw [Bson.compute?, if_pos (isMarked_fieldRef path), afterMark_fieldRef]
  exact read?_of_isSingle hsingle

theorem compute?_constant (h : b.isNull || b.isConstant) (hs : ∀ text, b = .string text → isMarked text = false)
    (root : Bson) : Bson.compute? root b = some b := by
  cases b with
  | string text => rw [Bson.compute?, hs text rfl]; rfl
  | array items | document fields => cases h
  | _ => rfl

theorem wrapLiteral_ok {b' : Bson} (h : c.wrapLiteral b = .ok b') : b' = .op "$literal" b := by
  rw [Context.wrapLiteral] at h
  split at h
  · exact (Except.ok.inj h).symm
  · cases h

theorem compute?_compileLiteral (hv : v.isNull || v.isExact) {s s' : Draft σ} (h : compileLiteral c v s = (.ok b, s'))
    (root : Bson) : Bson.compute? root b = v.stored? := by
  obtain ⟨b', s₁, hstore, h⟩ := bind_ok h
  have hstored := store_ok hstore
  rw [stored?_of_stored hv hstored]
  have hconstant : b'.isNull || b'.isConstant := by
    rcases or_eq_true_iff.mp hv with hnull | hexact
    · obtain rfl := eq_null_of_isNull hnull
      obtain rfl := hstored.null
      rfl
    · rw [hstored.isConstant hexact, Bool.or_true]
  split at h
  · rename_i text
    split at h
    · rw [wrapLiteral_ok (ofExcept_ok h).1]
      rfl
    · rename_i hmark
      obtain ⟨rfl, -⟩ := pure_ok h
      refine compute?_constant hconstant (fun text' heq => ?_) root
      cases heq
      simpa [isMarked] using hmark
  · rename_i hstring
    obtain ⟨rfl, -⟩ := pure_ok h
    exact compute?_constant hconstant (fun text heq => absurd heq (hstring text)) root

theorem compute?_comparison (op : ComparisonOp) (root l r : Bson) :
    Bson.compute? root (.opList op.operator [l, r]) =
      some (.boolean (op.holds (orderMaybe (Bson.compute? root l) (Bson.compute? root r)))) := by
  cases op <;> rfl

theorem compute?_negatedIf {root : Bson} {p : Bool} (h : Bson.compute? root b = some (.boolean p)) (negated : Bool) :
    Bson.compute? root (negatedIf negated b) = some (.boolean (p != negated)) := by
  cases negated with
  | false => rw [negatedIf, if_neg (by decide), h, bne_false]
  | true =>
    rw [negatedIf, if_pos rfl, bne_true]
    show some (Bson.boolean !Bson.isTruthy (Bson.compute? root b)) = _
    rw [h]
    rfl

theorem order_null (h : b.isNullish = false) : order b .null ≠ .eq := by
  intro heq
  rw [isNullish, order_rank heq] at h
  cases h

theorem compute?_isNull (negated : Bool) (root b : Bson) :
    Bson.compute? root (.opList (if negated then "$ne" else "$eq") [.opList "$ifNull" [b, .null], .null]) =
      some (.boolean (isAbsent (Bson.compute? root b) != negated)) := by
  have hvalue : Bson.compute? root (.opList "$ifNull" [b, .null]) =
      if isAbsent (Bson.compute? root b) then some .null else Bson.compute? root b := rfl
  have heq : (Bson.orderMaybe (Bson.compute? root (.opList "$ifNull" [b, .null])) (some .null) == .eq) =
      isAbsent (Bson.compute? root b) := by
    rw [hvalue]
    cases habsent : isAbsent (Bson.compute? root b) with
    | true => rfl
    | false =>
      obtain ⟨b', hb, hpresent⟩ := exists_of_present habsent
      rw [if_neg (by decide), hb]
      exact beq_eq_false_iff_ne.mpr (order_null hpresent)
  rw [← heq]
  cases negated with
  | false =>
    refine (compute?_comparison .eq root (.opList "$ifNull" [b, .null]) .null).trans ?_
    rw [bne_false]
    rfl
  | true =>
    refine (compute?_comparison .neq root (.opList "$ifNull" [b, .null]) .null).trans ?_
    rw [bne_true]
    rfl

mutual

theorem compute?_compile (e : Expression) (he : e.isRelational)
    (hstores : ∀ ref ∈ e.columns, Stores c d stored ref) {b : Bson} {s s' : Draft σ}
    (h : e.compile c .raw s = (.ok b, s')) : Bson.compute? (.document d) b = e.storeValue stored := by
  cases e with
  | column ref =>
    obtain ⟨found, s₁, hfound, h⟩ := bind_ok h
    obtain ⟨_, -, rfl⟩ := bind_pure_ok h
    exact compute?_fieldRef (hstores ref (mem_singleton_self _) found (ofExcept_ok hfound).1)
  | literal v => exact compute?_compileLiteral he h _
  | comparison op left right =>
    obtain ⟨hl, hr⟩ := and_eq_true_iff.mp he
    obtain ⟨hlcolumns, hrcolumns⟩ := forall_mem_append.mp hstores
    obtain ⟨args, s₁, hargs, h⟩ := bind_ok h
    obtain ⟨l, r, s₂, hleft, hright, rfl⟩ := both_ok hargs
    obtain ⟨rfl, -⟩ := pure_ok h
    rw [compute?_comparison, compute?_compile left hl hlcolumns hleft,
      compute?_compile right hr hrcolumns hright, storeValue]
  | and terms | or terms =>
    obtain ⟨bs, hbs, rfl⟩ := bind_pure_ok h
    rw [storeValue, ← computeAll_compileAll terms he hstores hbs]
    rfl
  | not term =>
    obtain ⟨b', hb, rfl⟩ := bind_pure_ok h
    rw [storeValue, ← compute?_compile term he hstores hb]
    rfl
  | isIn input list negated =>
    obtain ⟨hinput, hlist⟩ := and_eq_true_iff.mp he
    obtain ⟨hcolumns, hlcolumns⟩ := forall_mem_append.mp hstores
    obtain ⟨i, s₁, hi, h⟩ := bind_ok h
    obtain ⟨bs, hbs, rfl⟩ := bind_pure_ok h
    have hin : Bson.compute? (.document d) (.opList "$in" [i, .array bs]) =
        some (.boolean (((computeAll (.document d) bs).map (·.getD .null)).any fun b =>
          orderMaybe (Bson.compute? (.document d) i) (some b) == .eq)) := rfl
    rw [compute?_negatedIf hin, storeValue, any_map,
      compute?_compile input hinput hcolumns hi, computeAll_compileAll list hlist hlcolumns hbs]
    rfl
  | isNull input negated =>
    obtain ⟨i, hi, rfl⟩ := bind_pure_ok h
    rw [compute?_isNull, compute?_compile input he hstores hi, storeValue]
  | like input pattern escape negated | call name args | aggregate function arg distinct => cases he

theorem computeAll_compileAll (es : List Expression) (hes : allRelational es)
    (hstores : ∀ ref ∈ columnsOf es, Stores c d stored ref) {bs : List Bson} {s s' : Draft σ}
    (h : compileAll c .raw es s = (.ok bs, s')) : computeAll (.document d) bs = storeValues stored es := by
  cases es with
  | nil => cases h; rfl
  | cons e es =>
    obtain ⟨he, hes⟩ := and_eq_true_iff.mp hes
    obtain ⟨hcolumns, hrest⟩ := forall_mem_append.mp hstores
    obtain ⟨b, bs, s₁, hb, hbs, rfl⟩ := both_ok h
    rw [computeAll, compute?_compile e he hcolumns hb, computeAll_compileAll es hes hrest hbs, storeValues]

end

end Compile

end Expression

namespace Truth

def Settles (t : Option Bool) (p : Bool) : Prop := ∀ q, t = some q → p = q

variable {t u : Option Bool} {p q : Bool} {ts : List (Option Bool)} {ps : List Bool}

theorem Settles.and (ht : Settles t p) (hu : Settles u q) : Settles (Truth.and t u) (p && q) := by
  rcases t with _ | _ | _ <;> rcases u with _ | _ | _ <;> simp_all [Settles, Truth.and]

theorem Settles.or (ht : Settles t p) (hu : Settles u q) : Settles (Truth.or t u) (p || q) := by
  rcases t with _ | _ | _ <;> rcases u with _ | _ | _ <;> simp_all [Settles, Truth.or]

theorem settles_all (h : List.Forall₂ Settles ts ps) : Settles (all ts) (ps.all id) := by
  induction h with
  | nil => exact fun q hq => Option.some.inj hq
  | cons ht _ ih => exact ht.and ih

theorem settles_any (h : List.Forall₂ Settles ts ps) : Settles (any ts) (ps.any id) := by
  induction h with
  | nil => exact fun q hq => Option.some.inj hq
  | cons ht _ ih => exact ht.or ih

theorem Settles.map_not {t : Option Bool} {p : Bool} (h : Settles t p) : Settles (t.map (!·)) !p := by
  intro q hq
  obtain ⟨q', rfl, rfl⟩ := Option.map_eq_some_iff.mp hq
  rw [h q' rfl]

end Truth

namespace Expression

def isKnown (column : ColumnRef → Except WriteError Value) (e : Expression) : Bool :=
  match e.evaluate column with
  | .ok v => !v.isNull
  | .error _ => false

def isOperand : Expression → Bool
  | .column _ | .literal _ => true
  | _ => false

mutual

/-- Whether NULL is only asked for where an expression is read, or has a value other than NULL. -/
def isSettled (column : ColumnRef → Except WriteError Value) : Expression → Bool
  | .comparison _ left right => isSettled column left && isSettled column right
  | .and terms => allSettled column terms
  | .or terms => allSettled column terms
  | .not term => isSettled column term
  | .isIn input list _ => isSettled column input && allSettled column list
  | .isNull input _ => isSettled column input && (input.isOperand || input.isKnown column)
  | _ => true

def allSettled (column : ColumnRef → Except WriteError Value) : List Expression → Bool
  | [] => true
  | e :: es => isSettled column e && allSettled column es

end

end Expression

namespace Value

variable {x y : Value} {b b' : Option Bson}

def Agrees (x : Value) (b : Option Bson) : Prop :=
  x.isNull = false → x.isExact ∧ ∃ c, b = some c ∧ x.Stored c

theorem Keeps.agrees (h : x.Keeps b) (hx : x.isNull || x.isExact) : x.Agrees b := by
  intro hnull
  rw [hnull, Bool.false_or] at hx
  rcases h with ⟨rfl, -⟩ | ⟨c, rfl, -, hstored⟩
  · cases hnull
  · exact ⟨hx, c, rfl, hstored⟩

theorem keeps_stored? (h : x.isNull || x.isExact) : x.Keeps x.stored? := by
  cases x with
  | null => exact .inl ⟨rfl, rfl⟩
  | bigDecimal text =>
    have hread : ∃ f, readFloat? text = some f := by
      cases hread : readFloat? text with
      | none => simp [isNull, isExact, hread] at h
      | some f => exact ⟨f, rfl⟩
    obtain ⟨f, hread⟩ := hread
    have hstored : toStored LargeObjects.unavailable (bigDecimal text) () = (.ok (.double f), ()) := by
      rw [toStored, hread]
      rfl
    exact .inr ⟨.double f, by rw [stored?, hstored], rfl, Unit, .unavailable, (), (), hstored⟩
  | varbinary bytes | blob bytes | clob text | xml text | array items => cases h
  | _ => exact .inr ⟨_, rfl, rfl, Unit, .unavailable, (), (), rfl⟩

theorem agrees_ofTruth {t : Option Bool} {p : Bool} (h : Truth.Settles t p) :
    (ofTruth t).Agrees (some (.boolean p)) := by
  intro hnull
  cases t with
  | none => cases hnull
  | some q =>
    obtain rfl := h q rfl
    exact ⟨rfl, _, rfl, Unit, .unavailable, (), (), rfl⟩

theorem Agrees.settles (h : x.Agrees b) : Truth.Settles x.truth? (Bson.isTruthy b) := by
  intro q hq
  cases x with
  | boolean p =>
    cases hq
    obtain ⟨-, c, rfl, hstored⟩ := h rfl
    rw [hstored.boolean]
    rfl
  | _ => cases hq

theorem Agrees.order (hx : x.Agrees b) (hy : y.Agrees b') {o : Ordering} (h : x.compare? y = some o) :
    orderMaybe b b' = o := by
  have hxnull : x.isNull = false := by
    cases x with
    | null => rw [compare?_null] at h; cases h
    | _ => rfl
  have hynull : y.isNull = false := by
    cases y with
    | null => rw [compare?_null_right] at h; cases h
    | _ => rfl
  obtain ⟨hxexact, c, rfl, hxstored⟩ := hx hxnull
  obtain ⟨hyexact, c', rfl, hystored⟩ := hy hynull
  exact (hxstored.order hystored hxexact hyexact h).2

theorem Agrees.isAbsent (h : x.Agrees b) (hnull : x.isNull = false) : isAbsent b = false := by
  obtain ⟨-, c, rfl, hstored⟩ := h hnull
  exact hstored.present hnull

end Value

namespace Expression

section Evaluate

variable {column : ColumnRef → Except WriteError Value} {stored : ColumnRef → Option Bson}
  {vs : List Value}

/-- What is stored of a column is what `column` reads, and is in its place among stored forms. -/
def ReadsExactly (column : ColumnRef → Except WriteError Value) (stored : ColumnRef → Option Bson)
    (ref : ColumnRef) : Prop :=
  ∃ x, column ref = .ok x ∧ x.Keeps (stored ref) ∧ (x.isNull || x.isExact)

def EvaluatesTo (column : ColumnRef → Except WriteError Value) (e : Expression) (v : Value) : Prop :=
  e.evaluate column = .ok v

def equal? (x v : Value) : Option Bool := (x.compare? v).map (· == .eq)

variable {es : List Expression}

theorem evaluateIn_eq (h : List.Forall₂ (EvaluatesTo column) es vs) (x : Value) :
    evaluateIn column x es = .ok (Truth.any (vs.map (equal? x))) := by
  induction h with
  | nil => rfl
  | @cons e v es vs hv hvs ih =>
    have hcons : Truth.any ((v :: vs).map (equal? x)) =
        Truth.or ((x.compare? v).map (· == .eq)) (Truth.any (vs.map (equal? x))) := rfl
    rw [evaluateIn, hv, ih, hcons]
    simp only [bind, Except.bind]
    rcases x.compare? v with _ | _ | _ | _ <;>
      rcases Truth.any (vs.map (equal? x)) with _ | _ | _ <;> rfl

theorem settles_equal {x : Value} {b b' : Option Bson} (hx : x.Agrees b) (hv : v.Agrees b') :
    Truth.Settles (equal? x v) (orderMaybe b (some (b'.getD .null)) == .eq) := by
  intro q hq
  obtain ⟨o, ho, rfl⟩ := Option.map_eq_some_iff.mp hq
  have hnull : v.isNull = false := by
    cases v with
    | null => rw [compare?_null_right] at ho; cases ho
    | _ => rfl
  obtain ⟨-, c, rfl, -⟩ := hv hnull
  rw [Option.getD_some, hx.order hv ho]

theorem hasTruths_of_evaluate (h : List.Forall₂ (EvaluatesTo column) es vs) :
    List.Forall₂ (HasTruth column) es (vs.map truth?) :=
  forall₂_map_right_iff.mpr (h.imp fun _ v hv => ⟨v, hv, rfl⟩)

theorem settles_truths {bs : List (Option Bson)} (h : List.Forall₂ Value.Agrees vs bs) :
    List.Forall₂ Truth.Settles (vs.map truth?) (bs.map Bson.isTruthy) :=
  forall₂_map_left_iff.mpr (forall₂_map_right_iff.mpr (h.imp fun _ _ hv => hv.settles))

theorem keeps_of_isOperand {e : Expression} (h : e.isOperand) (he : e.isRelational)
    (hcolumns : ∀ ref ∈ e.columns, ReadsExactly column stored ref) :
    ∃ v, EvaluatesTo column e v ∧ v.Keeps (e.storeValue stored) ∧ (v.isNull || v.isExact) := by
  cases e with
  | column ref => exact hcolumns ref (mem_singleton_self _)
  | literal v => exact ⟨v, rfl, keeps_stored? he, he⟩
  | _ => cases h

theorem evaluatesTo_isIn {input : Expression} (h : EvaluatesTo column input v) {list : List Expression}
    (hlist : List.Forall₂ (EvaluatesTo column) list vs) (negated : Bool) :
    EvaluatesTo column (.isIn input list negated)
      (.ofTruth (if v.isNull then none else (Truth.any (vs.map (equal? v))).map (· != negated))) := by
  rw [EvaluatesTo, evaluate, h]
  simp only [bind, Except.bind, evaluateIn_eq hlist]
  cases v.isNull <;> rfl

mutual

theorem agrees_storeValue (e : Expression) (he : e.isRelational) (hs : e.isSettled column)
    (hcolumns : ∀ ref ∈ e.columns, ReadsExactly column stored ref) :
    ∃ v, EvaluatesTo column e v ∧ v.Agrees (e.storeValue stored) := by
  have hread : e.isOperand → ∃ v, EvaluatesTo column e v ∧ v.Agrees (e.storeValue stored) := by
    intro hoperand
    obtain ⟨v, hv, hkeeps, hexact⟩ := keeps_of_isOperand hoperand he hcolumns
    exact ⟨v, hv, hkeeps.agrees hexact⟩
  cases e with
  | column ref | literal v => exact hread rfl
  | comparison op left right =>
    obtain ⟨hl, hr⟩ := and_eq_true_iff.mp he
    obtain ⟨hsl, hsr⟩ := and_eq_true_iff.mp hs
    obtain ⟨hlcolumns, hrcolumns⟩ := forall_mem_append.mp hcolumns
    obtain ⟨x, hx, hagreex⟩ := agrees_storeValue left hl hsl hlcolumns
    obtain ⟨y, hy, hagreey⟩ := agrees_storeValue right hr hsr hrcolumns
    refine ⟨op.evaluate x y, ?_, agrees_ofTruth fun q hq => ?_⟩
    · rw [EvaluatesTo, evaluate, hx, hy]
      rfl
    · obtain ⟨o, ho, rfl⟩ := Option.map_eq_some_iff.mp hq
      rw [hagreex.order hagreey ho]
  | and terms =>
    obtain ⟨vs, hvs, hagree⟩ := agreeAll_storeValues terms he hs hcolumns
    refine ⟨.ofTruth (Truth.all (vs.map truth?)), ?_, agrees_ofTruth ?_⟩
    · rw [EvaluatesTo, evaluate, evaluateAnd_eq (hasTruths_of_evaluate hvs)]
      rfl
    · have hall := Truth.settles_all (settles_truths hagree)
      rwa [all_map] at hall
  | or terms =>
    obtain ⟨vs, hvs, hagree⟩ := agreeAll_storeValues terms he hs hcolumns
    refine ⟨.ofTruth (Truth.any (vs.map truth?)), ?_, agrees_ofTruth ?_⟩
    · rw [EvaluatesTo, evaluate, evaluateOr_eq (hasTruths_of_evaluate hvs)]
      rfl
    · have hany := Truth.settles_any (settles_truths hagree)
      rwa [any_map] at hany
  | not term =>
    obtain ⟨v, hv, hagree⟩ := agrees_storeValue term he hs hcolumns
    refine ⟨.ofTruth (v.truth?.map (!·)), ?_, agrees_ofTruth hagree.settles.map_not⟩
    rw [EvaluatesTo, evaluate, hv]
    rfl
  | isIn input list negated =>
    obtain ⟨hinput, hlist⟩ := and_eq_true_iff.mp he
    obtain ⟨hsinput, hslist⟩ := and_eq_true_iff.mp hs
    obtain ⟨hcolumns, hlcolumns⟩ := forall_mem_append.mp hcolumns
    obtain ⟨v, hv, hagree⟩ := agrees_storeValue input hinput hsinput hcolumns
    obtain ⟨vs, hvs, hagreeAll⟩ := agreeAll_storeValues list hlist hslist hlcolumns
    refine ⟨_, evaluatesTo_isIn hv hvs negated, agrees_ofTruth ?_⟩
    have hany := Truth.settles_any (forall₂_map_left_iff.mpr
      (forall₂_map_right_iff.mpr (hagreeAll.imp fun _ _ hitem => settles_equal hagree hitem)))
    rw [any_map] at hany
    cases v.isNull with
    | true => exact fun q hq => nomatch hq
    | false =>
      intro q hq
      obtain ⟨q', hq', rfl⟩ := Option.map_eq_some_iff.mp hq
      exact congrArg (· != negated) (hany q' hq')
  | isNull input negated =>
    obtain ⟨hsinput, hknown⟩ := and_eq_true_iff.mp hs
    have hinput : ∃ v, EvaluatesTo column input v ∧
        isAbsent (input.storeValue stored) = v.isNull := by
      rcases or_eq_true_iff.mp hknown with hoperand | hknown
      · obtain ⟨v, hv, hkeeps, -⟩ := keeps_of_isOperand hoperand he hcolumns
        exact ⟨v, hv, hkeeps.isAbsent_eq⟩
      · obtain ⟨v, hv, hagree⟩ := agrees_storeValue input he hsinput hcolumns
        rw [isKnown, hv] at hknown
        have hnull : v.isNull = false := by simpa using hknown
        exact ⟨v, hv, by rw [hnull, hagree.isAbsent hnull]⟩
    obtain ⟨v, hv, habsent⟩ := hinput
    refine ⟨.boolean (v.isNull != negated), ?_, ?_⟩
    · rw [EvaluatesTo, evaluate, hv]
      rfl
    · rw [storeValue, habsent]
      exact agrees_ofTruth (t := some (v.isNull != negated)) fun q hq => Option.some.inj hq
  | like input pattern escape negated | call name args | aggregate function arg distinct => cases he

theorem agreeAll_storeValues (es : List Expression) (hes : allRelational es)
    (hs : allSettled column es) (hcolumns : ∀ ref ∈ columnsOf es, ReadsExactly column stored ref) :
    ∃ vs, List.Forall₂ (EvaluatesTo column) es vs ∧ List.Forall₂ Value.Agrees vs (storeValues stored es) := by
  cases es with
  | nil => exact ⟨[], .nil, .nil⟩
  | cons e es =>
    obtain ⟨he, hes⟩ := and_eq_true_iff.mp hes
    obtain ⟨hse, hses⟩ := and_eq_true_iff.mp hs
    obtain ⟨hcolumns, hrest⟩ := forall_mem_append.mp hcolumns
    obtain ⟨v, hv, hagree⟩ := agrees_storeValue e he hse hcolumns
    obtain ⟨vs, hvs, hagreeAll⟩ := agreeAll_storeValues es hes hses hrest
    exact ⟨v :: vs, .cons hv hvs, .cons hagree hagreeAll⟩

end

end Evaluate

end Expression

end Pushdown
