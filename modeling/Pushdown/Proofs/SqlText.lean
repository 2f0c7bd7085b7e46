import Pushdown.Proofs.FunctionName
import Pushdown.Proofs.Parts

/-!
# Reading SQL texts

`Outline`: how an expression is put together, with the texts of its columns and constants and the written names of
its functions. `readOutline` finds the outline of an expression in its SQL text, whatever the text goes on with
(`Finds`), so that expressions with the same text have the same outline (`outline_eq_of_sql`).
-/

namespace Pushdown

open List

/-- How an expression is put together from columns, constants and calls. -/
inductive Outline where
  | atom (text : String)
  | comparison (op : ComparisonOp) (left right : Outline)
  | and (terms : List Outline)
  | or (terms : List Outline)
  | not (term : Outline)
  | isIn (input : Outline) (list : List Outline) (negated : Bool)
  | isNull (input : Outline) (negated : Bool)
  | like (input pattern : Outline) (escape : Option Char) (negated : Bool)
  | call (name : String) (args : List Outline)

namespace Expression

mutual

def outline : Expression → Outline
  | .column ref => .atom ref.sql
  | .literal v => .atom v.literal
  | .comparison op left right => .comparison op (outline left) (outline right)
  | .and terms => .and (outlines terms)
  | .or terms => .or (outlines terms)
  | .not term => .not (outline term)
  | .isIn input list negated => .isIn (outline input) (outlines list) negated
  | .isNull input negated => .isNull (outline input) negated
  | .like input pattern escape negated => .like (outline input) (outline pattern) escape negated
  | .call name args => .call (Text.upper name) (outlines args)
  | .aggregate function arg distinct => .atom (sql (.aggregate function arg distinct))

def outlines : List Expression → List Outline
  | [] => []
  | e :: es => outline e :: outlines es

end

end Expression

variable {left : Outline}

namespace Sql

/-- What stands after the first expression in parentheses. -/
inductive Connective where
  | and
  | or
  | compare (op : ComparisonOp)
  | isIn (negated : Bool)
  | isNull (negated : Bool)
  | like (negated : Bool)

def Connective.text : Connective → String
  | .and => " AND "
  | .or => " OR "
  | .compare op => " " ++ op.sql ++ " "
  | .isIn negated => (if negated then " NOT" else "") ++ " IN ("
  | .isNull negated => " IS" ++ (if negated then " NOT" else "") ++ " NULL"
  | .like negated => (if negated then " NOT" else "") ++ " LIKE "

def connectives : List Connective :=
  [.and, .or, .compare .eq, .compare .neq, .compare .lt, .compare .lte, .compare .gt, .compare .gte, .isIn false,
    .isIn true, .isNull false, .isNull true, .like false, .like true]

def readConnective (cs : List Char) : Option (Connective × List Char) :=
  connectives.findSome? fun word => (dropText word.text.toList cs).map (word, ·)

def readEscape (cs : List Char) : Option Char × List Char :=
  match dropText " ESCAPE '".toList cs with
  | some (c :: '\'' :: r) => (some c, r)
  | _ => (none, cs)

def closed (o : Outline) (cs : List Char) : Option (Outline × List Char) := (dropText [')'] cs).map (o, ·)

mutual

/-- The outline of an expression, from its text, and what follows the text. Every call takes fuel. -/
def readOutline : Nat → List Char → Option (Outline × List Char)
  | 0, _ => none
  | fuel + 1, cs =>
    match dropText negation cs with
    | some cs => do
      let (term, cs) ← readOutline fuel cs
      return (.not term, cs)
    | none =>
      match dropText ['('] cs with
      | some cs => do
        let (left, cs) ← readOutline fuel cs
        let (word, cs) ← readConnective cs
        readGroup fuel left word cs
      | none =>
        match dropText ['('] (scanAtom 0 none cs).2 with
        | some cs' => do
          let (args, cs') ← readItems fuel cs'
          closed (.call (String.ofList (scanAtom 0 none cs).1) args) cs'
        | none => some (.atom (String.ofList (scanAtom 0 none cs).1), (scanAtom 0 none cs).2)

def readGroup : Nat → Outline → Connective → List Char → Option (Outline × List Char)
  | 0, _, _, _ => none
  | fuel + 1, left, .and, cs => do
    let (terms, cs) ← readTerms fuel Connective.and.text cs
    closed (.and (left :: terms)) cs
  | fuel + 1, left, .or, cs => do
    let (terms, cs) ← readTerms fuel Connective.or.text cs
    closed (.or (left :: terms)) cs
  | fuel + 1, left, .compare op, cs => do
    let (right, cs) ← readOutline fuel cs
    closed (.comparison op left right) cs
  | fuel + 1, left, .isIn negated, cs => do
    let (list, cs) ← readItems fuel cs
    let cs ← dropText [')'] cs
    closed (.isIn left list negated) cs
  | _ + 1, left, .isNull negated, cs => closed (.isNull left negated) cs
  | fuel + 1, left, .like negated, cs => do
    let (pattern, cs) ← readOutline fuel cs
    closed (.like left pattern (readEscape cs).1 negated) (readEscape cs).2

def readTerms : Nat → String → List Char → Option (List Outline × List Char)
  | 0, _, _ => none
  | fuel + 1, separator, cs => do
    let (term, cs) ← readOutline fuel cs
    match dropText separator.toList cs with
    | some cs =>
      let (terms, cs) ← readTerms fuel separator cs
      return (term :: terms, cs)
    | none => return ([term], cs)

/-- The items of a list up to its closing parenthesis, if there are any. -/
def readItems : Nat → List Char → Option (List Outline × List Char)
  | 0, _ => none
  | fuel + 1, cs => if cs.head? = some ')' then some ([], cs) else readTerms fuel ", " cs

end

def Finds {α : Type} (read : Nat → Option α) (a : α) : Prop := ∃ enough, ∀ fuel ≥ enough, read fuel = some a

section Finds

variable {α β γ : Type} {f : Nat → Option α} {g : Nat → Option β} {read : Nat → Option γ} {a a' : α} {b : β} {c : γ}

theorem Finds.unique (h : Finds f a) (h' : Finds f a') : a = a' := by
  obtain ⟨n, hn⟩ := h
  obtain ⟨n', hn'⟩ := h'
  have hread := hn (max n n') (Nat.le_max_left ..)
  rw [hn' (max n n') (Nat.le_max_right ..)] at hread
  exact (Option.some.inj hread).symm

theorem Finds.call₂ (hf : Finds f a) (hg : Finds g b)
    (hread : ∀ fuel, f fuel = some a → g fuel = some b → read (fuel + 1) = some c) : Finds read c := by
  obtain ⟨n, hn⟩ := hf
  obtain ⟨m, hm⟩ := hg
  refine ⟨max n m + 1, fun fuel hfuel => ?_⟩
  obtain ⟨fuel, rfl⟩ : ∃ k, fuel = k + 1 := ⟨fuel - 1, by omega⟩
  exact hread fuel (hn fuel (by omega)) (hm fuel (by omega))

theorem Finds.call (hf : Finds f a) (hread : ∀ fuel, f fuel = some a → read (fuel + 1) = some c) : Finds read c :=
  hf.call₂ hf fun fuel h _ => hread fuel h

theorem Finds.of_succ (hread : ∀ fuel, read (fuel + 1) = some c) : Finds read c := by
  refine ⟨1, fun fuel hfuel => ?_⟩
  obtain ⟨fuel, rfl⟩ : ∃ k, fuel = k + 1 := ⟨fuel - 1, by omega⟩
  exact hread fuel

end Finds

variable {cs r : List Char}

theorem Connective.mem_connectives (word : Connective) : word ∈ connectives := by
  cases word with
  | and | or => simp [connectives]
  | compare op => cases op <;> simp [connectives]
  | isIn negated | isNull negated | like negated => cases negated <;> simp [connectives]

theorem readConnective_text (word : Connective) (r : List Char) :
    readConnective (word.text.toList ++ r) = some (word, r) := by
  have hall : ∀ word ∈ connectives, readConnective (word.text.toList ++ r) = some (word, r) := by
    simp [connectives, readConnective, Connective.text, ComparisonOp.sql, dropText]
  exact hall word word.mem_connectives

theorem Connective.stop (word : Connective) (r : List Char) : Stop (word.text.toList ++ r) := by
  have hall : ∀ word ∈ connectives, Stop (word.text.toList ++ r) := by
    simp [connectives, Connective.text, ComparisonOp.sql, Stop]
  exact hall word word.mem_connectives

theorem closed_close (o : Outline) (r : List Char) : closed o (')' :: r) = some (o, r) := by
  simp [closed, dropText]

theorem readOutline_negation {o : Outline} (h : Finds (readOutline · cs) (o, r)) :
    Finds (readOutline · (negation ++ cs)) (.not o, r) := by
  refine h.call fun fuel hfuel => ?_
  rw [readOutline, dropText_append]
  simp [hfuel]

theorem readOutline_group {o : Outline} {word : Connective} {r' : List Char}
    (hleft : Finds (readOutline · cs) (left, word.text.toList ++ r))
    (hgroup : Finds (readGroup · left word r) (o, r')) : Finds (readOutline · ('(' :: cs)) (o, r') := by
  have hnegation : dropText negation ('(' :: cs) = none := by simp [negation, dropText]
  refine hleft.call₂ hgroup fun fuel hleft hgroup => ?_
  rw [readOutline, hnegation]
  simp [dropText, hleft, readConnective_text, hgroup]

theorem Stop.dropText (hr : Stop r) : dropText ['('] r = none := by
  cases r with
  | nil => rfl
  | cons c cs =>
    have hc : c ≠ '(' := by rintro rfl; simp [Stop] at hr
    simp [Sql.dropText, hc.symm]

theorem readOutline_atom (h : IsAtom cs) (hr : Stop r) :
    Finds (readOutline · (cs ++ r)) (.atom (String.ofList cs), r) := by
  have hopen : dropText ['('] (cs ++ r) = none := by
    obtain ⟨c, rest, rfl, hc, -⟩ := h.head
    simp [dropText, hc.symm]
  refine .of_succ fun fuel => ?_
  rw [readOutline, h.negation r hr, hopen]
  simp [h.passes.scanAtom hr, hr.dropText]

theorem readOutline_call {args : List Outline} (hname : ∀ c ∈ cs, c ∉ special) (hnot : cs ≠ "NOT".toList)
    (hne : cs ≠ []) {ds : List Char} (h : Finds (readItems · ds) (args, ')' :: r)) :
    Finds (readOutline · (cs ++ '(' :: ds)) (.call (String.ofList cs) args, r) := by
  have hspecial : '(' ∈ special := by decide
  have hnegation : dropText negation (cs ++ '(' :: ds) = none := dropText_negation hname (by simp [hspecial]) hnot
  have hopen : dropText ['('] (cs ++ '(' :: ds) = none := by
    obtain ⟨c, rest, rfl⟩ := exists_cons_of_ne_nil hne
    have hc : '(' ≠ c := by
      rintro rfl
      exact hname _ (mem_cons_self ..) hspecial
    simp [dropText, hc]
  have hscan : scanAtom 0 none (cs ++ '(' :: ds) = (cs, '(' :: ds) := by
    have hend : scanAtom 0 none ('(' :: ds) = ([], '(' :: ds) := by simp [scanAtom, endsAtom]
    rw [passes_word hname, hend, append_nil]
  refine h.call fun fuel hfuel => ?_
  rw [readOutline, hnegation, hopen]
  simp [hscan, dropText, hfuel, closed_close]

end Sql

namespace Expression

open Sql

/-- Whether the text of an expression can be read where those of its parts can. A conjunction of one term
has the text of a term in parentheses. -/
def isReadable : Expression → Bool
  | .column ref => ref.isPlain
  | .literal v => v.isReadable
  | .and terms => 2 ≤ terms.length
  | .or terms => 2 ≤ terms.length
  | .call name _ => (ScalarFunction.ofName? name).isSome
  | .aggregate .. => false
  | _ => true

theorem isAtom_column {ref : ColumnRef} (h : (Expression.column ref).isReadable) : IsAtom ref.sql.toList :=
  ColumnRef.isAtom_sql h

theorem isAtom_literal {v : Value} (h : (Expression.literal v).isReadable) : IsAtom v.literal.toList :=
  (v.isConstant_literal h).isAtom

theorem head_sql_ne (e : Expression) (he : e.isReadable) (r : List Char) : (e.sql.toList ++ r).head? ≠ some ')' := by
  have hatom {cs : List Char} (h : IsAtom cs) : (cs ++ r).head? ≠ some ')' := by
    obtain ⟨c, rest, rfl, -, hc⟩ := h.head
    simpa using hc
  cases e with
  | column ref => exact hatom (isAtom_column he)
  | literal v => exact hatom (isAtom_literal he)
  | call name args =>
    obtain ⟨hname, -, hne⟩ := ScalarFunction.upper_word he
    obtain ⟨c, rest, hcons⟩ := exists_cons_of_ne_nil hne
    have hc : c ≠ ')' := by
      rintro rfl
      exact hname ')' (hcons ▸ mem_cons_self ..) (by decide)
    simp [sql, hcons, hc]
  | aggregate function arg distinct => cases he
  | _ => simp [sql]

def escapeText : Option Char → String
  | some c => " ESCAPE '" ++ String.ofList [c] ++ "'"
  | none => ""

theorem readEscape_text (escape : Option Char) (r : List Char) :
    readEscape ((escapeText escape).toList ++ ')' :: r) = (escape, ')' :: r) := by
  cases escape <;> simp [escapeText, readEscape, dropText]

theorem stop_comma (r : List Char) : Stop (", ".toList ++ r) := .inr (.inl rfl)

variable {r : List Char} {terms : List Outline} {es : List Expression}

theorem readGroup_and {cs : List Char} (h : Finds (readTerms · Connective.and.text cs) (terms, ')' :: r)) :
    Finds (readGroup · left .and cs) (.and (left :: terms), r) := by
  refine h.call fun fuel hfuel => ?_
  rw [readGroup, hfuel]
  simp [closed_close]

theorem readGroup_or {cs : List Char} (h : Finds (readTerms · Connective.or.text cs) (terms, ')' :: r)) :
    Finds (readGroup · left .or cs) (.or (left :: terms), r) := by
  refine h.call fun fuel hfuel => ?_
  rw [readGroup, hfuel]
  simp [closed_close]

theorem toList_sqlJoined_cons (separator : String) (e : Expression) (hes : es ≠ []) (r : List Char) :
    (sqlJoined separator (e :: es)).toList ++ r =
      e.sql.toList ++ (separator.toList ++ ((sqlJoined separator es).toList ++ r)) := by
  cases es with
  | nil => exact absurd rfl hes
  | cons e' es => simp [sqlJoined]

theorem readItems_of_readTerms (hes : ∀ p ∈ partsOf es, p.isReadable)
    (h : es ≠ [] → Finds (readTerms · ", " ((sqlJoined ", " es).toList ++ ')' :: r)) (outlines es, ')' :: r)) :
    Finds (readItems · ((sqlJoined ", " es).toList ++ ')' :: r)) (outlines es, ')' :: r) := by
  cases es with
  | nil => exact .of_succ fun fuel => by simp [sqlJoined, readItems, outlines]
  | cons e es =>
    have hhead : ((sqlJoined ", " (e :: es)).toList ++ ')' :: r).head? ≠ some ')' := by
      rw [partsOf, forall_mem_append] at hes
      have he := hes.1 e e.self_mem_parts
      by_cases hne : es = []
      · subst hne
        exact head_sql_ne e he _
      · rw [toList_sqlJoined_cons _ _ hne]
        exact head_sql_ne e he _
    refine (h (by simp)).call fun fuel hfuel => ?_
    rw [readItems, if_neg hhead, hfuel]

mutual

theorem readOutline_sql (e : Expression) (he : ∀ p ∈ e.parts, p.isReadable) {r : List Char} (hr : Stop r) :
    Finds (readOutline · (e.sql.toList ++ r)) (e.outline, r) := by
  have hself := he e e.self_mem_parts
  cases e with
  | column ref =>
    have hatom := readOutline_atom (isAtom_column hself) hr
    rwa [String.ofList_toList] at hatom
  | literal v =>
    have hatom := readOutline_atom (isAtom_literal hself) hr
    rwa [String.ofList_toList] at hatom
  | comparison op left right =>
    simp only [parts, forall_mem_cons, forall_mem_append] at he
    have hleft := readOutline_sql left he.2.1 (Connective.stop (.compare op) (right.sql.toList ++ ')' :: r))
    have hright := readOutline_sql right he.2.2 (stop_close r)
    have htext : (comparison op left right).sql.toList ++ r =
        '(' :: (left.sql.toList ++ ((Connective.compare op).text.toList ++ (right.sql.toList ++ ')' :: r))) := by
      simp [sql, Connective.text]
    rw [htext]
    refine readOutline_group hleft (hright.call fun fuel hfuel => ?_)
    rw [readGroup, hfuel]
    simp [closed_close, outline]
  | and terms =>
    simp only [parts, forall_mem_cons] at he
    have htext : (Expression.and terms).sql.toList ++ r =
        '(' :: ((sqlJoined Connective.and.text terms).toList ++ ')' :: r) := by
      simp [sql, Connective.text]
    rw [htext, outline]
    exact readOutline_sqlJoined .and (by simp [Connective.text, dropText]) .and readGroup_and terms
      (of_decide_eq_true hself) he.2
  | or terms =>
    simp only [parts, forall_mem_cons] at he
    have htext : (Expression.or terms).sql.toList ++ r =
        '(' :: ((sqlJoined Connective.or.text terms).toList ++ ')' :: r) := by
      simp [sql, Connective.text]
    rw [htext, outline]
    exact readOutline_sqlJoined .or (by simp [Connective.text, dropText]) .or readGroup_or terms
      (of_decide_eq_true hself) he.2
  | not term =>
    simp only [parts, forall_mem_cons] at he
    have hterm := readOutline_sql term he.2 hr
    have htext : (Expression.not term).sql.toList ++ r = negation ++ (term.sql.toList ++ r) := by
      simp [sql, negation]
    rw [htext, outline]
    exact readOutline_negation hterm
  | isIn input list negated =>
    simp only [parts, forall_mem_cons, forall_mem_append] at he
    have hinput := readOutline_sql input he.2.1
      (Connective.stop (.isIn negated) ((sqlJoined ", " list).toList ++ ')' :: ')' :: r))
    have hlist := readItems_of_readTerms he.2.2 fun hne =>
      readTerms_sqlJoined ", " stop_comma (by simp [dropText]) list hne he.2.2 (')' :: r)
    have htext : (isIn input list negated).sql.toList ++ r = '(' :: (input.sql.toList ++
        ((Connective.isIn negated).text.toList ++ ((sqlJoined ", " list).toList ++ ')' :: ')' :: r))) := by
      simp [sql, Connective.text]
    rw [htext]
    refine readOutline_group hinput (hlist.call fun fuel hfuel => ?_)
    rw [readGroup, hfuel]
    simp [dropText, closed_close, outline]
  | isNull input negated =>
    simp only [parts, forall_mem_cons] at he
    have hinput := readOutline_sql input he.2 (Connective.stop (.isNull negated) (')' :: r))
    have htext : (isNull input negated).sql.toList ++ r =
        '(' :: (input.sql.toList ++ ((Connective.isNull negated).text.toList ++ ')' :: r)) := by
      simp [sql, Connective.text]
    rw [htext, outline]
    exact readOutline_group hinput (.of_succ fun fuel => by rw [readGroup, closed_close])
  | like input pattern escape negated =>
    simp only [parts, forall_mem_cons, forall_mem_append] at he
    have hinput := readOutline_sql input he.2.1
      (Connective.stop (.like negated) (pattern.sql.toList ++ ((escapeText escape).toList ++ ')' :: r)))
    have hpattern := readOutline_sql pattern he.2.2 (r := (escapeText escape).toList ++ ')' :: r)
        (by cases escape <;> simp [escapeText, Stop])
    have htext : (like input pattern escape negated).sql.toList ++ r =
        '(' :: (input.sql.toList ++ ((Connective.like negated).text.toList ++
          (pattern.sql.toList ++ ((escapeText escape).toList ++ ')' :: r)))) := by
      cases escape <;> simp [sql, Connective.text, escapeText]
    rw [htext]
    refine readOutline_group hinput (hpattern.call fun fuel hfuel => ?_)
    rw [readGroup, hfuel]
    simp [readEscape_text, closed_close, outline]
  | call name args =>
    simp only [parts, forall_mem_cons] at he
    obtain ⟨hname, hnot, hne⟩ := ScalarFunction.upper_word hself
    have hargs := readItems_of_readTerms he.2 fun hne =>
      readTerms_sqlJoined ", " stop_comma (by simp [dropText]) args hne he.2 r
    have htext : (call name args).sql.toList ++ r =
        (Text.upper name).toList ++ '(' :: ((sqlJoined ", " args).toList ++ ')' :: r) := by
      simp [sql]
    have hcall := readOutline_call hname hnot hne hargs
    rwa [String.ofList_toList, ← htext] at hcall
  | aggregate function arg distinct => cases hself

theorem readOutline_sqlJoined (word : Connective) (hend : ∀ r, dropText word.text.toList (')' :: r) = none)
    (f : List Outline → Outline) (hgroup : ∀ {left terms cs r}, Finds (readTerms · word.text cs) (terms, ')' :: r) →
      Finds (readGroup · left word cs) (f (left :: terms), r))
    (es : List Expression) (hlen : 2 ≤ es.length) (hes : ∀ p ∈ partsOf es, p.isReadable) {r : List Char} :
    Finds (readOutline · ('(' :: ((sqlJoined word.text es).toList ++ ')' :: r))) (f (outlines es), r) := by
  cases es with
  | nil => cases hlen
  | cons e es =>
    have hne : es ≠ [] := by rintro rfl; simp at hlen
    rw [partsOf, forall_mem_append] at hes
    have hfirst := readOutline_sql e hes.1 (word.stop ((sqlJoined word.text es).toList ++ ')' :: r))
    have hrest := readTerms_sqlJoined word.text word.stop hend es hne hes.2 r
    rw [toList_sqlJoined_cons _ _ hne, outlines]
    exact readOutline_group hfirst (hgroup hrest)

theorem readTerms_sqlJoined (separator : String) (hseparator : ∀ r, Stop (separator.toList ++ r))
    (hend : ∀ r, dropText separator.toList (')' :: r) = none) (es : List Expression) (hne : es ≠ [])
    (hes : ∀ p ∈ partsOf es, p.isReadable) (r : List Char) :
    Finds (readTerms · separator ((sqlJoined separator es).toList ++ ')' :: r)) (outlines es, ')' :: r) := by
  cases es with
  | nil => exact absurd rfl hne
  | cons e es =>
    rw [partsOf, forall_mem_append] at hes
    cases es with
    | nil =>
      have hlast := readOutline_sql e hes.1 (stop_close r)
      refine hlast.call fun fuel hfuel => ?_
      rw [sqlJoined, readTerms, hfuel]
      simp [hend, outlines]
    | cons e' es =>
      have hfirst := readOutline_sql e hes.1 (hseparator ((sqlJoined separator (e' :: es)).toList ++ ')' :: r))
      have hrest := readTerms_sqlJoined separator hseparator hend (e' :: es) (by simp) hes.2 r
      refine hfirst.call₂ hrest fun fuel hfirst hrest => ?_
      rw [toList_sqlJoined_cons _ _ (by simp), readTerms, hfirst]
      simp [dropText_append, hrest, outlines]

end

theorem outline_eq_of_sql {e₁ e₂ : Expression} (h₁ : ∀ p ∈ e₁.parts, p.isReadable)
    (h₂ : ∀ p ∈ e₂.parts, p.isReadable) (h : e₁.sql = e₂.sql) : e₁.outline = e₂.outline := by
  have hread := readOutline_sql e₁ h₁ stop_nil
  rw [h] at hread
  exact (Prod.mk.inj (hread.unique (readOutline_sql e₂ h₂ stop_nil))).1

end Expression

end Pushdown
