import Mathlib
import Pushdown.Proofs.DraftSteps
import Pushdown.Proofs.LiteralText
import Pushdown.Proofs.SqlText

/-!
# Fingerprints

A query knows an expression by its text. `compile_eq_of_sql`: expressions with the same text that compile have the
same outline (`isReadable_of_compile`), the same columns, and constants with the same texts. They compile to the
same expression of the store where the constants have the same types as well (`agree_compile`): the number one of
two types is written alike and stored differently.
-/

namespace Pushdown

open List Attempt ScalarFunction ColumnRef Outline

namespace Compiling

variable {σ α β γ : Type}

def Agree (x y : Compiling σ α) : Prop :=
  ∀ (s : Draft σ) a b (s₁ s₂ : Draft σ), x s = (.ok a, s₁) → y s = (.ok b, s₂) → a = b ∧ s₁ = s₂

theorem Agree.refl (x : Compiling σ α) : Agree x x := by
  intro s a b s₁ s₂ hx hy
  rw [hx] at hy
  cases hy
  exact ⟨rfl, rfl⟩

variable {x : Compiling σ α}

theorem Agree.both {f : α → β → γ} {x' : Compiling σ α} {y y' : Compiling σ β} (hx : Agree x x') (hy : Agree y y') :
    Agree (Attempt.both f x y) (Attempt.both f x' y') := by
  intro s a b s₁ s₂ h h'
  obtain ⟨a₁, b₁, t, ha, hb, rfl⟩ := both_ok h
  obtain ⟨a₂, b₂, t', ha', hb', rfl⟩ := both_ok h'
  obtain ⟨rfl, rfl⟩ := hx s a₁ a₂ t t' ha ha'
  obtain ⟨rfl, rfl⟩ := hy t b₁ b₂ s₁ s₂ hb hb'
  exact ⟨rfl, rfl⟩

end Compiling

namespace Value

variable {σ : Type} {objects : LargeObjects σ}

mutual

theorem isReadable_of_toStored (v : Value) {b : Bson} {s s' : σ} (h : v.toStored objects s = (.ok b, s')) :
    v.isReadable := by
  cases v with
  | bigDecimal text =>
    simp only [toStored] at h
    cases hread : readFloat? text with
    | none =>
      rw [hread] at h
      cases h
    | some x => rw [isReadable, hread, Option.isSome_some]
  | array items =>
    obtain ⟨bs, s₁, hbs, -⟩ := bind_ok h
    exact allReadable_of_listToStored items hbs
  | _ => rfl

theorem allReadable_of_listToStored (vs : List Value) {bs : List Bson} {s s' : σ}
    (h : listToStored objects vs s = (.ok bs, s')) : allReadable vs := by
  cases vs with
  | nil => rfl
  | cons v vs =>
    obtain ⟨b, s₁, hb, h⟩ := bind_ok h
    obtain ⟨bs, s₂, hbs, -⟩ := bind_ok h
    rw [allReadable, isReadable_of_toStored v hb, allReadable_of_listToStored vs hbs, Bool.and_self]

end

mutual

theorem toStored_settled (v : Value) : v.settled.toStored objects = v.toStored objects := by
  have hmoment (t : Timestamp) : moment t.settled = moment t := by rw [moment, t.epochMillis_settled, moment]
  cases v with
  | time t => exact congrArg pure (hmoment ⟨.epoch, t⟩)
  | timestamp t => exact congrArg pure (hmoment t)
  | array items => rw [settled, toStored, toStored, listToStored_allSettled items]
  | _ => rfl

theorem listToStored_allSettled (vs : List Value) :
    listToStored objects (allSettled vs) = listToStored objects vs := by
  cases vs with
  | nil => rfl
  | cons v vs => rw [allSettled, listToStored, listToStored, toStored_settled v, listToStored_allSettled vs]

end

theorem int64?_settled (v : Value) : v.settled.int64? = v.int64? := by cases v <;> rfl

end Value

namespace Expression

open Sql

variable {σ : Type} {c : Context σ} {v : Value} {os : List Outline} {negated : Bool}

/-- Whether an expression is not written like one of another kind: a column like a constant or a
negation, or a connective of fewer than two terms like what it joins. -/
def isUnmistakable : Expression → Bool
  | .column ref => ref.isPlain
  | .and terms => 2 ≤ terms.length
  | .or terms => 2 ≤ terms.length
  | _ => true

variable {b : Bson} {s s' : Draft σ} {f : ScalarFunction} {es₁ es₂ : List Expression} {R : Value → Value → Prop}
  {guarded : Bool}

theorem isReadable_of_compileLiteral (h : compileLiteral c v s = (.ok b, s')) : v.isReadable := by
  obtain ⟨b', s₁, hstore, -⟩ := bind_ok h
  exact v.isReadable_of_toStored (Context.toStored_of_store hstore)

theorem likePattern_ok {pattern : Expression} {text : String} (h : pattern.likePattern = .ok text) :
    ∃ v, pattern = .literal v ∧ v.isReadable ∧ v.literal = Text.quoted '\'' text := by
  unfold likePattern at h
  split at h
  · cases h
    exact ⟨_, rfl, rfl, rfl⟩
  · cases h
    exact ⟨_, rfl, rfl, rfl⟩
  · cases h

theorem ofName_ok {name : String} (h : ofName name = .ok f) : ofName? name = some f := by
  rw [ofName] at h
  cases hname : ofName? name <;> rw [hname] at h <;> cases h
  rfl

/-- The text of an expression that compiles can be read, if its parts are not written like others. -/
theorem isReadable_of_compile (e : Expression) (he : ∀ p ∈ e.parts, p.isUnmistakable)
    (h : e.compile c .raw s = (.ok b, s')) : ∀ p ∈ e.parts, p.isReadable := by
  induction e using induction_inner generalizing b s s' with
  | step e ih =>
    intro p hp
    rcases mem_parts.mp hp with rfl | ⟨x, hx, hp⟩
    · cases p with
      | column ref | and terms | or terms => exact he _ (self_mem_parts _)
      | literal v => exact isReadable_of_compileLiteral h
      | call name args =>
        obtain ⟨f, s₁, hf, -⟩ := bind_ok h
        rw [isReadable, ofName_ok (ofExcept_ok hf).1, Option.isSome_some]
      | aggregate function arg distinct => cases arg <;> cases h
      | _ => rfl
    · rcases compiled_inner h with ⟨hscope, -⟩ | ⟨-, hinner⟩
      · cases hscope
      rcases hinner x hx with ⟨text, htext⟩ | ⟨b', s₁, s₂, hb, -⟩
      · obtain ⟨v, rfl, hv, -⟩ := likePattern_ok htext
        obtain rfl := mem_singleton.mp hp
        exact hv
      · exact ih x hx (fun p hp => he p (mem_parts.mpr (.inr ⟨x, hx, hp⟩))) hb p hp

/-- An expression that compiles and has the text of a constant is one, unless it is a column that is named
like one. -/
theorem exists_literal_of_sql {e : Expression} (hcolumn : ∀ ref, e = .column ref → ref.isPlain)
    (h : e.compile c .raw s = (.ok b, s')) (hv : v.isReadable) (hsql : e.sql = v.literal) : ∃ w, e = .literal w := by
  have hconstant := v.isConstant_literal hv
  rw [← hsql] at hconstant
  have hatom := hconstant.isAtom
  have hgroup : e.sql.toList.head? ≠ some '(' := by
    obtain ⟨d, rest, hcons, hd, -⟩ := hatom.head
    simpa [hcons] using hd
  cases e with
  | column ref => exact absurd hconstant (not_isConstant_sql (hcolumn ref rfl))
  | literal w => exact ⟨w, rfl⟩
  | not term =>
    have hnegation := hatom.negation [] stop_nil
    have htext : (Expression.not term).sql.toList ++ [] = negation ++ term.sql.toList := by simp [sql, negation]
    rw [htext, dropText_append] at hnegation
    cases hnegation
  | call name args =>
    obtain ⟨f, s₁, hf, -⟩ := bind_ok h
    have hname := upper_word (Option.isSome_of_mem (ofName_ok (ofExcept_ok hf).1))
    have hscan := hatom.passes.scanAtom stop_nil
    have htext : (Expression.call name args).sql.toList ++ [] =
        (Text.upper name).toList ++ '(' :: ((sqlJoined ", " args).toList ++ [')']) := by
      simp [sql]
    rw [htext, passes_word hname.1] at hscan
    simp [scanAtom, endsAtom] at hscan
  | aggregate function arg distinct => cases arg <;> cases h
  | _ => exact absurd (by simp [sql]) hgroup

mutual

/-- The constants of an expression from left to right, without the patterns of LIKE. -/
def constants : Expression → List Value
  | .column _ => []
  | .literal v => [v]
  | .comparison _ left right => constants left ++ constants right
  | .and terms => constantsOf terms
  | .or terms => constantsOf terms
  | .not term => constants term
  | .isIn input list _ => constants input ++ constantsOf list
  | .isNull input _ => constants input
  | .like input _ _ _ => constants input
  | .call _ args => constantsOf args
  | .aggregate _ none _ => []
  | .aggregate _ (some arg) _ => constants arg

def constantsOf : List Expression → List Value
  | [] => []
  | e :: es => constants e ++ constantsOf es

end

variable {e : Expression}

theorem eq_column_of_outline {ref : ColumnRef} (he : e.isReadable) (href : ref.isPlain)
    (h : (column ref).outline = e.outline) : e = .column ref := by
  cases e with
  | column ref' => rw [sql_injective (atom.inj h)]
  | literal v =>
    refine absurd ?_ (not_isConstant_sql href)
    rw [(atom.inj h : ref.sql = v.literal)]
    exact v.isConstant_literal he
  | aggregate function arg distinct => cases he
  | _ => cases h

theorem eq_literal_of_outline (he : e.isReadable) (hv : v.isReadable)
    (h : (literal v).outline = e.outline) : ∃ w, e = .literal w ∧ v.literal = w.literal := by
  cases e with
  | column ref =>
    refine absurd ?_ (not_isConstant_sql he)
    rw [← (atom.inj h : v.literal = ref.sql)]
    exact v.isConstant_literal hv
  | literal w => exact ⟨w, rfl, atom.inj h⟩
  | aggregate function arg distinct => cases he
  | _ => cases h

theorem forall₂_of_outlines (h : outlines es₁ = outlines es₂) :
    List.Forall₂ (fun e₁ e₂ => e₁.outline = e₂.outline) es₁ es₂ := by
  induction es₁ generalizing es₂ with
  | nil => cases es₂ <;> cases h; exact .nil
  | cons e₁ es₁ ih =>
    cases es₂ with
    | nil => cases h
    | cons e₂ es₂ => exact .cons (cons.inj h).1 (ih (cons.inj h).2)

theorem outlines_of_outline {e' : Expression} (he : e.isReadable) (he' : e'.isReadable) (h : e.outline = e'.outline) :
    outlines e.inner = outlines e'.inner ∧ outlines e.operands = outlines e'.operands := by
  cases e with
  | column ref =>
    rw [eq_column_of_outline he' he h]
    exact ⟨rfl, rfl⟩
  | literal v =>
    obtain ⟨w, rfl, -⟩ := eq_literal_of_outline he' he h
    exact ⟨rfl, rfl⟩
  | aggregate => cases he
  | _ =>
    cases e' with
    | aggregate => cases he'
    | _ => simp [outline] at h <;> simp [inner, operands, outlines, h]

theorem columns_constants_of_outlines
    (hes : ∀ e₁ ∈ es₁, ∀ e₂ ∈ es₂, e₁.outline = e₂.outline →
      e₁.columns = e₂.columns ∧ List.Forall₂ R e₁.constants e₂.constants) (h : outlines es₁ = outlines es₂) :
    columnsOf es₁ = columnsOf es₂ ∧ List.Forall₂ R (constantsOf es₁) (constantsOf es₂) := by
  induction forall₂_of_outlines h with
  | nil => exact ⟨rfl, .nil⟩
  | @cons e₁ e₂ es₁ es₂ hhead _ ih =>
    obtain ⟨hcolumns, hconstants⟩ := hes e₁ (.head _) e₂ (.head _) hhead
    obtain ⟨hcolumns', hconstants'⟩ := ih (fun e₁ h₁ e₂ h₂ => hes e₁ (.tail _ h₁) e₂ (.tail _ h₂)) (cons.inj h).2
    exact ⟨by rw [columnsOf, columnsOf, hcolumns, hcolumns'], rel_append hconstants hconstants'⟩

theorem readable_of_mem_inner {x : Expression} (h : ∀ p ∈ e.parts, p.isReadable) (hx : x ∈ e.inner) :
    ∀ p ∈ x.parts, p.isReadable := fun p hp => h p (mem_parts.mpr (.inr ⟨x, hx, hp⟩))

theorem columns_constants_of_outline (e₁ e₂ : Expression) (h₁ : ∀ p ∈ e₁.parts, p.isReadable)
    (h₂ : ∀ p ∈ e₂.parts, p.isReadable) (h : e₁.outline = e₂.outline) :
    e₁.columns = e₂.columns ∧ List.Forall₂ (fun v w : Value => v.literal = w.literal) e₁.constants e₂.constants := by
  induction e₁ using induction_inner generalizing e₂ with | step e₁ ih =>
  have hself := h₁ e₁ e₁.self_mem_parts
  have hself' := h₂ e₂ e₂.self_mem_parts
  obtain ⟨hinner, hoperands⟩ := outlines_of_outline hself hself' h
  have hpair {x y : Expression} (hx : x ∈ e₁.inner) (hy : y ∈ e₂.inner) :=
    ih x hx y (readable_of_mem_inner h₁ hx) (readable_of_mem_inner h₂ hy)
  have hcolumns := (columns_constants_of_outlines (fun x hx y hy => hpair hx hy) hinner).1
  have hconstants := (columns_constants_of_outlines
    (fun x hx y hy => hpair (mem_inner_of_operands hx) (mem_inner_of_operands hy)) hoperands).2
  clear hpair ih
  cases e₁ with
  | column ref =>
    obtain rfl := eq_column_of_outline hself' hself h
    exact ⟨rfl, .nil⟩
  | literal v =>
    obtain ⟨w, rfl, htext⟩ := eq_literal_of_outline hself' hself h
    exact ⟨rfl, .cons htext .nil⟩
  | aggregate => cases hself
  | _ =>
    cases e₂ with
    | aggregate => cases hself'
    | _ =>
      first
      | cases h
      | exact ⟨by simpa [columns, inner, columnsOf] using hcolumns,
          by simpa [constants, operands, inner, constantsOf] using hconstants⟩

theorem forall₂_of_append {α β : Type} {R : α → β → Prop} {as cs : List α} {bs ds : List β}
    (hlength : as.length = bs.length) (h : List.Forall₂ R (as ++ cs) (bs ++ ds)) :
    List.Forall₂ R as bs ∧ List.Forall₂ R cs ds := by
  have htake := forall₂_take_append _ _ _ h
  have hdrop := forall₂_drop_append _ _ _ h
  rw [← hlength, take_left] at htake
  rw [← hlength, drop_left] at hdrop
  exact ⟨htake, hdrop⟩

theorem forall₂_constants_append {e₁ e₂ : Expression} {vs ws : List Value} (h₁ : ∀ p ∈ e₁.parts, p.isReadable)
    (h₂ : ∀ p ∈ e₂.parts, p.isReadable) (h : e₁.outline = e₂.outline)
    (hR : List.Forall₂ R (e₁.constants ++ vs) (e₂.constants ++ ws)) :
    List.Forall₂ R e₁.constants e₂.constants ∧ List.Forall₂ R vs ws :=
  forall₂_of_append (columns_constants_of_outline e₁ e₂ h₁ h₂ h).2.length_eq hR

theorem exists_literal_of_alike (he : e.isReadable) (hv : v.isReadable) (h : (literal v).outline = e.outline)
    (halike : List.Forall₂ Value.Alike [v] e.constants) : ∃ w, e = .literal w ∧ v.settled = w.settled := by
  obtain ⟨w, rfl, htext⟩ := eq_literal_of_outline he hv h
  cases halike with
  | cons hvw _ => exact ⟨w, rfl, Value.settled_eq_of_literal hvw hv he htext⟩

theorem compileLiteral_settled (c : Context σ) (v : Value) : compileLiteral c v.settled = compileLiteral c v := by
  rw [compileLiteral, Context.store, v.toStored_settled]
  rfl

theorem startLiteral?_eq_none {a b : Expression} {es : List Expression} (h : ¬ ∃ v, b = .literal v) :
    startLiteral? (a :: b :: es) = none := by
  cases b with
  | literal v => exact absurd ⟨v, rfl⟩ h
  | _ => rfl

theorem startLiteral?_eq_of_outlines (h₁ : ∀ p ∈ partsOf es₁, p.isReadable) (h₂ : ∀ p ∈ partsOf es₂, p.isReadable)
    (h : outlines es₁ = outlines es₂) (halike : List.Forall₂ Value.Alike (constantsOf es₁) (constantsOf es₂)) :
    startLiteral? es₁ = startLiteral? es₂ := by
  rcases es₁ with _ | ⟨a, _ | ⟨b, es₁⟩⟩ <;> rcases es₂ with _ | ⟨a', _ | ⟨b', es₂⟩⟩ <;>
    simp only [outlines, List.cons.injEq, reduceCtorEq, and_false] at h
  · rfl
  · rfl
  · simp only [partsOf, forall_mem_append] at h₁ h₂
    obtain ⟨-, hrest⟩ := forall₂_constants_append h₁.1 h₂.1 h.1 halike
    obtain ⟨hstart, -⟩ := forall₂_constants_append h₁.2.1 h₂.2.1 h.2.1 hrest
    have hb := h₁.2.1 b b.self_mem_parts
    have hb' := h₂.2.1 b' b'.self_mem_parts
    by_cases hliteral : ∃ v, b = .literal v
    · obtain ⟨v, rfl⟩ := hliteral
      obtain ⟨w, rfl, hsettled⟩ := exists_literal_of_alike hb' hb h.2.1 hstart
      exact v.int64?_settled.symm.trans (hsettled ▸ w.int64?_settled)
    · have hliteral' : ¬ ∃ w, b' = .literal w := by
        rintro ⟨w, rfl⟩
        obtain ⟨v, hv, -⟩ := eq_literal_of_outline hb hb' h.2.1.symm
        exact hliteral ⟨v, hv⟩
      rw [startLiteral?_eq_none hliteral, startLiteral?_eq_none hliteral']

theorem apply_name {name name' : String} {start : Option Int64} {args : List Bson} {b' : Bson}
    (h : f.apply name guarded start args = .ok b) (h' : f.apply name' guarded start args = .ok b') : b = b' := by
  unfold ScalarFunction.apply at h h'
  dsimp only at h h'
  split at h
  · split at h <;> simp_all
  · split at h <;> simp_all
  · split at h <;> simp_all
  · simp_all

theorem BuiltFrom.constants_eq {bs : List Bson} (h : e.BuiltFrom guarded bs b) :
    e.constants = constantsOf e.operands := by
  cases e with
  | column | literal | aggregate => cases h
  | _ => simp [constants, operands, inner, constantsOf]

/-- Operations with the same outline become the same with the same operands, where calls that start at a
constant start at the same one. -/
theorem BuiltFrom.eq_of_outline {e' : Expression} {bs : List Bson} {b' : Bson} (he : e.isReadable) (he' : e'.isReadable)
    (houtline : e.outline = e'.outline) (hstart : startLiteral? e.operands = startLiteral? e'.operands)
    (h : e.BuiltFrom guarded bs b) (h' : e'.BuiltFrom guarded bs b') : b = b' := by
  cases e with
  | column | literal | aggregate => cases h
  | like input pattern escape negated =>
    cases e' with
    | like input' pattern' escape' negated' =>
      obtain ⟨-, hpattern, rfl, rfl⟩ := Outline.like.inj houtline
      obtain ⟨i, text, rfl, htext, rfl⟩ := h
      obtain ⟨i', text', heq, htext', rfl⟩ := h'
      obtain ⟨v, rfl, -, hv⟩ := likePattern_ok htext
      obtain ⟨w, rfl, -, hw⟩ := likePattern_ok htext'
      have hquoted : v.literal = w.literal := atom.inj hpattern
      cases heq
      rw [quoted_injective (hv.symm.trans (hquoted.trans hw))]
    | _ => cases houtline
  | call name args =>
    cases e' with
    | call name' args' =>
      obtain ⟨f, hf, happly⟩ := h
      obtain ⟨f', hf', happly'⟩ := h'
      have hfunction := ofName?_eq_of_upper he he' (Outline.call.inj houtline).1
      rw [ofName_ok hf, ofName_ok hf'] at hfunction
      cases hfunction
      rw [show startLiteral? args = startLiteral? args' from hstart] at happly
      exact apply_name happly happly'
    | _ => cases houtline
  | _ =>
    cases e' with
    | column | literal | aggregate => cases h'
    | _ => simp [outline] at houtline <;> grind [BuiltFrom]

open Compiling

theorem agree_compileAll
    (hes : ∀ e₁ ∈ es₁, ∀ e₂ ∈ es₂, e₁.outline = e₂.outline → List.Forall₂ Value.Alike e₁.constants e₂.constants →
      Agree (e₁.compile c .raw) (e₂.compile c .raw))
    (h₁ : ∀ p ∈ partsOf es₁, p.isReadable) (h₂ : ∀ p ∈ partsOf es₂, p.isReadable) (h : outlines es₁ = outlines es₂)
    (halike : List.Forall₂ Value.Alike (constantsOf es₁) (constantsOf es₂)) :
    Agree (compileAll c .raw es₁) (compileAll c .raw es₂) := by
  induction forall₂_of_outlines h with
  | nil => exact .refl _
  | @cons e₁ e₂ es₁ es₂ hhead _ ih =>
    rw [partsOf, forall_mem_append] at h₁ h₂
    obtain ⟨hal, har⟩ := forall₂_constants_append h₁.1 h₂.1 hhead halike
    exact .both (hes e₁ (.head _) e₂ (.head _) hhead hal)
      (ih (fun e₁ h₁ e₂ h₂ => hes e₁ (.tail _ h₁) e₂ (.tail _ h₂)) h₁.2 h₂.2 (cons.inj h).2 har)

theorem agree_compile (e₁ e₂ : Expression) (h₁ : ∀ p ∈ e₁.parts, p.isReadable)
    (h₂ : ∀ p ∈ e₂.parts, p.isReadable) (h : e₁.outline = e₂.outline)
    (halike : List.Forall₂ Value.Alike e₁.constants e₂.constants) : Agree (e₁.compile c .raw) (e₂.compile c .raw) := by
  induction e₁ using induction_inner generalizing e₂ with | step e₁ ih =>
  have hself₁ := h₁ e₁ e₁.self_mem_parts
  have hself₂ := h₂ e₂ e₂.self_mem_parts
  intro s b₁ b₂ s₁ s₂ hb₁ hb₂
  cases compile_ok hb₁ with
  | column =>
    obtain rfl := eq_column_of_outline hself₂ hself₁ h
    exact Agree.refl _ s _ _ _ _ hb₁ hb₂
  | literal =>
    obtain ⟨w, rfl, hsettled⟩ := exists_literal_of_alike hself₂ hself₁ h halike
    rw [compile, ← compileLiteral_settled, hsettled, compileLiteral_settled] at hb₁
    exact Agree.refl _ s _ _ _ _ hb₁ hb₂
  | operation hbs₁ hbuilt₁ =>
    cases compile_ok hb₂ with
    | column =>
      rw [eq_column_of_outline hself₁ hself₂ h.symm] at hbuilt₁
      cases hbuilt₁
    | literal =>
      obtain ⟨w, rfl, -⟩ := eq_literal_of_outline hself₁ hself₂ h.symm
      cases hbuilt₁
    | operation hbs₂ hbuilt₂ =>
      have houtlines := (outlines_of_outline hself₁ hself₂ h).2
      have hread₁ := fun p hp => h₁ p (partsOf_operands_subset e₁ hp)
      have hread₂ := fun p hp => h₂ p (partsOf_operands_subset e₂ hp)
      rw [hbuilt₁.constants_eq, hbuilt₂.constants_eq] at halike
      have hpair (x) (hx : x ∈ e₁.operands) (y) (hy : y ∈ e₂.operands) :=
        ih x (mem_inner_of_operands hx) y (readable_of_mem_inner h₁ (mem_inner_of_operands hx))
          (readable_of_mem_inner h₂ (mem_inner_of_operands hy))
      obtain ⟨rfl, rfl⟩ := agree_compileAll hpair hread₁ hread₂ houtlines halike s _ _ _ _ hbs₁ hbs₂
      have hstart := startLiteral?_eq_of_outlines hread₁ hread₂ houtlines halike
      exact ⟨hbuilt₁.eq_of_outline hself₁ hself₂ h hstart hbuilt₂, rfl⟩

theorem compile_eq_of_sql {e₁ e₂ : Expression} {b₁ b₂ : Bson} {s s₁ s₂ : Draft σ}
    (hplain₁ : ∀ p ∈ e₁.parts, p.isUnmistakable) (hplain₂ : ∀ p ∈ e₂.parts, p.isUnmistakable)
    (h₁ : e₁.compile c .raw s = (.ok b₁, s₁)) (h₂ : e₂.compile c .raw s = (.ok b₂, s₂)) (hsql : e₁.sql = e₂.sql) :
    e₁.outline = e₂.outline ∧ e₁.columns = e₂.columns ∧
      List.Forall₂ (fun v w : Value => v.literal = w.literal) e₁.constants e₂.constants ∧
      (List.Forall₂ Value.Alike e₁.constants e₂.constants → b₁ = b₂ ∧ s₁ = s₂) := by
  have hread₁ := isReadable_of_compile e₁ hplain₁ h₁
  have hread₂ := isReadable_of_compile e₂ hplain₂ h₂
  have houtline := outline_eq_of_sql hread₁ hread₂ hsql
  obtain ⟨hcolumns, hconstants⟩ := columns_constants_of_outline e₁ e₂ hread₁ hread₂ houtline
  refine ⟨houtline, hcolumns, hconstants, fun halike => ?_⟩
  exact agree_compile e₁ e₂ hread₁ hread₂ houtline halike s b₁ b₂ s₁ s₂ h₁ h₂

/-- A function named in other letters makes no difference, a constant of another type does. -/
theorem compile_eq_of_sql_ifNull :
    let c : Context Unit :=
      { catalog := .ofTables [
          { name := "posts", columns := [⟨"id", .integer, false⟩, ⟨"title", .string, false⟩], primaryKey := ["id"] }]
        top := "posts", sources := [⟨"p", "posts", [], false⟩], objects := .unavailable
        mode := .pipeline }
    let e (function : String) (one : Value) : Expression :=
      .and [.isIn (.column ⟨"p", "title"⟩) [.literal (.string "it's"), .literal .null] true,
        .comparison .gt (.call function [.column ⟨"", "id"⟩, .literal one]) (.literal (.integer (-5)))]
    let e₁ := e "ifnull" (.integer 1)
    let e₂ := e "IfNull" (.integer 1)
    let e₃ := e "IFNULL" (.long 1)
    let s : Draft Unit := { objects := () }
    e₁.sql = e₂.sql ∧ e₁.sql = e₃.sql ∧ ∃ b₁ b₂ b₃ s', e₁.compile c .raw s = (.ok b₁, s') ∧
      e₂.compile c .raw s = (.ok b₂, s') ∧ e₃.compile c .raw s = (.ok b₃, s') ∧ b₁ = b₂ ∧ b₁ ≠ b₃ := by
  intro c e e₁ e₂ e₃ s
  let result (one : Bson) : Bson :=
    .opList "$and" [
      .opList "$not" [.opList "$in" [.fieldRef "title", .array [.string "it's", .null]]],
      .opList "$gt" [.opList "$ifNull" [.fieldRef "_id", one], .int32 (-5)]]
  let known : Draft Unit :=
    { registry := [("p.title", .ofExpression (.fieldRef "title")), ("id", .ofExpression (.fieldRef "_id"))]
      objects := () }
  have hrun₁ : e₁.compile c .raw s = (.ok (result (.int32 1)), known) := by
    simp only [c, e, e₁, s, result, known]
    cbv
  have hrun₂ : e₂.compile c .raw s = (.ok (result (.int32 1)), known) := by
    simp only [c, e, e₂, s, result, known]
    cbv
  have hrun₃ : e₃.compile c .raw s = (.ok (result (.int64 1)), known) := by
    simp only [c, e, e₃, s, result, known]
    cbv
  have hsql : e₁.sql = e₂.sql := by decide
  have hplain₁ : ∀ p ∈ e₁.parts, p.isUnmistakable := by simp [e₁, e, parts, partsOf, isUnmistakable]; decide
  have hplain₂ : ∀ p ∈ e₂.parts, p.isUnmistakable := by simp [e₂, e, parts, partsOf, isUnmistakable]; decide
  have halike : List.Forall₂ Value.Alike e₁.constants e₂.constants := by
    simp [e₁, e₂, e, constants, constantsOf, Value.Alike.refl]
  have hequal := compile_eq_of_sql hplain₁ hplain₂ hrun₁ hrun₂ hsql
  refine ⟨hsql, by decide, _, _, _, _, hrun₁, hrun₂, hrun₃, (hequal.2.2.2 halike).1, ?_⟩
  simp [result, Bson.opList, Bson.op]

end Expression

end Pushdown
