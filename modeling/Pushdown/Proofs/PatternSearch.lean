import Mathlib.Data.List.Infix
import Mathlib.Logic.Relation
import Pushdown.Proofs.Outcome
import Pushdown.Proofs.PatternText

/-!
# Searching for patterns

`Like`: what a LIKE pattern matches, said of its characters. `Regex.FoundIn`: what a regular expression matches,
said of the way it is put together from its text. `found_iff_like`: the expression of a pattern is found in a text
just when the pattern matches the whole of it, although the runs at its ends are left out (`closing`).
-/

namespace Pushdown

open List

/-! ### Patterns -/

/-- Whether a pattern matches a text. A percent sign stands for any run of characters and a low line for one
character; the character after the escape character stands for itself, and an escape character at the end
for nothing. -/
inductive Like (escape : Option Char) : List Char → List Char → Prop where
  | nil : Like escape [] []
  | trailing {e : Char} (he : escape = some e) : Like escape [e] []
  | escaped {e c : Char} {pattern text : List Char} (he : escape = some e) (h : Like escape pattern text) :
      Like escape (e :: c :: pattern) (c :: text)
  | any {pattern text : List Char} (run : List Char) (he : escape ≠ some '%') (h : Like escape pattern text) :
      Like escape ('%' :: pattern) (run ++ text)
  | one {c : Char} {pattern text : List Char} (he : escape ≠ some '_') (h : Like escape pattern text) :
      Like escape ('_' :: pattern) (c :: text)
  | char {c : Char} {pattern text : List Char} (he : escape ≠ some c) (hany : c ≠ '%') (hone : c ≠ '_')
      (h : Like escape pattern text) : Like escape (c :: pattern) (c :: text)

namespace LikeToken

/-- Whether tokens match what lies between two places of a text. A place is what is left of the text from
there on. -/
def Spans : List LikeToken → List Char → List Char → Prop
  | [], rest, rest' => rest = rest'
  | .any :: tokens, rest, rest' => ∃ mid, mid <:+ rest ∧ Spans tokens mid rest'
  | .one :: tokens, rest, rest' => ∃ c mid, rest = c :: mid ∧ Spans tokens mid rest'
  | .char c :: tokens, rest, rest' => ∃ mid, rest = c :: mid ∧ Spans tokens mid rest'

section Equations

variable {tokens : List LikeToken} {rest rest' : List Char}

theorem spans_nil : Spans [] rest rest' ↔ rest = rest' := Iff.rfl

theorem spans_any : Spans (.any :: tokens) rest rest' ↔ ∃ mid, mid <:+ rest ∧ Spans tokens mid rest' := Iff.rfl

theorem spans_one : Spans (.one :: tokens) rest rest' ↔ ∃ c mid, rest = c :: mid ∧ Spans tokens mid rest' := Iff.rfl

theorem spans_char {c : Char} :
    Spans (.char c :: tokens) rest rest' ↔ ∃ mid, rest = c :: mid ∧ Spans tokens mid rest' := Iff.rfl

end Equations

theorem spans_append (tokens more : List LikeToken) (rest rest' : List Char) :
    Spans (tokens ++ more) rest rest' ↔ ∃ mid, Spans tokens rest mid ∧ Spans more mid rest' := by
  induction tokens generalizing rest with
  | nil => simp [spans_nil]
  | cons token tokens ih =>
    cases token <;> simp only [cons_append, spans_any, spans_one, spans_char, ih] <;> grind

variable {escape : Option Char} {c d : Char} {cs rest : List Char}

theorem scan_escaped (he : escape = some c) : scan escape (c :: d :: rest) = .char d :: scan escape rest := if_pos he

theorem scan_trailing (he : escape = some c) : scan escape [c] = [] := if_pos he

theorem scan_of_ne (he : escape ≠ some c) :
    scan escape (c :: cs) = (if c = '%' then .any else if c = '_' then .one else .char c) :: scan escape cs := by
  have hscan : scan escape (c :: cs) = if c = '%' then .any :: scan escape cs
      else if c = '_' then .one :: scan escape cs else .char c :: scan escape cs := by
    cases cs <;> exact if_neg he
  rw [hscan]
  split_ifs <;> rfl

theorem like_cons_iff (he : escape ≠ some c)
    (ih : ∀ text, Like escape cs text ↔ Spans (scan escape cs) text []) (text : List Char) :
    Like escape (c :: cs) text ↔ Spans (scan escape (c :: cs)) text [] := by
  rw [scan_of_ne he]
  split_ifs with hany hone
  · subst hany
    simp only [spans_any, ← ih]
    constructor
    · intro h
      cases h with
      | any run _ h => exact ⟨_, suffix_append run _, h⟩
      | trailing h | escaped h => exact absurd h he
      | char _ h => exact absurd rfl h
    · rintro ⟨mid, ⟨run, rfl⟩, h⟩
      exact .any run he h
  · subst hone
    simp only [spans_one, ← ih]
    constructor
    · intro h
      cases h with
      | one _ h => exact ⟨_, _, rfl, h⟩
      | trailing h | escaped h => exact absurd h he
      | char _ _ h => exact absurd rfl h
    · rintro ⟨c, mid, rfl, h⟩
      exact .one he h
  · simp only [spans_char, ← ih]
    constructor
    · intro h
      cases h with
      | char _ _ _ h => exact ⟨_, rfl, h⟩
      | trailing h | escaped h => exact absurd h he
      | any => exact absurd rfl hany
      | one => exact absurd rfl hone
    · rintro ⟨mid, rfl, h⟩
      exact .char he hany hone h

theorem like_iff_spans (escape : Option Char) (pattern text : List Char) :
    Like escape pattern text ↔ Spans (scan escape pattern) text [] := by
  have hnil (text : List Char) : Like escape [] text ↔ Spans (scan escape []) text [] :=
    ⟨fun h => by cases h; rfl, fun h => by cases h; exact .nil⟩
  -- An escape character takes the next one with it, so the induction goes by one character or by two.
  induction pattern using List.twoStepInduction generalizing text with
  | nil => exact hnil text
  | singleton c =>
    by_cases he : escape = some c
    · rw [scan_trailing he]
      constructor
      · intro h
        cases h with
        | trailing => rfl
        | any _ h | one h | char h => exact absurd he h
      · rintro rfl
        exact .trailing he
    · exact like_cons_iff he hnil text
  | cons_cons c d rest ih ih' =>
    by_cases he : escape = some c
    · simp only [scan_escaped he, spans_char, ← ih]
      constructor
      · intro h
        cases h with
        | escaped _ h => exact ⟨_, rfl, h⟩
        | any _ h | one h | char h => exact absurd he h
      · rintro ⟨mid, rfl, h⟩
        exact .escaped he h
    · exact like_cons_iff he (ih' d) text

end LikeToken

/-! ### Regular expressions -/

/-- A regular expression. A dot stands for any character, line breaks included. -/
inductive Regex where
  | empty
  | char (c : Char)
  | dot
  | start
  | finish
  | star (r : Regex)
  | seq (r s : Regex)

variable {c : Char}

namespace Regex

/-- Whether an expression matches what lies between two places of the text. -/
def Spans (text : List Char) : Regex → List Char → List Char → Prop
  | .empty, rest, rest' => rest = rest'
  | .char c, rest, rest' => rest = c :: rest'
  | .dot, rest, rest' => ∃ c, rest = c :: rest'
  | .start, rest, rest' => rest = text ∧ rest = rest'
  | .finish, rest, rest' => rest = [] ∧ rest = rest'
  | .star r, rest, rest' => Relation.ReflTransGen (Spans text r) rest rest'
  | .seq r s, rest, rest' => ∃ mid, Spans text r rest mid ∧ Spans text s mid rest'

section Equations

variable {text rest rest' : List Char}

theorem spans_empty : empty.Spans text rest rest' ↔ rest = rest' := Iff.rfl

theorem spans_char : (char c).Spans text rest rest' ↔ rest = c :: rest' := Iff.rfl

theorem spans_dot : dot.Spans text rest rest' ↔ ∃ c, rest = c :: rest' := Iff.rfl

theorem spans_start : start.Spans text rest rest' ↔ rest = text ∧ rest = rest' := Iff.rfl

theorem spans_finish : finish.Spans text rest rest' ↔ rest = [] ∧ rest = rest' := Iff.rfl

theorem spans_seq {r s : Regex} :
    (seq r s).Spans text rest rest' ↔ ∃ mid, r.Spans text rest mid ∧ s.Spans text mid rest' := Iff.rfl

end Equations

def FoundIn (r : Regex) (text : List Char) : Prop := ∃ rest rest', rest <:+ text ∧ r.Spans text rest rest'

def operators : List Char := ['\\', '.', '+', '*', '?', '(', ')', '|', '[', ']', '\x7b', '\x7d', '^', '$']

/-- Whether a character stands for itself after a backslash. Letters and digits there have meanings of
their own. -/
def isEscapable (c : Char) : Bool := c.toNat < 128 && !c.isAlphanum && c != '<' && c != '>'

/-- An expression in front of what follows it, which says first whether a star comes next. -/
def followedBy (r : Regex) (next : Bool × Regex) : Bool × Regex :=
  (false, .seq (if next.1 then .star r else r) next.2)

/-- Reads an expression of characters, dots and ends of the text, each of which may have a star. Says first
whether the text starts with the star of what comes before it. -/
def read : List Char → Option (Bool × Regex)
  | [] => some (false, .empty)
  | '*' :: cs => (read cs).bind fun next => if next.1 then none else some (true, next.2)
  | '\\' :: c :: cs => if isEscapable c then (read cs).map (followedBy (.char c)) else none
  | '.' :: cs => (read cs).map (followedBy .dot)
  | '^' :: cs => (read cs).map (followedBy .start)
  | '$' :: cs => (read cs).map (followedBy .finish)
  | c :: cs => if operators.contains c then none else (read cs).map (followedBy (.char c))

theorem read_star (cs : List Char) :
    read ('*' :: cs) = (read cs).bind fun next => if next.1 then none else some (true, next.2) := rfl

theorem read_dot (cs : List Char) : read ('.' :: cs) = (read cs).map (followedBy .dot) := rfl

theorem read_start (cs : List Char) : read ('^' :: cs) = (read cs).map (followedBy .start) := rfl

def ofText? (text : String) : Option Regex :=
  (read text.toList).bind fun p => if p.1 then none else some p.2

def ofTokens (r : Regex) : List LikeToken → Regex
  | [] => r
  | .any :: tokens => .seq (.star .dot) (ofTokens r tokens)
  | .one :: tokens => .seq .dot (ofTokens r tokens)
  | .char c :: tokens => .seq (.char c) (ofTokens r tokens)

def ofEnd (atEnd : Bool) : Regex := if atEnd then .seq .finish .empty else .empty

theorem read_char (hc : LikeRegex.special.contains c = false) (cs : List Char) :
    read (c :: cs) = (read cs).map (followedBy (.char c)) := by
  have hne {d : Char} (hd : LikeRegex.special.contains d) : c ≠ d := fun heq => by rw [heq, hd] at hc; cases hc
  have hoperator : operators.contains c = false := by
    refine Bool.eq_false_iff.mpr fun hmem => ?_
    have hall : operators.all LikeRegex.special.contains = true := by decide
    rw [List.all_eq_true.mp hall c (contains_iff_mem.mp hmem)] at hc
    cases hc
  rw [read, if_neg (by rw [hoperator]; exact Bool.false_ne_true)]
  · exact fun heq => absurd heq (hne (by decide))
  · exact fun _ _ heq => absurd heq (hne (by decide))
  · exact fun heq => absurd heq (hne (by decide))
  · exact fun heq => absurd heq (hne (by decide))
  · exact fun heq => absurd heq (hne (by decide))

theorem read_escaped (hc : LikeRegex.special.contains c) (cs : List Char) :
    read ('\\' :: c :: cs) = (read cs).map (followedBy (.char c)) := by
  have hall : LikeRegex.special.all isEscapable = true := by decide
  exact if_pos (List.all_eq_true.mp hall c (contains_iff_mem.mp hc))

theorem read_items (items : List LikeToken) (atEnd : Bool) :
    read (items.flatMap LikeRegex.itemChars ++ LikeRegex.endChars atEnd) =
      some (false, ofTokens (ofEnd atEnd) items) := by
  induction items with
  | nil => cases atEnd <;> rfl
  | cons item items ih =>
    rw [flatMap_cons, append_assoc]
    cases item with
    | any =>
      rw [LikeRegex.itemChars, cons_append, cons_append, nil_append, read_dot, read_star, ih]
      rfl
    | one =>
      rw [LikeRegex.itemChars, cons_append, nil_append, read_dot, ih]
      rfl
    | char c =>
      rw [LikeRegex.itemChars]
      split
      · rename_i hc
        rw [cons_append, cons_append, nil_append, read_escaped hc, ih]
        rfl
      · rename_i hc
        rw [cons_append, nil_append, read_char (Bool.eq_false_iff.mpr hc), ih]
        rfl

end Regex

def LikeRegex.toRegex (r : LikeRegex) : Regex :=
  let items := Regex.ofTokens (.ofEnd r.atEnd) r.items
  if r.atStart then .seq .start items else items

theorem LikeRegex.ofText?_text (r : LikeRegex) : Regex.ofText? r.text = some r.toRegex := by
  have hread : Regex.read r.text.toList = some (false, r.toRegex) := by
    rw [toList_text, toRegex]
    cases r.atStart with
    | true => simp [Regex.read_start, Regex.read_items, Regex.followedBy]
    | false => simp [Regex.read_items]
  rw [Regex.ofText?, hread]
  rfl

/-! ### What is found -/

namespace Regex

theorem spans_star_dot (text rest rest' : List Char) : (star dot).Spans text rest rest' ↔ rest' <:+ rest := by
  constructor
  · intro h
    replace h : Relation.ReflTransGen (dot.Spans text) rest rest' := h
    induction h with
    | refl => exact suffix_rfl
    | tail _ step ih =>
      obtain ⟨c, rfl⟩ := step
      exact (suffix_cons c _).trans ih
  · rintro ⟨run, rfl⟩
    show Relation.ReflTransGen (dot.Spans text) (run ++ rest') rest'
    induction run with
    | nil => exact .refl
    | cons c run ih => exact .head ⟨c, rfl⟩ ih

theorem spans_ofTokens (r : Regex) (tokens : List LikeToken) (text rest rest' : List Char) :
    (ofTokens r tokens).Spans text rest rest' ↔ ∃ mid, LikeToken.Spans tokens rest mid ∧ r.Spans text mid rest' := by
  induction tokens generalizing rest with
  | nil => simp [ofTokens, LikeToken.spans_nil]
  | cons token tokens ih =>
    cases token with
    | any =>
      simp only [ofTokens, LikeToken.spans_any, spans_seq, spans_star_dot, ih]
      constructor
      · rintro ⟨m, hm, n, hn, hr⟩
        exact ⟨n, ⟨m, hm, hn⟩, hr⟩
      · rintro ⟨n, ⟨m, hm, hn⟩, hr⟩
        exact ⟨m, hm, n, hn, hr⟩
    | one =>
      simp only [ofTokens, LikeToken.spans_one, spans_seq, spans_dot, ih]
      constructor
      · rintro ⟨m, ⟨c, hm⟩, n, hn, hr⟩
        exact ⟨n, ⟨c, m, hm, hn⟩, hr⟩
      · rintro ⟨n, ⟨c, m, hm, hn⟩, hr⟩
        exact ⟨m, ⟨c, hm⟩, n, hn, hr⟩
    | char c =>
      simp only [ofTokens, LikeToken.spans_char, spans_seq, spans_char, ih]
      constructor
      · rintro ⟨m, hm, n, hn, hr⟩
        exact ⟨n, ⟨m, hm, hn⟩, hr⟩
      · rintro ⟨n, ⟨m, hm, hn⟩, hr⟩
        exact ⟨m, hm, n, hn, hr⟩

theorem spans_ofEnd (atEnd : Bool) (text rest rest' : List Char) :
    (ofEnd atEnd).Spans text rest rest' ↔ rest = rest' ∧ (atEnd → rest = []) := by
  cases atEnd <;> simp [ofEnd, spans_seq, spans_finish, spans_empty]
  grind

end Regex

namespace LikeRegex

/-- Whether the items match from a place of the text on, up to the end where they have to. -/
def MatchesFrom (r : LikeRegex) (rest : List Char) : Prop :=
  ∃ rest', LikeToken.Spans r.items rest rest' ∧ (r.atEnd → rest' = [])

/-- Whether the items match from some place of the text on, from the start where they have to. -/
def Matches (r : LikeRegex) (text : List Char) : Prop :=
  ∃ rest, rest <:+ text ∧ (r.atStart → rest = text) ∧ r.MatchesFrom rest

theorem foundIn_toRegex (r : LikeRegex) (text : List Char) : r.toRegex.FoundIn text ↔ r.Matches text := by
  have hitems (rest : List Char) :
      (∃ rest', (Regex.ofTokens (.ofEnd r.atEnd) r.items).Spans text rest rest') ↔ r.MatchesFrom rest := by
    simp only [Regex.spans_ofTokens, Regex.spans_ofEnd, MatchesFrom]
    grind
  rw [Regex.FoundIn, Matches, toRegex]
  cases r.atStart with
  | true =>
    simp only [if_true, Regex.spans_seq, Regex.spans_start, forall_const, ← hitems]
    grind
  | false =>
    simp only [Bool.false_eq_true, if_false, false_implies, true_and, ← hitems]
    grind

theorem spans_dropLast {tokens : List LikeToken} (h : tokens.getLast? = some .any) (rest : List Char) :
    LikeToken.Spans tokens rest [] ↔ ∃ rest', LikeToken.Spans tokens.dropLast rest rest' := by
  have hsplit : tokens = tokens.dropLast ++ [.any] := by
    obtain ⟨front, rfl⟩ := getLast?_eq_some_iff.mp h
    simp
  rw [hsplit, LikeToken.spans_append]
  simp [LikeToken.spans_any, LikeToken.spans_nil]

/-- The expression of tokens behind a run that has been left out, or behind none. -/
def closing (openStart : Bool) (tokens : List LikeToken) : LikeRegex :=
  let openEnd := tokens.getLast? = some .any
  let items := if openEnd then tokens.dropLast else tokens
  { atStart := !openStart, items := items, atEnd := !openEnd && !(openStart && items.isEmpty) }

theorem ofTokens_eq (tokens : List LikeToken) :
    ofTokens tokens = if tokens.head? = some .any then closing true tokens.tail else closing false tokens := by
  rw [ofTokens]
  by_cases h : tokens.head? = some .any <;> simp only [closing, h, if_true, if_false] <;> rfl

theorem matchesFrom_closing (openStart : Bool) (tokens : List LikeToken) (rest : List Char) :
    (closing openStart tokens).MatchesFrom rest ↔ LikeToken.Spans tokens rest [] ∨ (openStart ∧ tokens = []) := by
  by_cases hend : tokens.getLast? = some .any
  · have hne : tokens ≠ [] := by
      rintro rfl
      cases hend
    simp [closing, MatchesFrom, hend, hne, spans_dropLast hend]
  · by_cases hbare : openStart = true ∧ tokens = []
    · obtain ⟨rfl, rfl⟩ := hbare
      simp [closing, MatchesFrom, LikeToken.spans_nil]
    · have hbound : (openStart && tokens.isEmpty) = false := by
        simpa [Bool.and_eq_false_iff] using hbare
      simp only [closing, MatchesFrom, hend, hbound, if_false]
      simp [hbare]

theorem matches_ofTokens (tokens : List LikeToken) (text : List Char) :
    (ofTokens tokens).Matches text ↔ LikeToken.Spans tokens text [] := by
  rw [ofTokens_eq]
  split_ifs with hstart
  · obtain ⟨tokens, rfl⟩ : ∃ rest, tokens = .any :: rest := head?_eq_some_iff.mp hstart
    have hopen : (closing true tokens).atStart = false := rfl
    simp only [Matches, hopen, matchesFrom_closing, tail_cons, LikeToken.spans_any]
    constructor
    · rintro ⟨rest, hrest, -, hspans | ⟨-, rfl⟩⟩
      · exact ⟨rest, hrest, hspans⟩
      · exact ⟨[], nil_suffix, rfl⟩
    · rintro ⟨rest, hrest, hspans⟩
      exact ⟨rest, hrest, by simp, .inl hspans⟩
  · have hclosed : (closing false tokens).atStart = true := rfl
    simp only [Matches, hclosed, matchesFrom_closing, Bool.false_eq_true, false_and, or_false, forall_const]
    constructor
    · rintro ⟨rest, -, rfl, hspans⟩
      exact hspans
    · exact fun hspans => ⟨text, suffix_rfl, rfl, hspans⟩

/-! ### Where items match -/

/-- Whether a list says for each place of the text, its end included, if `q` holds there. -/
def Tells (q : List Char → Prop) (text : List Char) (found : List Bool) : Prop :=
  List.Forall₂ (fun rest b => b = true ↔ q rest) text.tails found

variable {q : List Char → Prop} {text : List Char} {found : List Bool}

theorem tells_cons :
    Tells q (c :: text) found ↔ ∃ b later, found = b :: later ∧ (b = true ↔ q (c :: text)) ∧ Tells q text later := by
  rw [Tells, tails_cons, forall₂_cons_left_iff]
  constructor
  · rintro ⟨b, later, hb, hlater, h⟩
    exact ⟨b, later, h, hb, hlater⟩
  · rintro ⟨b, later, h, hb, hlater⟩
    exact ⟨b, later, hb, hlater, h⟩

theorem Tells.congr {q' : List Char → Prop} (h : Tells q text found) (hq : ∀ rest, q rest ↔ q' rest) :
    Tells q' text found := List.Forall₂.imp (fun rest _ hb => hb.trans (hq rest)) h

theorem tells_nil : Tells q [] found ↔ ∃ b, found = [b] ∧ (b = true ↔ q []) := by
  show List.Forall₂ _ [[]] found ↔ _
  rw [forall₂_cons_left_iff]
  simp only [forall₂_nil_left_iff]
  grind

theorem exists_head_of_tells (h : Tells q text found) : ∃ b later, found = b :: later ∧ (b = true ↔ q text) := by
  cases text with
  | nil =>
    obtain ⟨b, rfl, hb⟩ := tells_nil.mp h
    exact ⟨b, [], rfl, hb⟩
  | cons c text =>
    obtain ⟨b, later, rfl, hb, -⟩ := tells_cons.mp h
    exact ⟨b, later, rfl, hb⟩

theorem tells_fromHereOn (h : Tells q text found) :
    Tells (fun rest => ∃ mid, mid <:+ rest ∧ q mid) text (fromHereOn found) := by
  induction text generalizing found with
  | nil =>
    obtain ⟨b, rfl, hb⟩ := tells_nil.mp h
    exact tells_nil.mpr ⟨b, rfl, by simp [hb]⟩
  | cons c text ih =>
    obtain ⟨b, later, rfl, hb, hlater⟩ := tells_cons.mp h
    have hrest := ih hlater
    obtain ⟨next, more, hnext, hhead⟩ := exists_head_of_tells hrest
    rw [hnext] at hrest
    rw [fromHereOn, hnext]
    refine tells_cons.mpr ⟨b || next, next :: more, rfl, ?_, hrest⟩
    simp only [Bool.or_eq_true, hb, hhead, suffix_cons_iff]
    grind

theorem tells_shift (p : Char → Bool) (h : Tells q text found) :
    Tells (fun rest => ∃ c mid, rest = c :: mid ∧ p c ∧ q mid) text
      (List.zipWith (fun c b => p c && b) text found.tail ++ [false]) := by
  induction text generalizing found with
  | nil => exact tells_nil.mpr ⟨false, by simp, by simp⟩
  | cons c text ih =>
    obtain ⟨b, later, rfl, -, hlater⟩ := tells_cons.mp h
    obtain ⟨next, more, rfl, hnext⟩ := exists_head_of_tells hlater
    refine tells_cons.mpr ⟨p c && next, _, rfl, ?_, ih hlater⟩
    simp [hnext]

theorem zipWith_true_and (h : text.length = found.length) :
    List.zipWith (fun _ b => true && b) text found = found := by
  induction text generalizing found with
  | nil => simpa using h.symm
  | cons c text ih =>
    cases found with
    | nil => cases h
    | cons b found => simpa using ih (by simpa using h)

theorem length_of_tells (h : Tells q text found) : text.length = found.tail.length := by
  have hlength := h.length_eq
  rw [length_tails] at hlength
  rw [length_tail, ← hlength, Nat.add_sub_cancel]

theorem tells_spots (atEnd : Bool) (text : List Char) (items : List LikeToken) :
    Tells (fun rest => ∃ rest', LikeToken.Spans items rest rest' ∧ (atEnd → rest' = [])) text
      (spots atEnd text items) := by
  induction items with
  | nil =>
    simp only [LikeToken.spans_nil, spots]
    induction text with
    | nil => exact tells_nil.mpr ⟨true, rfl, by simp⟩
    | cons c text ih => exact tells_cons.mpr ⟨!atEnd, _, rfl, by simp, ih⟩
  | cons item items ih =>
    cases item with
    | any =>
      refine (tells_fromHereOn ih).congr fun rest => ?_
      simp only [LikeToken.spans_any]
      grind
    | one =>
      have h := tells_shift (fun _ => true) ih
      rw [zipWith_true_and (length_of_tells ih)] at h
      refine h.congr fun rest => ?_
      simp only [LikeToken.spans_one]
      grind
    | char c =>
      refine (tells_shift (· == c) ih).congr fun rest => ?_
      simp only [LikeToken.spans_char, beq_iff_eq]
      grind

theorem matchesIn_iff (r : LikeRegex) (text : String) : r.matchesIn text ↔ r.Matches text.toList := by
  have h := tells_spots r.atEnd text.toList r.items
  rw [matchesIn, Matches]
  cases r.atStart with
  | true =>
    obtain ⟨b, later, hfound, hb⟩ := exists_head_of_tells h
    simp only [if_true, hfound, head?_cons, beq_iff_eq, Option.some.injEq, hb, forall_const]
    constructor
    · exact fun hspans => ⟨_, suffix_rfl, rfl, hspans⟩
    · rintro ⟨rest, -, rfl, hspans⟩
      exact hspans
  | false =>
    simp only [Bool.false_eq_true, if_false, any_eq_true, id, false_implies, true_and, exists_eq_right]
    constructor
    · intro hmem
      obtain ⟨rest, hrest, hb⟩ := exists_left_of_forall₂ h hmem
      exact ⟨rest, (mem_tails _ _).mp (of_mem_zip hrest).1, hb.mp rfl⟩
    · rintro ⟨rest, hrest, hspans⟩
      obtain ⟨b, hb, hiff⟩ := exists_right_of_forall₂ h ((mem_tails _ _).mpr hrest)
      rw [← hiff.mpr hspans]
      exact (of_mem_zip hb).2

/-- The regular expression that is made of a pattern is found in a text just when the pattern matches it, as the
store reads the expression and as it is evaluated here. -/
theorem found_iff_like (pattern : String) (escape : Option Char) (text : String) :
    (∃ r, Regex.ofText? (ofPattern pattern escape).text = some r ∧
      (r.FoundIn text.toList ↔ Like escape pattern.toList text.toList)) ∧
      ((ofPattern pattern escape).matchesIn text ↔ Like escape pattern.toList text.toList) := by
  have hmatches : (ofPattern pattern escape).Matches text.toList ↔ Like escape pattern.toList text.toList := by
    rw [ofPattern, matches_ofTokens, LikeToken.like_iff_spans]
  exact ⟨⟨_, ofText?_text _, (foundIn_toRegex _ _).trans hmatches⟩, (matchesIn_iff _ _).trans hmatches⟩

end LikeRegex

end Pushdown
