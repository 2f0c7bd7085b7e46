import Pushdown.Proofs.CalendarText
import Pushdown.Proofs.NumeralText
import Pushdown.Sql.Printer

/-!
# The texts of columns and constants

`scanAtom` reads the text of a column or constant up to where the text around it goes on (`Stop`): at a parenthesis,
a comma, or a blank that no quoted text follows. Quotes and brackets hold everything between them together
(`Passes`). `column_text_eq_iff`: columns are told apart by their texts. They are told from constants unless they
are named like one (`IsConstant`).
-/

namespace Pushdown.Sql

open List

/-! ### Where an atom ends -/

def special : List Char := [' ', '(', ')', ',', '\'', '\x60', '[', ']']

/-- Whether the text of an atom ends before `c`, outside quotes and inside `depth` brackets. -/
def endsAtom (depth : Nat) (c : Char) (cs : List Char) : Bool :=
  depth == 0 && (['(', ')', ',', ']'].contains c || (c == ' ' && cs.head? != some '\''))

def depthAfter (depth : Nat) (c : Char) : Nat :=
  if c = '[' then depth + 1 else if c = ']' then depth - 1 else depth

def openedBy (c : Char) : Option Char := if c = '\'' ∨ c = '\x60' then some c else none

def scanAtom : Nat → Option Char → List Char → List Char × List Char
  | _, _, [] => ([], [])
  | depth, some mark, c :: cs =>
    let p := scanAtom depth (if c = mark then none else some mark) cs
    (c :: p.1, p.2)
  | depth, none, c :: cs =>
    if endsAtom depth c cs then ([], c :: cs)
    else
      let p := scanAtom (depthAfter depth c) (openedBy c) cs
      (c :: p.1, p.2)

/-- A text that the text around an atom can go on with. -/
def Stop : List Char → Prop
  | [] => True
  | c :: cs => c = ')' ∨ c = ',' ∨ c = ']' ∨ c = ' ' ∧ cs.head? ≠ some '\''

theorem stop_nil : Stop [] := trivial

theorem stop_close (cs : List Char) : Stop (')' :: cs) := .inl rfl

theorem Stop.scanAtom {r : List Char} (hr : Stop r) : scanAtom 0 none r = ([], r) := by
  cases r with
  | nil => rfl
  | cons c cs =>
    have hends : endsAtom 0 c cs = true := by
      rcases hr with rfl | rfl | rfl | ⟨rfl, hcs⟩
      · rfl
      · rfl
      · rfl
      · simpa [endsAtom] using hcs
    rw [Sql.scanAtom, if_pos hends]

/-! ### Texts that are read as one -/

/-- Whether a text is read through, inside `depth` brackets. -/
def Passes (depth : Nat) (cs : List Char) : Prop :=
  ∀ r, scanAtom depth none (cs ++ r) = (cs ++ (scanAtom depth none r).1, (scanAtom depth none r).2)

variable {depth : Nat} {cs ds r : List Char} {mark : Char}

theorem passes_nil : Passes depth [] := fun _ => rfl

theorem Passes.append (h : Passes depth cs) (h' : Passes depth ds) : Passes depth (cs ++ ds) := by
  intro r
  rw [append_assoc, h, h', append_assoc]

theorem Passes.scanAtom (h : Passes 0 cs) (hr : Stop r) : scanAtom 0 none (cs ++ r) = (cs, r) := by
  rw [h, hr.scanAtom, append_nil]

variable {c : Char}

theorem scanAtom_cons (h : endsAtom depth c cs = false) :
    scanAtom depth none (c :: cs) =
      (c :: (scanAtom (depthAfter depth c) (openedBy c) cs).1, (scanAtom (depthAfter depth c) (openedBy c) cs).2) := by
  rw [scanAtom, h]
  rfl

theorem passes_of_plain (hc : c ∉ special) : Passes depth [c] := by
  intro r
  simp only [special, mem_cons, not_mem_nil, or_false, not_or] at hc
  obtain ⟨h₁, h₂, h₃, h₄, h₅, h₆, h₇, h₈⟩ := hc
  rw [singleton_append, scanAtom_cons (by simp [endsAtom, h₁, h₂, h₃, h₄, h₈])]
  simp [depthAfter, openedBy, h₅, h₆, h₇, h₈]

theorem passes_word (h : ∀ c ∈ cs, c ∉ special) : Passes depth cs := by
  induction cs with
  | nil => exact passes_nil
  | cons c cs ih =>
    obtain ⟨hc, hcs⟩ := forall_mem_cons.mp h
    exact (passes_of_plain hc).append (ih hcs)

theorem passes_separator : Passes (depth + 1) [',', ' '] := by
  intro r
  rw [cons_append, singleton_append, scanAtom_cons (by simp [endsAtom])]
  have hcomma : depthAfter (depth + 1) ',' = depth + 1 ∧ openedBy ',' = none := by simp [depthAfter, openedBy]
  rw [hcomma.1, hcomma.2, scanAtom_cons (by simp [endsAtom])]
  simp [depthAfter, openedBy]

theorem toList_quoted (mark : Char) (s : String) :
    (Text.quoted mark s).toList = mark :: (Text.doubleMarks mark s.toList ++ [mark]) := by
  rw [Text.quoted, String.toList_ofList]

theorem scanAtom_mark (hmark : mark = '\'' ∨ mark = '\x60') (cs : List Char) :
    scanAtom depth none (mark :: cs) =
      (mark :: (scanAtom depth (some mark) cs).1, (scanAtom depth (some mark) cs).2) := by
  have hends : endsAtom depth mark cs = false := by
    rcases hmark with rfl | rfl <;> simp [endsAtom]
  have hdepth : depthAfter depth mark = depth ∧ openedBy mark = some mark := by
    rcases hmark with rfl | rfl <;> simp [depthAfter, openedBy]
  rw [scanAtom_cons hends, hdepth.1, hdepth.2]

theorem scanAtom_doubleMarks (hmark : mark = '\'' ∨ mark = '\x60') (s r : List Char) :
    scanAtom depth (some mark) (Text.doubleMarks mark s ++ mark :: r) =
      (Text.doubleMarks mark s ++ mark :: (scanAtom depth none r).1, (scanAtom depth none r).2) := by
  induction s with
  | nil => simp [Text.doubleMarks, scanAtom]
  | cons c s ih =>
    rw [Text.doubleMarks]
    split_ifs with hc
    · rw [cons_append, cons_append, scanAtom, if_pos rfl, scanAtom_mark hmark, ih]
      rfl
    · rw [cons_append, scanAtom, if_neg hc, ih]
      rfl

theorem passes_quoted (hmark : mark = '\'' ∨ mark = '\x60') (s : String) :
    Passes depth (Text.quoted mark s).toList := by
  intro r
  rw [toList_quoted, cons_append, append_assoc, singleton_append, scanAtom_mark hmark,
    scanAtom_doubleMarks hmark]
  simp

theorem passes_blank_quoted (s : String) : Passes depth (' ' :: (Text.quoted '\'' s).toList) := by
  intro r
  have hblank : depthAfter depth ' ' = depth ∧ openedBy ' ' = none := by simp [depthAfter, openedBy]
  rw [cons_append, scanAtom_cons (by simp [toList_quoted, endsAtom]), hblank.1, hblank.2, passes_quoted (.inl rfl) s r]
  rfl

theorem passes_brackets (h : Passes (depth + 1) cs) : Passes depth ('[' :: (cs ++ [']'])) := by
  intro r
  have hclose : scanAtom (depth + 1) none (']' :: r) =
      (']' :: (scanAtom depth none r).1, (scanAtom depth none r).2) := by
    rw [scanAtom_cons (by simp [endsAtom])]
    rfl
  have hopen : depthAfter depth '[' = depth + 1 ∧ openedBy '[' = none := by simp [depthAfter, openedBy]
  rw [cons_append, append_assoc, singleton_append, scanAtom_cons (by simp [endsAtom]), hopen.1, hopen.2, h, hclose]
  simp

/-! ### Names -/

def isNameChar (c : Char) : Bool := c.isAlphanum || c == '_'

theorem not_special_of_isNameChar (hc : isNameChar c) : c ∉ special := by
  intro h
  simp only [special, mem_cons, not_mem_nil, or_false] at h
  rcases h with rfl | rfl | rfl | rfl | rfl | rfl | rfl | rfl <;> exact absurd hc (by decide)

theorem isRegular_cons {name : String} (h : isRegular name) :
    ∃ c cs, name.toList = c :: cs ∧ (c.isAlpha || c == '_') ∧ ∀ d ∈ name.toList, isNameChar d := by
  rw [isRegular] at h
  cases hname : name.toList with
  | nil =>
    rw [hname] at h
    cases h
  | cons c cs =>
    rw [hname, Bool.and_eq_true, List.all_eq_true] at h
    refine ⟨c, cs, rfl, h.1, forall_mem_cons.mpr ⟨?_, h.2⟩⟩
    rcases Bool.or_eq_true_iff.mp h.1 with hc | hc
    · simp [isNameChar, Char.isAlphanum, hc]
    · simp [isNameChar, hc]

theorem passes_identifier (name : String) : Passes depth (identifier name).toList := by
  rw [identifier]
  split_ifs with h
  · obtain ⟨_, _, -, -, hall⟩ := isRegular_cons h
    exact passes_word fun c hc => not_special_of_isNameChar (hall c hc)
  · exact passes_quoted (.inr rfl) name

def NameStop (r : List Char) : Prop := r = [] ∨ r.head? = some '.'

theorem takeWhile_name {name r : List Char} (hname : ∀ c ∈ name, isNameChar c) (hr : NameStop r) :
    (name ++ r).takeWhile isNameChar = name ∧ (name ++ r).dropWhile isNameChar = r := by
  have hhead : ∀ c ∈ r.head?, isNameChar c = false := by
    intro c hc
    rcases hr with rfl | hr
    · cases hc
    · rw [hr] at hc
      cases hc
      decide
  exact takeWhile_append_of_all hname hhead

theorem doubleMarks_append_inj {s s' r r' : List Char} (hr : r.head? ≠ some mark) (hr' : r'.head? ≠ some mark)
    (h : Text.doubleMarks mark s ++ mark :: r = Text.doubleMarks mark s' ++ mark :: r') : s = s' ∧ r = r' := by
  induction s generalizing s' with
  | nil =>
    cases s' with
    | nil => exact ⟨rfl, (List.cons.inj h).2⟩
    | cons c s' =>
      rw [Text.doubleMarks, Text.doubleMarks] at h
      split_ifs at h with hc
      · cases h
        exact absurd rfl hr
      · exact absurd (List.cons.inj h).1.symm hc
  | cons c s ih =>
    cases s' with
    | nil =>
      rw [Text.doubleMarks, Text.doubleMarks] at h
      split_ifs at h with hc
      · cases h
        exact absurd rfl hr'
      · exact absurd (List.cons.inj h).1 hc
    | cons c' s' =>
      rw [Text.doubleMarks, Text.doubleMarks] at h
      split_ifs at h with hc hc' hc'
      · obtain ⟨rfl, rfl⟩ := ih (List.cons.inj (List.cons.inj h).2).2
        exact ⟨by rw [hc, hc'], rfl⟩
      · exact absurd (List.cons.inj h).1.symm hc'
      · exact absurd (List.cons.inj h).1 hc
      · obtain ⟨rfl, hrest⟩ := List.cons.inj h
        obtain ⟨rfl, rfl⟩ := ih hrest
        exact ⟨rfl, rfl⟩

theorem quoted_injective {s s' : String} (h : Text.quoted mark s = Text.quoted mark s') : s = s' := by
  have hlist := congrArg String.toList h
  rw [toList_quoted, toList_quoted] at hlist
  exact String.toList_injective (doubleMarks_append_inj (by simp) (by simp) (List.cons.inj hlist).2).1

theorem identifier_append_inj {a b : String} {r r' : List Char} (hr : NameStop r) (hr' : NameStop r')
    (h : (identifier a).toList ++ r = (identifier b).toList ++ r') : a = b ∧ r = r' := by
  have hmark {r : List Char} (hr : NameStop r) : r.head? ≠ some '\x60' := by
    rcases hr with rfl | hr
    · simp
    · rw [hr]
      decide
  have hmixed {a b : String} {r r' : List Char} (ha : isRegular a)
      (h : a.toList ++ r = (Text.quoted '\x60' b).toList ++ r') : False := by
    obtain ⟨c, cs, hcs, hc, -⟩ := isRegular_cons ha
    rw [hcs, toList_quoted] at h
    rw [(List.cons.inj h).1] at hc
    exact absurd hc (by decide)
  rw [identifier, identifier] at h
  split_ifs at h with ha hb hb
  · obtain ⟨_, _, -, -, hall⟩ := isRegular_cons ha
    obtain ⟨_, _, -, -, hall'⟩ := isRegular_cons hb
    have hname := takeWhile_name hall hr
    have hname' := takeWhile_name hall' hr'
    rw [h] at hname
    exact ⟨String.toList_injective (hname.1.symm.trans hname'.1), hname.2.symm.trans hname'.2⟩
  · exact (hmixed ha h).elim
  · exact (hmixed hb h.symm).elim
  · rw [toList_quoted, toList_quoted] at h
    simp only [cons_append, append_assoc] at h
    obtain ⟨hs, hr⟩ := doubleMarks_append_inj (hmark hr) (hmark hr') (List.cons.inj h).2
    exact ⟨String.toList_injective hs, hr⟩

end Pushdown.Sql

namespace Pushdown

open Sql List

namespace ColumnRef

theorem toList_sql (ref : ColumnRef) :
    ref.sql.toList =
      if ref.table.isEmpty then (identifier ref.column).toList
      else (identifier ref.table).toList ++ '.' :: (identifier ref.column).toList := by
  rw [sql]
  split_ifs
  · rfl
  · simp

theorem sql_injective {a b : ColumnRef} (h : a.sql = b.sql) : a = b := by
  have hlist := congrArg String.toList h
  have hnil : NameStop [] := .inl rfl
  have hdot (cs : List Char) : NameStop ('.' :: cs) := .inr rfl
  obtain ⟨t, n⟩ := a
  obtain ⟨t', n'⟩ := b
  rw [toList_sql, toList_sql] at hlist
  simp only at hlist
  split_ifs at hlist with ha hb hb
  · have hname := identifier_append_inj hnil hnil (by simpa using hlist)
    rw [hname.1, String.isEmpty_iff.mp ha, String.isEmpty_iff.mp hb]
  · have hname := identifier_append_inj hnil (hdot _) (by simpa using hlist)
    cases hname.2
  · have hname := identifier_append_inj (hdot _) hnil (by simpa using hlist)
    cases hname.2
  · obtain ⟨rfl, hrest⟩ := identifier_append_inj (hdot _) (hdot _) hlist
    have hname := identifier_append_inj hnil hnil (by simpa using (List.cons.inj hrest).2)
    rw [hname.1]

end ColumnRef

/-- Two columns have the same text only if their tables and their names are the same, whatever characters
these hold. -/
theorem Expression.column_text_eq_iff (table column table' column' : String) :
    (Expression.column ⟨table, column⟩).sql = (Expression.column ⟨table', column'⟩).sql ↔
      table = table' ∧ column = column' := by
  constructor
  · intro h
    have href : (⟨table, column⟩ : ColumnRef) = ⟨table', column'⟩ := ColumnRef.sql_injective h
    cases href
    exact ⟨rfl, rfl⟩
  · rintro ⟨rfl, rfl⟩
    rfl

/-! ### Constants -/

namespace Sql

variable {cs : List Char}

theorem doubleMarks_of_not_mem {mark : Char} (h : mark ∉ cs) : Text.doubleMarks mark cs = cs := by
  induction cs with
  | nil => rfl
  | cons c cs ih =>
    simp only [mem_cons, not_or] at h
    rw [Text.doubleMarks, if_neg (Ne.symm h.1), ih h.2]

theorem toList_quoted_of_not_mem {s : String} (h : '\'' ∉ s.toList) :
    (Text.quoted '\'' s).toList = '\'' :: (s.toList ++ ['\'']) := by
  rw [toList_quoted, doubleMarks_of_not_mem h]

/-- What the text of a constant looks like. -/
inductive IsConstant : List Char → Prop where
  | keyword {cs : List Char} (h : cs ∈ ["NULL".toList, "TRUE".toList, "FALSE".toList]) : IsConstant cs
  | numeral {cs : List Char} (h : IsNumeral cs) : IsConstant cs
  | quoted (s : String) : IsConstant (Text.quoted '\'' s).toList
  | moment {word : List Char} (h : word ∈ ["DATE".toList, "TIME".toList, "TIMESTAMP".toList]) (s : String) :
      IsConstant (word ++ ' ' :: (Text.quoted '\'' s).toList)
  | bytes (s : String) : IsConstant ('X' :: (Text.quoted '\'' s).toList)
  | brackets {cs : List Char} (h : ∀ depth, Passes (depth + 1) cs) : IsConstant ('[' :: (cs ++ [']']))

theorem not_special_of_isNumeral (h : IsNumeral cs) : ∀ c ∈ cs, c ∉ special := by
  have hall : ∀ c ∈ numeralChars, c ∉ special := by decide
  exact fun c hc => hall c (h.chars c hc)

theorem IsConstant.passes (h : IsConstant cs) (depth : Nat) : Passes depth cs := by
  cases h with
  | keyword h =>
    have hall : ∀ word ∈ ["NULL".toList, "TRUE".toList, "FALSE".toList], ∀ c ∈ word, c ∉ special := by decide
    exact passes_word (hall cs h)
  | numeral h => exact passes_word (not_special_of_isNumeral h)
  | quoted s => exact passes_quoted (.inl rfl) s
  | moment h s =>
    have hall : ∀ word ∈ ["DATE".toList, "TIME".toList, "TIMESTAMP".toList], ∀ c ∈ word, c ∉ special := by decide
    exact (passes_word (hall _ h)).append (passes_blank_quoted s)
  | bytes s => exact (passes_of_plain (by decide : 'X' ∉ special)).append (passes_quoted (.inl rfl) s)
  | brackets h => exact passes_brackets (h depth)

end Sql

theorem mark_not_mem_padded (width n : Nat) : '\'' ∉ (padded width n).toList := fun h =>
  absurd (Calendar.isDigit_of_mem_padded h) (by decide)

theorem Date.mark_not_mem_text (d : Date) : '\'' ∉ d.text.toList := by
  have hyear : '\'' ∉ (yearText d.year).toList := by
    rw [yearText, String.toList_append, mem_append, not_or]
    refine ⟨?_, mark_not_mem_padded _ _⟩
    split_ifs <;> decide
  simp [toList_text, hyear, mark_not_mem_padded]

theorem Time.mark_not_mem_text (t : Time) : '\'' ∉ t.text.toList := by
  have hfraction (nano : Nat) : '\'' ∉ (fractionText nano).toList := by
    rw [fractionText]
    split_ifs <;> simp [mark_not_mem_padded]
  simp [toList_text, hfraction, mark_not_mem_padded]

theorem Timestamp.mark_not_mem_text (t : Timestamp) : '\'' ∉ (t.text " ").toList := by
  simp [text, t.date.mark_not_mem_text, t.time.mark_not_mem_text]

theorem Text.mark_not_mem_hexUpper (bytes : List UInt8) : '\'' ∉ (hexUpper bytes).toList := by
  have hdigit : ∀ n, n < 16 → '\'' ≠ (Nat.digitChar n).toUpper := by decide
  intro h
  rw [hexUpper, String.toList_ofList, mem_map] at h
  obtain ⟨c, hc, heq⟩ := h
  obtain ⟨b, -, hc⟩ := mem_flatMap.mp hc
  have hbyte := b.toNat_lt
  simp only [byteDigits, mem_cons, not_mem_nil, or_false] at hc
  rcases hc with rfl | rfl
  · exact hdigit _ (by omega) heq.symm
  · exact hdigit _ (by omega) heq.symm

namespace Value

mutual

def isReadable : Value → Bool
  | .bigDecimal text => (readFloat? text).isSome
  | .array items => allReadable items
  | _ => true

def allReadable : List Value → Bool
  | [] => true
  | v :: vs => v.isReadable && allReadable vs

end

theorem isConstant_moment (word : String) {s : String}
    (hword : word.toList ∈ ["DATE".toList, "TIME".toList, "TIMESTAMP".toList])
    (hs : '\'' ∉ s.toList) : IsConstant (word ++ " '" ++ s ++ "'").toList := by
  have htext : (word ++ " '" ++ s ++ "'").toList = word.toList ++ ' ' :: (Text.quoted '\'' s).toList := by
    simp [toList_quoted_of_not_mem hs]
  rw [htext]
  exact .moment hword s

theorem isConstant_bytes (bytes : List UInt8) : IsConstant ("X'" ++ Text.hexUpper bytes ++ "'").toList := by
  have htext : ("X'" ++ Text.hexUpper bytes ++ "'").toList =
      'X' :: (Text.quoted '\'' (Text.hexUpper bytes)).toList := by
    simp [toList_quoted_of_not_mem (Text.mark_not_mem_hexUpper bytes)]
  rw [htext]
  exact .bytes _

mutual

theorem isConstant_literal : ∀ (v : Value), v.isReadable → IsConstant v.literal.toList
  | .null, _ | .boolean true, _ | .boolean false, _ => .keyword (by decide)
  | .byte n, _ | .short n, _ | .integer n, _ | .long n, _ => .numeral (isNumeral_toString n.toInt)
  | .bigInteger n, _ => .numeral (isNumeral_toString n.val)
  | .float x, _ => .numeral (isNumeral_literal (.ofFloat32 x))
  | .double x, _ => .numeral (isNumeral_literal (.ofFloat x))
  | .bigDecimal text, hv => by
    obtain ⟨x, hx⟩ := Option.isSome_iff_exists.mp hv
    exact .numeral (isNumeral_of_readFloat? hx)
  | .char c, _ => .quoted _
  | .string s, _ | .clob s, _ | .xml s, _ => .quoted s
  | .date d, _ => isConstant_moment "DATE" (by decide) d.mark_not_mem_text
  | .time t, _ => isConstant_moment "TIME" (by decide) t.mark_not_mem_text
  | .timestamp t, _ => isConstant_moment "TIMESTAMP" (by decide) t.mark_not_mem_text
  | .varbinary bytes, _ | .blob bytes, _ => isConstant_bytes bytes
  | .array items, hv => by
    rw [literal, String.toList_append, String.toList_append]
    exact .brackets fun depth => passes_literals items hv depth

theorem passes_literals : ∀ (vs : List Value), allReadable vs → ∀ (depth : Nat),
    Passes (depth + 1) (literals vs).toList
  | [], _, _ => passes_nil
  | [v], hvs, depth => by
    rw [allReadable, Bool.and_eq_true] at hvs
    exact (isConstant_literal v hvs.1).passes (depth + 1)
  | v :: w :: vs, hvs, depth => by
    rw [allReadable, Bool.and_eq_true] at hvs
    rw [literals, String.toList_append, String.toList_append]
    · exact (((isConstant_literal v hvs.1).passes (depth + 1)).append passes_separator).append
        (passes_literals (w :: vs) hvs.2 depth)
    · simp

end

end Value

/-! ### Atoms -/

namespace Sql

variable {cs r : List Char}

def dropText : List Char → List Char → Option (List Char)
  | [], cs => some cs
  | p :: ps, c :: cs => if p = c then dropText ps cs else none
  | _ :: _, [] => none

theorem dropText_append (ps cs : List Char) : dropText ps (ps ++ cs) = some cs := by
  induction ps with
  | nil => rfl
  | cons p ps ih => rw [cons_append, dropText, if_pos rfl, ih]

theorem eq_append_of_dropText {ps : List Char} (h : dropText ps cs = some r) : cs = ps ++ r := by
  induction ps generalizing cs with
  | nil => exact Option.some.inj h
  | cons p ps ih =>
    cases cs with
    | nil => cases h
    | cons c cs =>
      rw [dropText] at h
      split_ifs at h with hc
      rw [hc, ih h, cons_append]

def negation : List Char := "NOT ".toList

theorem dropText_negation {word rest : List Char} (hword : ∀ c ∈ word, c ∉ special)
    (hrest : ∀ c ∈ rest.head?, c ∈ special) (hne : word ≠ "NOT".toList) : dropText negation (word ++ rest) = none := by
  rw [Option.eq_none_iff_forall_ne_some]
  intro r h
  have heq : word ++ rest = "NOT".toList ++ ' ' :: r := (eq_append_of_dropText h : _ = negation ++ r)
  have hplain {c : Char} (hc : c ∉ special) : (!special.contains c) = true := by simpa using hc
  have hleft := takeWhile_append_of_all (fun c hc => hplain (hword c hc)) fun c hc => by simpa using hrest c hc
  have hright := takeWhile_append_of_all (fun c hc => hplain ((by decide : ∀ c ∈ "NOT".toList, c ∉ special) c hc))
    (by simp [special] : ∀ c ∈ (' ' :: r).head?, (!special.contains c) = false)
  rw [heq] at hleft
  exact hne (hleft.1.symm.trans hright.1)

theorem Stop.head (hr : Stop r) : ∀ c ∈ r.head?, c ∈ special := by
  intro c hc
  cases r with
  | nil => cases hc
  | cons d cs =>
    cases hc
    rcases hr with rfl | rfl | rfl | ⟨rfl, -⟩ <;> decide

/-- A text that is read as one, and neither as a group nor as a negation. -/
structure IsAtom (cs : List Char) : Prop where
  passes : Passes 0 cs
  head : ∃ c rest, cs = c :: rest ∧ c ≠ '(' ∧ c ≠ ')'
  negation : ∀ r, Stop r → dropText negation (cs ++ r) = none

theorem isAtom_of_word (word tail : List Char) (hpasses : Passes 0 (word ++ tail))
    (hword : ∀ c ∈ word, c ∉ special) (htail : ∀ c ∈ tail.head?, c ∈ [' ', '\'', '\x60', '['])
    (hne : word ≠ "NOT".toList) (hsome : word ≠ [] ∨ tail ≠ []) : IsAtom (word ++ tail) where
  passes := hpasses
  head := by
    cases word with
    | cons c word =>
      have hc := (forall_mem_cons.mp hword).1
      refine ⟨c, word ++ tail, rfl, ?_, ?_⟩ <;> rintro rfl <;> exact hc (by decide)
    | nil =>
      cases tail with
      | nil => simp at hsome
      | cons c tail =>
        have hc := htail c rfl
        refine ⟨c, tail, rfl, ?_, ?_⟩ <;> rintro rfl <;> exact absurd hc (by decide)
  negation r hr := by
    rw [append_assoc]
    refine dropText_negation hword ?_ hne
    cases tail with
    | nil => exact hr.head
    | cons c tail =>
      intro d hd
      cases hd
      exact (by decide : ∀ c ∈ [' ', '\'', '\x60', '['], c ∈ special) c (htail c rfl)

theorem isAtom_word {word : List Char} (hword : ∀ c ∈ word, c ∉ special) (hne : word ≠ "NOT".toList)
    (hsome : word ≠ []) : IsAtom word := by
  have hatom := isAtom_of_word word [] (passes_word (by simpa using hword)) hword (by simp) hne (.inl hsome)
  rwa [append_nil] at hatom

theorem IsConstant.isAtom (h : IsConstant cs) : IsAtom cs := by
  have hpasses := h.passes 0
  cases h with
  | keyword h =>
    have hall : ∀ word ∈ ["NULL".toList, "TRUE".toList, "FALSE".toList],
        (∀ c ∈ word, c ∉ special) ∧ word ≠ "NOT".toList ∧ word ≠ [] := by decide
    obtain ⟨hword, hne, hsome⟩ := hall cs h
    exact isAtom_word hword hne hsome
  | numeral h =>
    refine isAtom_word (not_special_of_isNumeral h) ?_ h.ne_nil
    rintro rfl
    exact absurd (h.chars 'O' (by decide)) (by decide)
  | quoted s =>
    rw [toList_quoted] at hpasses ⊢
    exact isAtom_of_word [] _ hpasses (by simp) (by simp) (by decide) (by simp)
  | moment h s =>
    have hall : ∀ word ∈ ["DATE".toList, "TIME".toList, "TIMESTAMP".toList],
        (∀ c ∈ word, c ∉ special) ∧ word ≠ "NOT".toList := by decide
    obtain ⟨hword, hne⟩ := hall _ h
    exact isAtom_of_word _ _ hpasses hword (by simp) hne (by simp)
  | bytes s =>
    rw [toList_quoted] at hpasses ⊢
    exact isAtom_of_word ['X'] _ hpasses (by decide) (by simp) (by decide) (by simp)
  | brackets h => exact isAtom_of_word [] _ hpasses (by simp) (by simp) (by decide) (by simp)

theorem IsConstant.of_name {c : Char} (h : IsConstant (c :: cs)) (hc : (c.isAlpha || c == '_')) :
    c :: cs ∈ ["NULL".toList, "TRUE".toList, "FALSE".toList] ∨ (c :: cs).map Char.toLower ∈ numeralWords ∨
      ∃ d rest, (c :: cs).dropWhile isNameChar = d :: rest ∧ (d = ' ' ∨ d = '\'') := by
  generalize hcs : c :: cs = text at h
  cases h with
  | keyword h => exact .inl h
  | numeral h =>
    refine .inr (.inl (h.word c ?_ hc))
    rw [← hcs]
    rfl
  | quoted s =>
    rw [toList_quoted] at hcs
    rw [(List.cons.inj hcs).1] at hc
    exact absurd hc (by decide)
  | moment h s =>
    have hall : ∀ word ∈ ["DATE".toList, "TIME".toList, "TIMESTAMP".toList], ∀ d ∈ word, isNameChar d := by
      decide
    refine .inr (.inr ⟨' ', _, (takeWhile_append_of_all (hall _ h) ?_).2, .inl rfl⟩)
    intro d hd
    cases hd
    decide
  | bytes s =>
    rw [toList_quoted]
    exact .inr (.inr ⟨'\'', _, rfl, .inr rfl⟩)
  | brackets h =>
    rw [(List.cons.inj hcs).1] at hc
    exact absurd hc (by decide)

theorem not_isConstant_mark : ¬ IsConstant ('\x60' :: cs) := by
  intro h
  generalize hcs : '\x60' :: cs = text at h
  cases h with
  | keyword h =>
    rw [← hcs] at h
    simp at h
  | numeral h =>
    rw [← hcs] at h
    exact absurd (h.chars '\x60' (mem_cons_self ..)) (by decide)
  | quoted s =>
    rw [toList_quoted] at hcs
    cases (List.cons.inj hcs).1
  | moment h s =>
    simp only [mem_cons, not_mem_nil, or_false] at h
    rcases h with rfl | rfl | rfl <;> cases (List.cons.inj hcs).1
  | bytes s | brackets h => cases (List.cons.inj hcs).1

end Sql

namespace ColumnRef

variable {ref : ColumnRef}

def isPlain (ref : ColumnRef) : Bool :=
  !ref.table.isEmpty || !(["NULL", "TRUE", "FALSE", "NOT"].contains ref.column ||
    numeralWords.contains (ref.column.toList.map Char.toLower))

theorem identifier_cases (name : String) :
    (isRegular name ∧ (identifier name).toList = name.toList) ∨ ∃ rest, (identifier name).toList = '\x60' :: rest := by
  rw [identifier]
  split_ifs with h
  · exact .inl ⟨h, rfl⟩
  · exact .inr ⟨_, toList_quoted _ _⟩

theorem not_special_of_isRegular {name : String} (h : isRegular name) : ∀ c ∈ name.toList, c ∉ special := by
  obtain ⟨_, _, -, -, hall⟩ := isRegular_cons h
  exact fun c hc => not_special_of_isNameChar (hall c hc)

theorem isAtom_sql (href : ref.isPlain) : IsAtom ref.sql.toList := by
  have hdot : '.' ∉ special := by decide
  have hpasses : Passes 0 ref.sql.toList := by
    rw [toList_sql]
    split_ifs
    · exact passes_identifier _
    · exact (passes_identifier _).append ((passes_of_plain hdot).append (passes_identifier _))
  rw [toList_sql] at hpasses ⊢
  split_ifs at hpasses ⊢ with htable
  · rcases identifier_cases ref.column with ⟨hregular, hname⟩ | ⟨rest, hname⟩
    · rw [hname]
      obtain ⟨c, cs, hcons, -⟩ := isRegular_cons hregular
      refine isAtom_word (not_special_of_isRegular hregular) (fun hnot => ?_) (by simp [hcons])
      rw [isPlain, htable, String.toList_injective hnot] at href
      exact absurd href (by decide)
    · rw [hname] at hpasses ⊢
      exact isAtom_of_word [] _ hpasses (by simp) (by simp) (by decide) (by simp)
  · rcases identifier_cases ref.table with ⟨hregular, hname⟩ | ⟨rest, hname⟩
    · rw [hname] at hpasses ⊢
      have hnot {cs : List Char} : ref.table.toList ++ '.' :: cs ≠ "NOT".toList := fun heq =>
        absurd (heq ▸ mem_append_right _ (mem_cons_self ..)) (by decide : '.' ∉ "NOT".toList)
      rcases identifier_cases ref.column with ⟨hregular', hname'⟩ | ⟨rest, hname'⟩
      · rw [hname']
        refine isAtom_word (forall_mem_append.mpr ⟨not_special_of_isRegular hregular, ?_⟩) hnot (by simp)
        exact forall_mem_cons.mpr ⟨hdot, not_special_of_isRegular hregular'⟩
      · rw [hname', append_cons] at hpasses ⊢
        refine isAtom_of_word _ _ hpasses ?_ (by simp) hnot (by simp)
        exact forall_mem_append.mpr ⟨not_special_of_isRegular hregular, by simpa using hdot⟩
    · rw [hname, cons_append] at hpasses ⊢
      exact isAtom_of_word [] _ hpasses (by simp) (by simp) (by decide) (by simp)

theorem dropWhile_name_sql {c : Char} {cs : List Char} (hsql : ref.sql.toList = c :: cs)
    (hc : (c.isAlpha || c == '_')) :
    (ref.table.isEmpty ∧ isRegular ref.column ∧ ref.sql = ref.column) ∨
      ∃ rest, (c :: cs).dropWhile isNameChar = '.' :: rest := by
  have hmark {rest : List Char} (h : c :: cs = '\x60' :: rest) : False := by
    rw [(List.cons.inj h).1] at hc
    exact absurd hc (by decide)
  rw [← hsql]
  rw [toList_sql] at hsql
  split_ifs at hsql with htable
  · rcases identifier_cases ref.column with ⟨hregular, hname⟩ | ⟨rest, hname⟩
    · refine .inl ⟨htable, hregular, ?_⟩
      rw [sql, if_pos htable, identifier, if_pos hregular]
    · exact (hmark (hsql.symm.trans hname)).elim
  · rcases identifier_cases ref.table with ⟨hregular, hname⟩ | ⟨rest, hname⟩
    · obtain ⟨_, _, -, -, hall⟩ := isRegular_cons hregular
      rw [toList_sql, if_neg htable, hname, (takeWhile_name hall (.inr rfl)).2]
      exact .inr ⟨_, rfl⟩
    · rw [hname, cons_append] at hsql
      exact (hmark hsql.symm).elim

theorem sql_head (ref : ColumnRef) : ∃ c cs, ref.sql.toList = c :: cs ∧ (c = '\x60' ∨ (c.isAlpha || c == '_')) := by
  have hname (name : String) (rest : List Char) :
      ∃ c cs, (identifier name).toList ++ rest = c :: cs ∧ (c = '\x60' ∨ (c.isAlpha || c == '_')) := by
    rcases identifier_cases name with ⟨hregular, hname⟩ | ⟨tail, hname⟩
    · obtain ⟨c, cs, hcons, hc, -⟩ := isRegular_cons hregular
      exact ⟨c, cs ++ rest, by rw [hname, hcons, cons_append], .inr hc⟩
    · exact ⟨'\x60', tail ++ rest, by rw [hname, cons_append], .inl rfl⟩
  rw [toList_sql]
  split_ifs
  · have hcolumn := hname ref.column []
    rwa [append_nil] at hcolumn
  · exact hname ref.table _

theorem not_isConstant_sql (href : ref.isPlain) : ¬ IsConstant ref.sql.toList := by
  obtain ⟨c, cs, hsql, hc⟩ := ref.sql_head
  intro h
  rw [hsql] at h
  rcases hc with rfl | hc
  · exact not_isConstant_mark h
  · rcases dropWhile_name_sql hsql hc with ⟨htable, hregular, hcolumn⟩ | ⟨rest, hdrop⟩
    · rw [isPlain, htable, Bool.not_true, Bool.false_or, Bool.not_eq_true', Bool.or_eq_false_iff, ← hcolumn] at href
      obtain ⟨_, _, -, -, hall⟩ := isRegular_cons hregular
      rw [← hcolumn, hsql] at hall
      rcases h.of_name hc with hkeyword | hword | ⟨d, rest, hdrop, -⟩
      · have hnamed : ref.sql ∈ ["NULL", "TRUE", "FALSE", "NOT"] := by
          rw [← hsql] at hkeyword
          simp only [mem_cons, not_mem_nil, or_false, String.toList_inj] at hkeyword ⊢
          rcases hkeyword with h | h | h <;> simp [h]
        simp [hnamed] at href
      · rw [← hsql] at hword
        simp [hword] at href
      · have hnil := (takeWhile_name hall (.inl rfl)).2
        rw [append_nil, hdrop] at hnil
        cases hnil
    · rcases h.of_name hc with hkeyword | hword | ⟨d, rest', hdrop', hd⟩
      · have hall : ∀ word ∈ ["NULL".toList, "TRUE".toList, "FALSE".toList], word.dropWhile isNameChar = [] := by
          decide
        rw [hall _ hkeyword] at hdrop
        cases hdrop
      · have hdot : '.' ∈ c :: cs := (dropWhile_suffix isNameChar).subset (hdrop ▸ mem_cons_self ..)
        have hall : ∀ word ∈ numeralWords, '.' ∉ word := by decide
        exact hall _ hword (mem_map_of_mem (f := Char.toLower) hdot)
      · rw [hdrop] at hdrop'
        cases hdrop'
        rcases hd with hd | hd <;> cases hd

end ColumnRef

end Pushdown
