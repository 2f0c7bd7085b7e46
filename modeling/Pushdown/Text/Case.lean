import Pushdown.Text.CaseTable

/-!
# Letter case

Lower and upper case of whole texts, by the full case mapping, and the comparison of names that
ignores the case of ASCII letters only.
-/

namespace Pushdown.Text

def isCased (c : Char) : Bool := inStretches casedStretches c.toNat

/-- Whether the character is looked past when the ends of a word are sought. -/
def isIgnorable (c : Char) : Bool := inStretches ignorableStretches c.toNat

def mapBeyondAscii (sequences : List (Nat × List Nat)) (runs : List CaseRun) (c : Char) : List Char :=
  match sequences.lookup c.toNat with
  | some cs => cs.map Char.ofNat
  | none =>
    match runs.findSome? (·.image? c.toNat) with
    | some n => [Char.ofNat n]
    | none => [c]

def lowerChar (c : Char) : List Char :=
  if c.toNat < 128 then [c.toLower] else mapBeyondAscii lowerSequences lowerRuns c

def upperChar (c : Char) : List Char :=
  if c.toNat < 128 then [c.toUpper] else mapBeyondAscii upperSequences upperRuns c

/-- Whether the first character that is not looked past has case. -/
def meetsCased (cs : List Char) : Bool :=
  match cs.dropWhile isIgnorable with
  | c :: _ => isCased c
  | [] => false

/-- Lower case of `cs`, where `before` is what stands to its left, nearest first: a capital sigma
that ends a word is written as a final sigma. -/
def lowerAfter : List Char → List Char → List Char
  | _, [] => []
  | before, c :: cs =>
    (if c = 'Σ' then
      [if meetsCased before && !meetsCased cs then 'ς' else 'σ']
    else
      lowerChar c) ++ lowerAfter (c :: before) cs

def lower (s : String) : String := String.ofList (lowerAfter [] s.toList)

def upper (s : String) : String := String.ofList (s.toList.flatMap upperChar)

/-- Equality of names that ignores the case of ASCII letters. -/
def same (a b : String) : Bool := a.toList.map Char.toLower == b.toList.map Char.toLower

def hasName (names : List String) (name : String) : Bool := names.any (same · name)

theorem same_refl (a : String) : same a a = true := by simp [same]

theorem same_comm (a b : String) : same a b = same b a := by
  simp only [same]; exact Bool.beq_comm

theorem same_trans {a b c : String} (hab : same a b = true) (hbc : same b c = true) : same a c = true := by
  simp only [same, beq_iff_eq] at *; exact hab.trans hbc

end Pushdown.Text
