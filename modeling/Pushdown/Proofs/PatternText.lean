import Pushdown.Sql.Like

/-!
# The text of patterns

`ofText_text`: the regular expression of a pattern is read back from the text that is given to the store. Special
characters are escaped, so that those which stand for themselves cannot be taken for the others.
-/

namespace Pushdown

open List

namespace LikeRegex

def itemChars : LikeToken → List Char
  | .any => ['.', '*']
  | .one => ['.']
  | .char c => if special.contains c then ['\\', c] else [c]

def endChars (atEnd : Bool) : List Char := if atEnd then ['$'] else []

theorem toList_text (r : LikeRegex) :
    r.text.toList = (if r.atStart then ['^'] else []) ++ (r.items.flatMap itemChars ++ endChars r.atEnd) := by
  have hitem (item : LikeToken) : (itemText item).toList = itemChars item := by
    cases item with
    | char c => exact String.toList_ofList
    | _ => rfl
  have hitems : (String.join (r.items.map itemText)).toList = r.items.flatMap itemChars := by
    rw [String.toList_join, flatMap_map]
    simp only [hitem]
  rw [text, String.toList_append, String.toList_append, hitems, append_assoc]
  cases r.atStart <;> cases r.atEnd <;> rfl

/-- The items that a regular expression is made of, and whether it is bound to the end. -/
def readItems : List Char → List LikeToken × Bool
  | [] => ([], false)
  | ['$'] => ([], true)
  | '.' :: '*' :: cs => (.any :: (readItems cs).1, (readItems cs).2)
  | '.' :: cs => (.one :: (readItems cs).1, (readItems cs).2)
  | '\\' :: c :: cs => (.char c :: (readItems cs).1, (readItems cs).2)
  | c :: cs => (.char c :: (readItems cs).1, (readItems cs).2)

theorem items_ne_cons {c : Char} (h : special.contains c) (hc : c ∉ ['.', '\\', '$'])
    (items : List LikeToken) (atEnd : Bool) (cs : List Char) :
    items.flatMap itemChars ++ endChars atEnd ≠ c :: cs := by
  intro heq
  cases items with
  | nil =>
    cases atEnd with
    | false => cases heq
    | true => exact hc (by cases heq; simp)
  | cons item items =>
    cases item with
    | char d =>
      rw [flatMap_cons, itemChars] at heq
      split at heq
      · exact hc (by cases heq; simp)
      · rename_i hd
        cases heq
        exact hd h
    | any | one => exact hc (by cases heq; simp)

theorem readItems_items (items : List LikeToken) (atEnd : Bool) :
    readItems (items.flatMap itemChars ++ endChars atEnd) = (items, atEnd) := by
  induction items with
  | nil => cases atEnd <;> rfl
  | cons item items ih =>
    rw [flatMap_cons, append_assoc]
    cases item with
    | any => rw [itemChars, cons_append, cons_append, nil_append, readItems, ih]
    | one =>
      rw [itemChars, cons_append, nil_append, readItems, ih]
      exact items_ne_cons (by decide) (by decide) items atEnd
    | char c =>
      rw [itemChars]
      split
      · rw [cons_append, cons_append, nil_append, readItems, ih]
      · rename_i hc
        have hne {d : Char} (hd : special.contains d) : c ≠ d := fun heq => hc (heq ▸ hd)
        rw [cons_append, nil_append, readItems, ih]
        · exact fun heq => absurd heq (hne (by decide))
        · exact fun _ heq => absurd heq (hne (by decide))
        · exact fun heq => absurd heq (hne (by decide))
        · exact fun _ _ heq => absurd heq (hne (by decide))

def ofText (text : String) : LikeRegex :=
  match text.toList with
  | '^' :: cs => ⟨true, (readItems cs).1, (readItems cs).2⟩
  | cs => ⟨false, (readItems cs).1, (readItems cs).2⟩

theorem ofText_text (r : LikeRegex) : ofText r.text = r := by
  obtain ⟨atStart, items, atEnd⟩ := r
  rw [ofText, toList_text]
  cases atStart with
  | true => simp [readItems_items]
  | false =>
    simp only [Bool.false_eq_true, if_false, nil_append]
    split
    · rename_i cs hcs
      exact absurd hcs (items_ne_cons (by decide) (by decide) items atEnd cs)
    · rw [readItems_items]

end LikeRegex

end Pushdown
