import Pushdown.Path

/-!
# Paths and the names on them

`split_join`: a path is taken apart into the names it was put together from, as long as no name holds a dot
(`IsName`). The decimal text of a position is such a name (`toString_isName`), and is read back as the position.
`LeadsTo` and `Apart` compare paths by their names.
-/

namespace Pushdown

open List

namespace Path

variable {names : List String}

/-- A name that can stand on a path: not empty, and without a dot. -/
def IsName (s : String) : Prop := s ≠ "" ∧ '.' ∉ s.toList

instance (s : String) : Decidable (IsName s) := inferInstanceAs (Decidable (_ ∧ _))

theorem splitDots_ne_nil (cs : List Char) : splitDots cs ≠ [] := by
  cases cs with
  | nil => simp [splitDots]
  | cons c cs =>
    rw [splitDots]
    split
    · split <;> simp
    · simp

theorem splitDots_append (name rest : List Char) (h : '.' ∉ name) :
    splitDots (name ++ '.' :: rest) = name :: splitDots rest := by
  induction name with
  | nil =>
    rw [nil_append, splitDots]
    split
    · rename_i part parts hs
      rw [if_pos rfl, hs]
    · rename_i hs
      exact absurd hs (splitDots_ne_nil rest)
  | cons c name ih =>
    obtain ⟨hc, hn⟩ := not_or.mp (mt mem_cons.mpr h)
    rw [cons_append, splitDots, ih hn]
    simp only [if_neg (Ne.symm hc)]

theorem splitDots_of_not_mem (name : List Char) (h : '.' ∉ name) : splitDots name = [name] := by
  induction name with
  | nil => rfl
  | cons c name ih =>
    obtain ⟨hc, hn⟩ := not_or.mp (mt mem_cons.mpr h)
    rw [splitDots, ih hn]
    simp only [if_neg (Ne.symm hc)]

theorem splitDots_append_dot (a b : List Char) : splitDots (a ++ '.' :: b) = splitDots a ++ splitDots b := by
  induction a with
  | nil => exact splitDots_append [] b (by simp)
  | cons c a ih =>
    rw [cons_append, splitDots, splitDots, ih]
    cases h : splitDots a with
    | nil => exact absurd h (splitDots_ne_nil a)
    | cons part parts =>
      simp only [cons_append]
      split <;> rfl

theorem split_ne_nil (s : String) : split s ≠ [] := by
  simpa [split] using splitDots_ne_nil s.toList

theorem split_append_dot (a b : String) : split (a ++ "." ++ b) = split a ++ split b := by
  have hl : (a ++ "." ++ b).toList = a.toList ++ '.' :: b.toList := by
    simp [String.toList_append]
  rw [split, hl, splitDots_append_dot, map_append]
  rfl

theorem split_of_not_mem {s : String} (h : '.' ∉ s.toList) : split s = [s] := by
  rw [split, splitDots_of_not_mem _ h, map_singleton, String.ofList_toList]

theorem split_of_isName {s : String} (h : IsName s) : split s = [s] := split_of_not_mem h.2

theorem join_cons (hne : names ≠ []) (s : String) : join (s :: names) = s ++ "." ++ join names := by
  match names with
  | [] => exact absurd rfl hne
  | _ :: _ => rfl

theorem join_append {rest : List String} (hne : names ≠ []) (hrest : rest ≠ []) :
    join (names ++ rest) = join names ++ "." ++ join rest := by
  induction names with
  | nil => exact absurd rfl hne
  | cons s names ih =>
    by_cases hnil : names = []
    · subst hnil
      exact join_cons hrest s
    · rw [cons_append, join_cons (by simp [hnil]), join_cons hnil, ih hnil]
      simp [String.append_assoc]

theorem split_join_flatMap (hne : names ≠ []) : split (join names) = names.flatMap split := by
  induction names with
  | nil => exact absurd rfl hne
  | cons s names ih =>
    by_cases hnil : names = []
    · subst hnil
      rw [join, flatMap_singleton]
    · rw [join_cons hnil, split_append_dot, ih hnil, flatMap_cons]

theorem split_join_of_not_mem (hne : names ≠ []) (h : ∀ s ∈ names, '.' ∉ s.toList) : split (join names) = names := by
  have hsplit : names.map split = names.map fun s => [s] := map_congr_left fun s hs => split_of_not_mem (h s hs)
  rw [split_join_flatMap hne, flatMap_def, hsplit, ← flatMap_def, flatMap_singleton']

theorem split_join (hne : names ≠ []) (h : ∀ s ∈ names, IsName s) : split (join names) = names :=
  split_join_of_not_mem hne fun s hs => (h s hs).2

section

variable {names names' : List String} (hne : names ≠ []) (hne' : names' ≠ [])

include hne hne'

theorem join_injective_of_not_mem (h : ∀ s ∈ names, '.' ∉ s.toList) (h' : ∀ s ∈ names', '.' ∉ s.toList)
    (he : join names = join names') : names = names' := by
  rw [← split_join_of_not_mem hne h, he, split_join_of_not_mem hne' h']

theorem join_injective (h : ∀ s ∈ names, IsName s) (h' : ∀ s ∈ names', IsName s) (he : join names = join names') :
    names = names' :=
  join_injective_of_not_mem hne hne' (fun s hs => (h s hs).2) (fun s hs => (h' s hs).2) he

end

theorem join_map_splitDots (cs : List Char) : join ((splitDots cs).map String.ofList) = String.ofList cs := by
  induction cs with
  | nil => rfl
  | cons c cs ih =>
    rw [splitDots]
    cases h : splitDots cs with
    | nil => exact absurd h (splitDots_ne_nil cs)
    | cons part parts =>
      rw [h] at ih
      by_cases hc : c = '.'
      · subst hc
        simp only [if_pos, map_cons] at ih ⊢
        rw [join_cons (by simp), ih]
        simp
      · simp only [if_neg hc, map_cons] at ih ⊢
        cases parts with
        | nil =>
          simp only [map_nil, join, ← String.toList_inj, String.toList_ofList] at ih ⊢
          rw [ih]
        | cons next parts =>
          rw [map_cons, join_cons (by simp)] at ih ⊢
          simp only [← String.toList_inj, String.toList_append, String.toList_ofList] at ih ⊢
          rw [cons_append, cons_append, ih]

theorem join_split (s : String) : join (split s) = s := by
  rw [split, join_map_splitDots, String.ofList_toList]

theorem split_injective {a b : String} (h : split a = split b) : a = b := by
  rw [← join_split a, h, join_split b]

/-- `inner` is the path `outer` or leads on from it. -/
def LeadsTo (outer inner : String) : Prop := split outer <+: split inner

/-- None of the paths leads into another. -/
def Apart (paths : List String) : Prop := ∀ a ∈ paths, ∀ b ∈ paths, LeadsTo a b → a = b

theorem join_append_singleton (hne : names ≠ []) (s : String) : join (names ++ [s]) = join names ++ "." ++ s := by
  induction names with
  | nil => exact absurd rfl hne
  | cons t names ih =>
    match names, ih with
    | [], _ => rfl
    | u :: names, ih =>
      rw [cons_append, join_cons (by simp), ih (cons_ne_nil _ _), join_cons (cons_ne_nil _ _)]
      simp only [String.append_assoc]

theorem join_ne_empty (hne : names ≠ []) (h : ∀ s ∈ names, s ≠ "") : join names ≠ "" := by
  match names with
  | [] => exact absurd rfl hne
  | [s] => exact h s (mem_cons_self ..)
  | s :: t :: names =>
    intro he
    rw [join_cons (cons_ne_nil _ _)] at he
    have hl := congrArg String.toList he
    simp [String.toList_append] at hl

theorem extend_join (h : ∀ s ∈ names, s ≠ "") (s : String) : extend (join names) s = join (names ++ [s]) := by
  by_cases hne : names = []
  · subst hne; rfl
  · have he : (join names).isEmpty = false := by
      simpa [String.isEmpty_iff] using join_ne_empty hne h
    rw [extend, he, join_append_singleton hne]
    rfl

end Path

theorem digitsValue_eq_ofDigitChars (cs : List Char) : digitsValue cs = Nat.ofDigitChars 10 cs 0 := by
  rw [Nat.ofDigitChars_eq_foldl]; rfl

theorem toString_isName (i : Nat) : Path.IsName (toString i) := by
  refine ⟨?_, fun h => ?_⟩
  · intro he
    have hl := congrArg String.toList he
    rw [Nat.toString_eq_repr, Nat.toList_repr] at hl
    exact Nat.toDigits_ne_nil hl
  · rw [Nat.toString_eq_repr, Nat.toList_repr] at h
    exact absurd (Nat.isDigit_of_mem_toDigits (by decide) (by decide) h) (by decide)

theorem readIndex?_toString (i : Nat) : readIndex? (toString i) = some i := by
  have hd : ∀ c ∈ Nat.toDigits 10 i, c.isDigit := fun c hc => Nat.isDigit_of_mem_toDigits (by decide) (by decide) hc
  have hr : readDigits? (Nat.toDigits 10 i) = some i := by
    have hall : (Nat.toDigits 10 i).all Char.isDigit = true := List.all_eq_true.mpr hd
    have hemp : (Nat.toDigits 10 i).isEmpty = false := by
      simp
    rw [readDigits?, hemp, hall, digitsValue_eq_ofDigitChars, Nat.ofDigitChars_ten_toDigits]
    rfl
  rw [readIndex?, Nat.toString_eq_repr, Nat.toList_repr]
  split
  · rename_i cs heq
    exact absurd (hd '+' (heq ▸ mem_cons_self ..)) (by decide)
  · exact hr

theorem toString_injective {i j : Nat} (h : toString i = toString j) : i = j := by
  have hi := readIndex?_toString i
  rw [h, readIndex?_toString j] at hi
  exact (Option.some.inj hi).symm

end Pushdown
