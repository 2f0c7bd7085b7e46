import Mathlib.Tactic.SplitIfs
import Pushdown.Json.Parser
import Pushdown.Json.Printer
import Pushdown.Proofs.Path

/-!
# JSON texts read back

`parse?_render`: a JSON value whose numbers are whole (`Whole`) is read back from its compact text. The reader goes
through the text from left to right, so `scanValue_render` is about a text in front of what follows it; behind a
value that is the end of the text, a comma or a closing bracket (`IsClosed`).
-/

namespace Pushdown

open List

theorem toDigits_ne_zero_cons (n : Nat) (d : Char) (ds : List Char) : Nat.toDigits 10 n ≠ '0' :: d :: ds := by
  induction n using Nat.strongRecOn generalizing d ds with
  | ind n ih =>
    rw [Nat.toDigits_eq_if (by decide)]
    split
    · simp
    · rename_i hn
      intro heq
      rcases hfront : Nat.toDigits 10 (n / 10) with _ | ⟨c, cs⟩
      · exact Nat.toDigits_ne_nil hfront
      rw [hfront, cons_append] at heq
      obtain ⟨rfl, -⟩ := List.cons.inj heq
      cases cs with
      | cons c cs => exact ih (n / 10) (by omega) c cs hfront
      | nil =>
        -- a single zero in front is the number zero, but `n` has at least two digits
        have hvalue := @Nat.ofDigitChars_ten_toDigits (n / 10)
        rw [hfront] at hvalue
        have hzero : Nat.ofDigitChars 10 ['0'] 0 = 0 := by decide
        omega

theorem takeWhile_append_of_all {p : Char → Bool} {ds rest : List Char} (hds : ∀ c ∈ ds, p c)
    (hrest : ∀ c ∈ rest.head?, p c = false) : (ds ++ rest).takeWhile p = ds ∧ (ds ++ rest).dropWhile p = rest := by
  rw [takeWhile_append_of_pos hds, dropWhile_append_of_pos hds]
  cases rest with
  | nil => simp
  | cons c rest => simp [hrest c rfl]

namespace Json

variable {rest : List Char} {j : Json}

/-- The end of the text, a comma or a closing bracket. -/
def IsClosed (rest : List Char) : Prop := ∀ c ∈ rest.head?, c = ',' ∨ c = ']' ∨ c = '\x7d'

theorem isClosed_nil : IsClosed [] := by simp [IsClosed]

variable {c : Char}

theorem isClosed_cons (hc : c = ',' ∨ c = ']' ∨ c = '\x7d') (cs : List Char) :
    IsClosed (c :: cs) := by simpa [IsClosed] using hc

theorem isClosed_comma (cs : List Char) : IsClosed (',' :: cs) := isClosed_cons (.inl rfl) cs

theorem skipSpace_cons (hc : isSpace c = false) (cs : List Char) : skipSpace (c :: cs) = c :: cs := by
  rw [skipSpace, dropWhile_cons_of_neg (by simp [hc])]

theorem hexValue?_hexDigit (n : Nat) : hexValue? (hexDigit n) = some (n % 16) := by
  have h : ∀ k < 16, hexValue? (Nat.digitChar k) = some k := by decide
  exact h (n % 16) (Nat.mod_lt _ (by decide))

theorem scanUnits_escapeChar (c : Char) (cs : List Char) :
    scanUnits (escapeChar c ++ cs) = (scanUnits cs).map (Prod.map (c.toNat :: ·) id) := by
  unfold escapeChar
  split_ifs with hquote hback hline hreturn htab height htwelve hcontrol
  · subst hquote; rfl
  · subst hback; rfl
  · subst hline; rfl
  · subst hreturn; rfl
  · subst htab; rfl
  · rw [height]; rfl
  · rw [htwelve]; rfl
  · have hunit : codeUnit? '0' '0' (hexDigit (c.toNat / 16)) (hexDigit c.toNat) = some c.toNat := by
      have hvalue : ((0 * 16 + 0) * 16 + c.toNat / 16 % 16) * 16 + c.toNat % 16 = c.toNat := by omega
      rw [codeUnit?, hexValue?_hexDigit, hexValue?_hexDigit]
      exact congrArg some hvalue
    simp only [cons_append, nil_append, scanUnits, hunit]
  · rw [singleton_append, scanUnits]
    · rw [if_neg (by simp [hcontrol, hback])]
    all_goals simp_all

theorem scanUnits_flatMap (cs rest : List Char) :
    scanUnits (cs.flatMap escapeChar ++ '"' :: rest) = some (cs.map Char.toNat, rest) := by
  induction cs with
  | nil => rfl
  | cons c cs ih =>
    rw [flatMap_cons, append_assoc, scanUnits_escapeChar, ih]
    rfl

theorem toNat_not_surrogate (c : Char) : ¬ (0xD800 ≤ c.toNat ∧ c.toNat < 0xE000) := by
  have hvalid := c.valid
  have hval : c.toNat = c.val.toNat := rfl
  rw [UInt32.isValidChar, Nat.isValidChar] at hvalid
  omega

theorem joinUnits_map_toNat (cs : List Char) : joinUnits (cs.map Char.toNat) = some cs := by
  induction cs with
  | nil => rfl
  | cons c cs ih =>
    have hc := toNat_not_surrogate c
    cases cs with
    | nil => rw [map_singleton, joinUnits, if_neg hc, Char.ofNat_toNat]
    | cons d cs =>
      rw [map_cons, map_cons, joinUnits, if_neg (by omega), if_neg hc, ← map_cons, ih, Char.ofNat_toNat]
      rfl

theorem toList_quote (s : String) : (quote s).toList = '"' :: (s.toList.flatMap escapeChar ++ ['"']) := by
  rw [quote, String.toList_append, String.toList_append, String.toList_ofList]
  simp

theorem scanString_flatMap (cs rest : List Char) :
    scanString (cs.flatMap escapeChar ++ '"' :: rest) = some (cs, rest) := by
  rw [scanString, scanUnits_flatMap]
  simp only [joinUnits_map_toNat]
  rfl

theorem scanDigits_toDigits (n : Nat) (hrest : IsClosed rest) :
    scanDigits (Nat.toDigits 10 n ++ rest) = (Nat.toDigits 10 n, rest) := by
  have hstop : ∀ c ∈ rest.head?, c.isDigit = false := by
    intro c hc
    rcases hrest c hc with rfl | rfl | rfl <;> decide
  have hdigits : ∀ c ∈ Nat.toDigits 10 n, c.isDigit :=
    fun c hc => Nat.isDigit_of_mem_toDigits (by decide) (by decide) hc
  obtain ⟨htake, hdrop⟩ := takeWhile_append_of_all hdigits hstop
  rw [scanDigits, htake, hdrop]

theorem scanWhole_toDigits (n : Nat) (hrest : IsClosed rest) :
    scanWhole (Nat.toDigits 10 n ++ rest) = some (Nat.toDigits 10 n, rest) := by
  rw [scanWhole, scanDigits_toDigits n hrest]
  split
  · rename_i heq
    exact absurd (Prod.mk.inj heq).1 Nat.toDigits_ne_nil
  · rename_i heq
    exact absurd (Prod.mk.inj heq).1 (toDigits_ne_zero_cons n _ _)
  · rename_i heq
    obtain ⟨rfl, rfl⟩ := Prod.mk.inj heq
    rfl

theorem scanFraction_of_isClosed (hrest : IsClosed rest) : scanFraction rest = some ([], rest) := by
  cases rest with
  | nil => rfl
  | cons c cs => rcases hrest c rfl with rfl | rfl | rfl <;> rfl

theorem scanExponent_of_isClosed (hrest : IsClosed rest) : scanExponent rest = some ([], rest) := by
  cases rest with
  | nil => rfl
  | cons c cs => rcases hrest c rfl with rfl | rfl | rfl <;> rfl

theorem toDigits_head_isDigit (n : Nat) : ∃ d ds, Nat.toDigits 10 n = d :: ds ∧ d.isDigit = true := by
  cases hdigits : Nat.toDigits 10 n with
  | nil => exact absurd hdigits Nat.toDigits_ne_nil
  | cons d ds =>
    exact ⟨d, ds, rfl, Nat.isDigit_of_mem_toDigits (by decide) (by decide) (hdigits ▸ mem_cons_self)⟩

theorem toList_toString_int (n : Int) :
    (toString n).toList = (if n < 0 then ['-'] else []) ++ Nat.toDigits 10 n.natAbs := by
  rw [Int.toString_eq_repr]
  cases n with
  | ofNat m => exact Nat.toList_repr
  | negSucc m =>
    rw [Int.repr, String.toList_append, Nat.toList_repr, if_pos (Int.negSucc_lt_zero m)]
    rfl

theorem scanNumber_toString (n : Int) (hrest : IsClosed rest) :
    scanNumber ((toString n).toList ++ rest) = some ((toString n).toList, rest) := by
  rw [toList_toString_int]
  split_ifs with hn
  · simp only [scanNumber, cons_append, nil_append, scanWhole_toDigits _ hrest,
      scanFraction_of_isClosed hrest, scanExponent_of_isClosed hrest, append_nil]
  · rw [nil_append, scanNumber]
    · simp only [scanWhole_toDigits _ hrest, scanFraction_of_isClosed hrest,
        scanExponent_of_isClosed hrest, append_nil, nil_append]
    · obtain ⟨d, ds, hdigits, hd⟩ := toDigits_head_isDigit n.natAbs
      intro cs heq
      rw [hdigits, cons_append] at heq
      obtain ⟨rfl, -⟩ := List.cons.inj heq
      exact absurd hd (by decide)

mutual

/-- Whether all numbers in a value are whole numbers, written with as few digits as they have. -/
def Whole : Json → Prop
  | .number text => ∃ n : Int, text = toString n
  | .array items => WholeItems items
  | .object fields => WholeFields fields
  | _ => True

def WholeItems : List Json → Prop
  | [] => True
  | j :: js => Whole j ∧ WholeItems js

def WholeFields : List (String × Json) → Prop
  | [] => True
  | (_, j) :: js => Whole j ∧ WholeFields js

end

/-- A character that a value may start with: no blank, and no bracket that closes something. -/
def isStart (c : Char) : Bool := !isSpace c && c != ']' && c != '\x7d'

theorem isStart_of_isDigit (hc : c.isDigit) : isStart c := by
  have hne : ∀ d : Char, d.isDigit = false → c ≠ d := by
    rintro d hd rfl
    exact absurd hc (by simp [hd])
  simp [isStart, isSpace, hne ' ' (by decide), hne '\n' (by decide), hne '\t' (by decide),
    hne '\r' (by decide), hne ']' (by decide), hne '\x7d' (by decide)]

theorem toString_int_head (n : Int) : ∃ c cs, (toString n).toList = c :: cs ∧ (c = '-' ∨ c.isDigit) := by
  obtain ⟨d, ds, hdigits, hd⟩ := toDigits_head_isDigit n.natAbs
  rw [toList_toString_int, hdigits]
  split_ifs
  · exact ⟨'-', _, rfl, .inl rfl⟩
  · exact ⟨d, _, rfl, .inr hd⟩

theorem toList_render_array (items : List Json) :
    (render (.array items)).toList = '[' :: ((renderItems items).toList ++ [']']) := by
  rw [render, String.toList_append, String.toList_append]
  rfl

theorem toList_render_object (fields : List (String × Json)) :
    (render (.object fields)).toList = '\x7b' :: ((renderFields fields).toList ++ ['\x7d']) := by
  rw [render, String.toList_append, String.toList_append]
  rfl

theorem toList_renderItems_cons (j k : Json) (js : List Json) :
    (renderItems (j :: k :: js)).toList = j.render.toList ++ ',' :: (renderItems (k :: js)).toList := by
  rw [renderItems, String.toList_append, String.toList_append]
  · simp
  · simp

theorem toList_renderFields_cons (k : String) (j : Json) (f : String × Json) (fs : List (String × Json)) :
    (renderFields ((k, j) :: f :: fs)).toList =
      (quote k).toList ++ ':' :: (j.render.toList ++ ',' :: (renderFields (f :: fs)).toList) := by
  rw [renderFields]
  · simp only [String.toList_append]
    simp
  · simp

theorem toList_renderFields_singleton (k : String) (j : Json) :
    (renderFields [(k, j)]).toList = (quote k).toList ++ ':' :: j.render.toList := by
  rw [renderFields]
  simp only [String.toList_append]
  simp

theorem render_head (hj : j.Whole) : ∃ c cs, j.render.toList = c :: cs ∧ isStart c := by
  cases j with
  | null => exact ⟨'n', _, rfl, by decide⟩
  | bool b => cases b with
    | true => exact ⟨'t', _, rfl, by decide⟩
    | false => exact ⟨'f', _, rfl, by decide⟩
  | number text =>
    rw [Whole] at hj
    obtain ⟨n, rfl⟩ := hj
    obtain ⟨c, cs, hcs, hc⟩ := toString_int_head n
    refine ⟨c, cs, by rw [render, hcs], ?_⟩
    rcases hc with rfl | hc
    · decide
    · exact isStart_of_isDigit hc
  | string s => exact ⟨'"', _, by rw [render, toList_quote], by decide⟩
  | array items => exact ⟨'[', _, toList_render_array items, by decide⟩
  | object fields => exact ⟨'\x7b', _, toList_render_object fields, by decide⟩

theorem renderItems_head {js : List Json} (hj : WholeItems (j :: js)) :
    ∃ c cs, (renderItems (j :: js)).toList = c :: cs ∧ isStart c := by
  rw [WholeItems] at hj
  obtain ⟨c, cs, hcs, hc⟩ := render_head hj.1
  cases js with
  | nil => exact ⟨c, cs, by rw [renderItems, hcs], hc⟩
  | cons k js => exact ⟨c, _, by rw [toList_renderItems_cons, hcs, cons_append], hc⟩

theorem renderFields_head (f : String × Json) (fs : List (String × Json)) :
    ∃ cs, (renderFields (f :: fs)).toList = '"' :: cs := by
  obtain ⟨k, j⟩ := f
  cases fs with
  | nil => exact ⟨_, by rw [toList_renderFields_singleton, toList_quote, cons_append]⟩
  | cons f fs => exact ⟨_, by rw [toList_renderFields_cons, toList_quote, cons_append]⟩

theorem skipSpace_of_isStart (hc : isStart c) (cs : List Char) : skipSpace (c :: cs) = c :: cs := by
  refine skipSpace_cons ?_ cs
  simp only [isStart, Bool.and_eq_true, Bool.not_eq_true'] at hc
  exact hc.1.1

theorem skipSpace_render (hj : j.Whole) (rest : List Char) :
    skipSpace (j.render.toList ++ rest) = j.render.toList ++ rest := by
  obtain ⟨c, cs, hcs, hc⟩ := render_head hj
  rw [hcs, cons_append, skipSpace_of_isStart hc]

theorem scanValue_number (n : Int) (fuel : Nat) (hrest : IsClosed rest) :
    scanValue (fuel + 1) ((toString n).toList ++ rest) = some (.number (toString n), rest) := by
  obtain ⟨c, cs, hcs, hc⟩ := toString_int_head n
  have hspace : skipSpace ((toString n).toList ++ rest) = (toString n).toList ++ rest :=
    skipSpace_render (j := .number (toString n)) ⟨n, rfl⟩ rest
  have hne : ∀ d ds, d.isDigit = false → d ≠ '-' → (toString n).toList ++ rest ≠ d :: ds := by
    intro d ds hd hminus heq
    rw [hcs, cons_append] at heq
    obtain ⟨rfl, -⟩ := List.cons.inj heq
    rcases hc with rfl | hc
    · exact hminus rfl
    · exact absurd hc (by simp [hd])
  rw [scanValue, hspace]
  split
  case h_7 =>
    rw [scanNumber_toString n hrest, Option.map_some]
    exact congrArg (fun text => some (Json.number text, rest)) String.ofList_toList
  all_goals exact absurd ‹_ = _ :: _› (hne _ _ (by decide) (by decide))

theorem scanFields_last {fuel : Nat} {cs rest : List Char}
    (hvalue : scanValue fuel cs = some (j, '\x7d' :: rest)) (k : String) :
    scanFields (fuel + 1) ((quote k).toList ++ ':' :: cs) = some ([(k, j)], rest) := by
  rw [toList_quote, scanFields, cons_append, skipSpace_cons (by decide)]
  simp only [append_assoc, singleton_append, scanString_flatMap,
    skipSpace_cons (c := ':') (by decide), hvalue, skipSpace_cons (c := '\x7d') (by decide),
    String.ofList_toList]

theorem scanFields_next {fuel : Nat} {cs cs' rest : List Char} {fs : List (String × Json)}
    (hvalue : scanValue fuel cs = some (j, ',' :: cs'))
    (hfields : scanFields fuel cs' = some (fs, rest)) (k : String) :
    scanFields (fuel + 1) ((quote k).toList ++ ':' :: cs) = some ((k, j) :: fs, rest) := by
  rw [toList_quote, scanFields, cons_append, skipSpace_cons (by decide)]
  simp only [append_assoc, singleton_append, scanString_flatMap,
    skipSpace_cons (c := ':') (by decide), hvalue, skipSpace_cons (c := ',') (by decide), hfields,
    Option.map_some, String.ofList_toList]

mutual

/-- A value is read back from its text, whatever follows. The length of the text bounds the steps of
the reader. -/
theorem scanValue_render : ∀ (j : Json), j.Whole → ∀ (fuel : Nat) (rest : List Char),
    j.render.toList.length ≤ fuel → IsClosed rest → scanValue (fuel + 1) (j.render.toList ++ rest) = some (j, rest)
  | .null, _, _, _, _, _ | .bool true, _, _, _, _, _ | .bool false, _, _, _, _, _ => rfl
  | .number text, hj, fuel, _, _, hrest => by
    rw [Whole] at hj
    obtain ⟨n, rfl⟩ := hj
    exact scanValue_number n fuel hrest
  | .string s, _, fuel, rest, _, _ => by
    rw [render, toList_quote, cons_append, scanValue, skipSpace_cons (by decide)]
    simp only [append_assoc, singleton_append, scanString_flatMap, Option.map_some, String.ofList_toList]
  | .array [], _, _, _, _, _ => rfl
  | .array (j :: js), hj, fuel, rest, hfuel, _ => by
    rw [toList_render_array, length_cons, length_append, length_singleton] at hfuel
    rw [Whole] at hj
    have hitems := scanItems_renderItems (j :: js) (by simp) hj fuel rest (by omega)
    obtain ⟨c, cs, hcs, hc⟩ := renderItems_head hj
    rw [toList_render_array, cons_append, append_assoc, singleton_append, scanValue, skipSpace_cons (by decide)]
    simp only
    rw [hcs, cons_append] at hitems ⊢
    rw [skipSpace_of_isStart hc]
    split
    · rename_i heq
      obtain ⟨rfl, -⟩ := List.cons.inj heq
      exact absurd hc (by decide)
    · exact congrArg (Option.map fun r => (Json.array r.1, r.2)) hitems
  | .object [], _, _, _, _, _ => rfl
  | .object (f :: fs), hj, fuel, rest, hfuel, _ => by
    rw [toList_render_object, length_cons, length_append, length_singleton] at hfuel
    rw [Whole] at hj
    have hfields := scanFields_renderFields (f :: fs) (by simp) hj fuel rest (by omega)
    obtain ⟨cs, hcs⟩ := renderFields_head f fs
    rw [toList_render_object, cons_append, append_assoc, singleton_append, scanValue, skipSpace_cons (by decide)]
    simp only
    rw [hcs, cons_append] at hfields ⊢
    rw [skipSpace_cons (by decide)]
    exact congrArg (Option.map fun r => (Json.object r.1, r.2)) hfields

theorem scanItems_renderItems : ∀ (js : List Json), js ≠ [] → WholeItems js →
    ∀ (fuel : Nat) (rest : List Char), (renderItems js).toList.length + 1 < fuel →
      scanItems fuel ((renderItems js).toList ++ ']' :: rest) = some (js, rest)
  | [] => fun hne => absurd rfl hne
  | [j] => by
    intro _ hj fuel rest hfuel
    obtain ⟨fuel, rfl⟩ : ∃ k, fuel = k + 2 := ⟨fuel - 2, by omega⟩
    rw [WholeItems] at hj
    rw [renderItems] at hfuel ⊢
    rw [scanItems, scanValue_render j hj.1 fuel _ (by omega) (isClosed_cons (by decide) rest)]
    rfl
  | j :: k :: js => by
    intro _ hj fuel rest hfuel
    obtain ⟨fuel, rfl⟩ : ∃ k, fuel = k + 2 := ⟨fuel - 2, by omega⟩
    rw [WholeItems] at hj
    rw [toList_renderItems_cons, length_append, length_cons] at hfuel
    have hitems := scanItems_renderItems (k :: js) (by simp) hj.2 (fuel + 1) rest (by omega)
    rw [toList_renderItems_cons, append_assoc, cons_append, scanItems,
      scanValue_render j hj.1 fuel _ (by omega) (isClosed_comma _)]
    simp only [skipSpace_cons (c := ',') (by decide), hitems]
    rfl

theorem scanFields_renderFields : ∀ (fs : List (String × Json)), fs ≠ [] → WholeFields fs →
    ∀ (fuel : Nat) (rest : List Char), (renderFields fs).toList.length + 1 < fuel →
      scanFields fuel ((renderFields fs).toList ++ '\x7d' :: rest) = some (fs, rest)
  | [] => fun hne => absurd rfl hne
  | [(k, j)] => by
    intro _ hj fuel rest hfuel
    obtain ⟨fuel, rfl⟩ : ∃ k, fuel = k + 2 := ⟨fuel - 2, by omega⟩
    rw [WholeFields] at hj
    rw [toList_renderFields_singleton, length_append, length_cons] at hfuel
    have hvalue := scanValue_render j hj.1 fuel ('\x7d' :: rest) (by omega) (isClosed_cons (by decide) rest)
    rw [toList_renderFields_singleton, append_assoc, cons_append]
    exact scanFields_last hvalue k
  | (k, j) :: f :: fs => by
    intro _ hj fuel rest hfuel
    obtain ⟨fuel, rfl⟩ : ∃ k, fuel = k + 2 := ⟨fuel - 2, by omega⟩
    rw [WholeFields] at hj
    rw [toList_renderFields_cons, length_append, length_cons, length_append, length_cons] at hfuel
    have hfields := scanFields_renderFields (f :: fs) (by simp) hj.2 (fuel + 1) rest (by omega)
    rw [toList_renderFields_cons, append_assoc, cons_append, append_assoc, cons_append]
    exact scanFields_next (scanValue_render j hj.1 fuel _ (by omega) (isClosed_comma _)) hfields k

end

theorem parse?_render (hj : j.Whole) : parse? j.render = some j := by
  have hscan := scanValue_render j hj j.render.toList.length [] (Nat.le_refl _) isClosed_nil
  rw [append_nil] at hscan
  simp only [parse?, hscan]
  rfl

end Json

end Pushdown
