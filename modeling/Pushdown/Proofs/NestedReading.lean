import Mathlib.Data.List.Forall2
import Pushdown.Proofs.JsonText

/-!
# Reading nested values

A value is read only as far as it is not nested too deep: arrays and objects below the limit are cut off, and no
reader takes what stands in their place for anything. `ReadsAt`: a form is read just when it is not nested deeper
than the limit. This holds of a record or a list as soon as it holds of its parts, with one level less
(`record?_cut_object`, `readsAt_list`).
-/

namespace Pushdown.Json

open List

variable {α β : Type} {n : Nat} {f : Json → Option α} {j : Json} {a : α}

/-- What `f` reads from `j` down to level `n`: it is `a` if `j` is not nested deeper, and nothing
otherwise. -/
def ReadsAt (n : Nat) (f : Json → Option α) (j : Json) (a : α) : Prop :=
  f (j.cutBelow n) = if j.depth ≤ n then some a else none

@[simp] theorem cutBelow_null (n : Nat) : cutBelow n .null = .null := by rw [cutBelow]

@[simp] theorem cutBelow_bool (n : Nat) (b : Bool) : cutBelow n (.bool b) = .bool b := by rw [cutBelow]

@[simp] theorem cutBelow_number (n : Nat) (text : String) : cutBelow n (.number text) = .number text := by
  rw [cutBelow]

@[simp] theorem cutBelow_string (n : Nat) (s : String) : cutBelow n (.string s) = .string s := by
  rw [cutBelow]

theorem cutBelow_ne_null (hj : j ≠ .null) : cutBelow n j ≠ .null := by
  cases j with
  | null => exact absurd rfl hj
  | array items | object fields => cases n <;> simp [cutBelow]
  | _ => simp

theorem lookup_cutFields (n : Nat) (name : String) (fields : List (String × Json)) :
    List.lookup name (cutFields n fields) = (List.lookup name fields).map (cutBelow n) := by
  induction fields with
  | nil => simp [cutFields]
  | cons field fields ih =>
    obtain ⟨k, j⟩ := field
    rw [cutFields, lookup_cons, lookup_cons, ih]
    cases name == k <;> rfl

mutual

theorem min_depth_le : ∀ (n : Nat) (j : Json), min n j.depth ≤ (j.cutBelow n).depth
  | _, .null | _, .bool _ | _, .number _ | _, .string _ => by simp [depth]
  | 0, .array _ | 0, .object _ => by simp
  | n + 1, .array items => by
    have hitems := min_depthItems_le n items
    simp only [cutBelow, depth]
    omega
  | n + 1, .object fields => by
    have hfields := min_depthFields_le n fields
    simp only [cutBelow, depth]
    omega

theorem min_depthItems_le : ∀ (n : Nat) (js : List Json), min n (depthItems js) ≤ depthItems (cutItems n js)
  | _, [] => by simp [depthItems]
  | n, j :: js => by
    have hj := min_depth_le n j
    have hjs := min_depthItems_le n js
    simp only [cutItems, depthItems]
    omega

theorem min_depthFields_le : ∀ (n : Nat) (js : List (String × Json)),
    min n (depthFields js) ≤ depthFields (cutFields n js)
  | _, [] => by simp [depthFields]
  | n, (k, j) :: js => by
    have hj := min_depth_le n j
    have hjs := min_depthFields_le n js
    simp only [cutFields, depthFields]
    omega

end

theorem readsAt_string (n : Nat) (s : String) : ReadsAt n string? (.string s) s := by
  simp [ReadsAt, string?, depth]

theorem readsAt_bool (n : Nat) (b : Bool) : ReadsAt n bool? (.bool b) b := by
  simp [ReadsAt, bool?, depth]

theorem readsAt_char (n : Nat) (c : Char) : ReadsAt n char? (.string (String.ofList [c])) c := by
  simp [ReadsAt, char?, depth]

theorem splitSign_toString (n : Int) : splitSign (toString n).toList = (decide (n < 0), Nat.toDigits 10 n.natAbs) := by
  obtain ⟨d, ds, hdigits, hd⟩ := toDigits_head_isDigit n.natAbs
  rw [toList_toString_int]
  split_ifs with hn
  · simp [splitSign, hn]
  · have hhead : ∀ c cs, c.isDigit = false → d :: ds ≠ c :: cs := by
      rintro c cs hc heq
      obtain ⟨rfl, -⟩ := List.cons.inj heq
      exact absurd hd (by simp [hc])
    rw [hdigits, nil_append, splitSign]
    · simp [hn]
    · exact fun cs => hhead '-' cs (by decide)
    · exact fun cs => hhead '+' cs (by decide)

theorem readInt?_toString (n : Int) : readInt? (toString n) = some n := by
  have hdigits : readDigits? (Nat.toDigits 10 n.natAbs) = some n.natAbs := by
    have hall : (Nat.toDigits 10 n.natAbs).all Char.isDigit = true :=
      List.all_eq_true.mpr fun c hc => Nat.isDigit_of_mem_toDigits (by decide) (by decide) hc
    have hempty : (Nat.toDigits 10 n.natAbs).isEmpty = false := by simp
    rw [readDigits?, hall, hempty, digitsValue_eq_ofDigitChars, Nat.ofDigitChars_ten_toDigits]
    rfl
  have hvalue : (if decide (n < 0) = true then -(n.natAbs : Int) else n.natAbs) = n := by
    simp only [decide_eq_true_eq]
    split_ifs <;> omega
  rw [readInt?, splitSign_toString]
  simp only [hdigits]
  exact congrArg some hvalue

@[simp] theorem cutBelow_ofInt (n : Nat) (m : Int) : cutBelow n (.ofInt m) = .ofInt m :=
  cutBelow_number n _

@[simp] theorem depth_ofInt (m : Int) : (ofInt m).depth = 0 := by simp [ofInt, depth]

@[simp] theorem int?_ofInt (m : Int) : (ofInt m).int? = some m := readInt?_toString m

theorem readsAt_int (n : Nat) (m : Int) : ReadsAt n int? (.ofInt m) m := by
  simp [ReadsAt]

theorem readsAt_intWithin {low high m : Int} (hlow : low ≤ m) (hhigh : m ≤ high) (n : Nat) :
    ReadsAt n (intWithin? low high) (.ofInt m) m := by
  have hsign : (isNegative (.ofInt m) && m == 0) = false := by
    simp only [isNegative, ofInt, splitSign_toString]
    by_cases hm : m = 0
    · simp [hm]
    · simp [hm]
  simp [ReadsAt, intWithin?, hsign, hlow, hhigh]

theorem ReadsAt.map (h : ReadsAt n f j a) (g : α → β) : ReadsAt n (fun j => (f j).map g) j (g a) := by
  rw [ReadsAt] at h ⊢
  rw [h]
  split_ifs <;> rfl

theorem readsAt_width {low high m : Int} (hm : low ≤ m ∧ m ≤ high) {g : Int → α} (hg : g m = a) (n : Nat) :
    ReadsAt n (fun j => (intWithin? low high j).map g) (.ofInt m) a :=
  hg ▸ (readsAt_intWithin hm.1 hm.2 n).map g

theorem ReadsAt.bind (h : ReadsAt n f j a) {g : α → Option β} {b : β} (hg : g a = some b) :
    ReadsAt n (fun j => (f j).bind g) j b := by
  rw [ReadsAt] at h ⊢
  rw [h]
  split_ifs with hdepth
  · exact hg
  · rfl

theorem ReadsAt.option (h : ReadsAt n f j a) (hj : j ≠ .null) : ReadsAt n (option? f) j (some a) := by
  have hcut : option? f (j.cutBelow n) = (f (j.cutBelow n)).map some := by
    rw [option?]
    exact cutBelow_ne_null hj
  rw [ReadsAt, hcut, h]
  split_ifs <;> rfl

theorem readsAt_ofOption {t : α → Json} {o : Option α} (hnull : ∀ a, t a ≠ .null)
    (h : ∀ a, o = some a → ReadsAt n f (t a) a) : ReadsAt n (option? f) (ofOption t o) o := by
  cases o with
  | none => simp [ReadsAt, ofOption, option?, depth]
  | some a => exact (h a rfl).option (hnull a)

variable {as : List α} {items : List Json} {k : α → Option β}

theorem readsAt_items (h : List.Forall₂ (ReadsAt n f) items as) :
    (cutItems n items).mapM f = if depthItems items ≤ n then some as else none := by
  induction h with
  | nil => simp [cutItems, depthItems]
  | cons hj _ ih =>
    rw [cutItems, mapM_cons, hj, ih]
    simp only [depthItems, Nat.max_le]
    split_ifs <;> simp_all

theorem readsAt_array (h : ∀ m, n = m + 1 → List.Forall₂ (ReadsAt m f) items as) :
    ReadsAt n (list? f) (.array items) as := by
  cases n with
  | zero => simp [ReadsAt, cutBelow, list?, depth]
  | succ n => simp [ReadsAt, cutBelow, list?, depth, readsAt_items (h n rfl)]

theorem readsAt_list {t : α → Json} (h : ∀ m, n = m + 1 → ∀ a ∈ as, ReadsAt m f (t a) a) :
    ReadsAt n (list? f) (.array (as.map t)) as :=
  readsAt_array fun m hm => forall₂_map_left_iff.mpr (forall₂_same.mpr (h m hm))

theorem readsAt_strings (n : Nat) (ss : List String) : ReadsAt n (list? string?) (.ofStrings ss) ss :=
  readsAt_list fun m _ s _ => readsAt_string m s

theorem variant?_cut_tagged (n : Nat) (name : String) (payload : Json) :
    variant? (cutBelow (n + 1) (tagged name payload)) = some (name, some (payload.cutBelow n)) := by
  simp [tagged, cutBelow, cutFields, variant?]

theorem depth_tagged (name : String) (payload : Json) : (tagged name payload).depth = payload.depth + 1 := by
  simp [tagged, depth, depthFields]

theorem record?_cut_object (n : Nat) (names : List String) (fields : List (String × Json)) :
    record? names (cutBelow (n + 1) (.object fields)) =
      some (names.map fun name => (List.lookup name fields).map (cutBelow n)) := by
  simp [cutBelow, record?, lookup_cutFields]

variable {fields : List (String × Json)}

theorem required_bind {name : String} (h : ReadsAt n f j a) {b : β}
    (hk : k a = if depthFields fields ≤ n then some b else none) :
    (required f (some (j.cutBelow n))).bind k = if depthFields ((name, j) :: fields) ≤ n then some b else none := by
  simp only [depthFields, Nat.max_le]
  rw [required, h]
  split_ifs <;> simp_all

theorem defaulted_bind {name : String} (value : α) (h : ReadsAt n f j a) {b : β}
    (hk : k a = if depthFields fields ≤ n then some b else none) :
    (defaulted value f (some (j.cutBelow n))).bind k =
      if depthFields ((name, j) :: fields) ≤ n then some b else none := by
  simp only [depthFields, Nat.max_le]
  rw [defaulted, h]
  split_ifs <;> simp_all

theorem pure_read (n : Nat) (b : β) : (pure b : Option β) = if depthFields [] ≤ n then some b else none := by
  simp [depthFields]

end Pushdown.Json
