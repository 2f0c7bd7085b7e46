import Pushdown.Layout.Cache
import Pushdown.Proofs.Layouts

/-!
# Layouts asked for again and again

`layout_after`: a cache answers every request as if it were the first. What it keeps are layouts of tables
(`Sound`), and a table with a layout is never under construction because of itself (`answers_request`).
-/

namespace Pushdown.LayoutCache

open List Catalog StateT

variable {c : Catalog} {cache : LayoutCache} {name : String}

def Sound (c : Catalog) (cache : LayoutCache) : Prop :=
  ∀ name l, cache.known.lookup (Text.lower name) = some l → c.LaysOut name l

theorem sound_empty (c : Catalog) : Sound c empty := fun _ _ h => (nomatch h)

theorem Sound.learn (h : Sound c cache) {l : Layout} (hl : c.LaysOut name l) :
    Sound c (cache.learn (Text.lower name) l) := by
  intro other l' hlookup
  rw [LayoutCache.learn, lookup_cons] at hlookup
  split at hlookup
  · rename_i hsame
    cases hlookup
    exact hl.of_lower (eq_of_beq hsame).symm
  · exact h other l' hlookup

theorem building_finish {key : String} {building : List String}
    (h : cache.building = key :: building) (hfree : key ∉ building) : (cache.finish key).building = building := by
  rw [finish, h]
  simp only [filter_cons, bne_self_eq_false, Bool.false_eq_true, if_false]
  exact filter_eq_self.mpr fun k hk => bne_iff_ne.mpr fun heq => hfree (heq ▸ hk)

/-- The layout of a table that is not kept, with the layout of the table above it asked for. -/
def construct (c : Catalog) (fuel : Nat) (name : String) : StateM LayoutCache (Except LayoutError Layout) :=
  match c.table name with
  | .error e => pure (.error e)
  | .ok t =>
    match c.outline t with
    | .error e => pure (.error e)
    | .ok own =>
      match t.properties.mergeInto with
      | none => pure (Catalog.placeBelow t own none)
      | some above => do
        match ← request c fuel above with
        | .error e => pure (.error e)
        | .ok parent => pure (Catalog.placeBelow t own (some parent))

/-- Keeps a layout that was built. -/
def settle (key : String) (cache : LayoutCache) : Except LayoutError Layout → LayoutCache
  | .ok l => (cache.finish key).learn key l
  | .error _ => cache.finish key

theorem request_succ {fuel : Nat} :
    (request c (fuel + 1) name).run cache =
      match cache.known.lookup (Text.lower name) with
      | some l => (.ok l, cache)
      | none =>
        if cache.building.contains (Text.lower name) then (.error (.cyclic name), cache)
        else
          let built := (construct c fuel name).run (cache.start (Text.lower name))
          (built.1, settle (Text.lower name) built.2 built.1) := by
  rw [request]
  simp only [run_bind, run_get, pure_bind]
  cases cache.known.lookup (Text.lower name) with
  | some l => rfl
  | none =>
    simp only [run_bind, run_get, pure_bind]
    split
    · rfl
    · rw [construct]
      cases c.table name with
      | error e => rfl
      | ok t =>
        simp only
        cases c.outline t with
        | error e => rfl
        | ok own =>
          simp only
          cases t.properties.mergeInto with
          | none =>
            simp only
            cases Catalog.placeBelow t own none <;> rfl
          | some above =>
            simp only [run_bind, run_modify, pure_bind]
            rcases (request c fuel above).run (cache.start (Text.lower name)) with ⟨r, after⟩
            cases r with
            | error e => rfl
            | ok parent =>
              simp only [bind]
              cases Catalog.placeBelow t own (some parent) <;> rfl

/-- The answer and what is kept after it: the answer is the one without a cache, what is kept is right,
and the tables in `building` are under construction. -/
structure Answers (c : Catalog) (building : List String) (answer : Except LayoutError Layout)
    (r : Except LayoutError Layout × LayoutCache) : Prop where
  answer : r.1 = answer
  sound : Sound c r.2
  building : r.2.building = building

theorem Answers.settle {building : List String} {answer : Except LayoutError Layout}
    {r : Except LayoutError Layout × LayoutCache}
    (h : Answers c (Text.lower name :: building) answer r) (hfree : Text.lower name ∉ building)
    (hl : ∀ l, answer = .ok l → c.LaysOut name l) :
    Answers c building answer (r.1, settle (Text.lower name) r.2 r.1) := by
  have hbuilding := building_finish h.building hfree
  refine ⟨h.answer, ?_, ?_⟩
  · cases hr : r.1 with
    | error e => exact h.sound
    | ok l =>
      have hsound : Sound c (r.2.finish (Text.lower name)) := h.sound
      exact hsound.learn (hl l (h.answer ▸ hr))
  · cases hr : r.1 with
    | error e | ok l => exact hbuilding

theorem answers_construct {fuel : Nat} (hsound : Sound c cache)
    (habove : ∀ t above, c.table name = .ok t → t.properties.mergeInto = some above →
      Answers c cache.building (c.layoutWithin fuel cache.building above) ((request c fuel above).run cache)) :
    Answers c cache.building
      (do
        let t ← c.table name
        let own ← c.outline t
        match t.properties.mergeInto with
        | none => Catalog.placeBelow t own none
        | some above =>
          let parent ← c.layoutWithin fuel cache.building above
          Catalog.placeBelow t own (some parent))
      ((construct c fuel name).run cache) := by
  rw [construct]
  cases ht : c.table name with
  | error e => exact ⟨rfl, hsound, rfl⟩
  | ok t =>
    simp only [bind, Except.bind]
    cases c.outline t with
    | error e => exact ⟨rfl, hsound, rfl⟩
    | ok own =>
      simp only
      cases hmerge : t.properties.mergeInto with
      | none => exact ⟨rfl, hsound, rfl⟩
      | some above =>
        obtain ⟨hanswer, hsound, hbuilding⟩ := habove t above ht hmerge
        simp only
        rw [← hanswer]
        simp only [StateT.run, StateT.bind] at hsound hbuilding ⊢
        generalize request c fuel above cache = r at hsound hbuilding ⊢
        obtain ⟨built, after⟩ := r
        cases built with
        | error e | ok parent => exact ⟨rfl, hsound, hbuilding⟩

theorem answers_request (fuel : Nat) (name : String) (hsound : Sound c cache)
    (hpending : c.Pending cache.building name) (hfuel : c.entries.length < fuel + cache.building.length) :
    Answers c cache.building (c.layoutWithin fuel cache.building name) ((request c fuel name).run cache) := by
  induction fuel generalizing name cache with
  | zero => exact ⟨rfl, hsound, rfl⟩
  | succ fuel ih =>
    rw [request_succ]
    cases hknown : cache.known.lookup (Text.lower name) with
    | some l =>
      rw [layoutWithin_of_laysOut (hsound name l hknown) hpending hfuel]
      exact ⟨rfl, hsound, rfl⟩
    | none =>
      by_cases hmem : cache.building.contains (Text.lower name)
      · simp only [hmem, if_true]
        rw [layoutWithin, if_pos hmem]
        exact ⟨rfl, hsound, rfl⟩
      · simp only [hmem, Bool.false_eq_true, if_false]
        have hfree : Text.lower name ∉ cache.building := by simpa using hmem
        refine Answers.settle ?_ hfree fun l hl => laysOut_of_layoutWithin hl
        rw [layoutWithin, if_neg hmem]
        have hstart : Sound c (cache.start (Text.lower name)) := hsound
        refine answers_construct hstart fun t above ht hmerge => ?_
        refine ih above hstart (hpending.cons hfree ht hmerge) ?_
        simp only [start, length_cons]
        omega

def after (c : Catalog) (names : List String) : LayoutCache :=
  names.foldl (fun cache name => (layout c name cache).2) empty

theorem answers_layout (name : String) (hsound : Sound c cache) (hbuilding : cache.building = []) :
    Answers c [] (c.layout name) (layout c name cache) := by
  have hanswers := answers_request (c.entries.length + 1) name hsound (hbuilding ▸ .nil c name) (by omega)
  rwa [hbuilding] at hanswers

theorem after_sound (c : Catalog) (names : List String) : Sound c (after c names) ∧ (after c names).building = [] := by
  have hrun : ∀ cache : LayoutCache, Sound c cache → cache.building = [] →
      Sound c (names.foldl (fun cache name => (layout c name cache).2) cache) ∧
        (names.foldl (fun cache name => (layout c name cache).2) cache).building = [] := by
    induction names with
    | nil => exact fun cache hsound hbuilding => ⟨hsound, hbuilding⟩
    | cons name names ih =>
      intro cache hsound hbuilding
      have hanswers := answers_layout name hsound hbuilding
      exact ih _ hanswers.sound hanswers.building
  exact hrun empty (sound_empty c) rfl

/-- After any requests, a request is answered as by an empty cache, which is the answer without a
cache, and no table is left under construction. -/
theorem layout_after (c : Catalog) (names : List String) (name : String) :
    (layout c name (after c names)).1 = (layout c name empty).1 ∧
      (layout c name (after c names)).1 = c.layout name ∧
      (after c names).building = [] ∧ (layout c name (after c names)).2.building = [] := by
  obtain ⟨hsound, hbuilding⟩ := after_sound c names
  have hafter := answers_layout name hsound hbuilding
  have hfresh := answers_layout name (sound_empty c) rfl
  exact ⟨hafter.answer.trans hfresh.answer.symm, hafter.answer, hbuilding, hafter.building⟩

end Pushdown.LayoutCache
