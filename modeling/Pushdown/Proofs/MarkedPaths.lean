import Pushdown.Proofs.Rows
import Pushdown.Write.Address

/-!
# What marked paths select

`Selects`: a path with marks selects places in a document. A name on it leads into a field of a document, and a mark
into elements of an array: `$[]` into all of them, and `$[x]` into those that the filters on `x` admit (`Admits`).
`Leads.selects_markedPath`: a path along hops, with a mark after every array, selects a row that the hops lead to
just when every array on the way admits the element that the row lies in.
-/

namespace Pushdown

open List

def Path.isMark (name : String) : Bool := hasPrefix "$[" name

namespace Hop

variable {mark : Nat → Option String} {hops : List Hop}

theorem filter_markedPath (hmark : ∀ i, ∀ m ∈ mark i, Path.isMark m)
    (hfields : ∀ h ∈ hops, Path.isMark h.field = false) :
    (markedPath mark hops).filter (!Path.isMark ·) = hops.map field := by
  rw [markedPath]
  generalize 0 = start
  induction hops generalizing start with
  | nil => rfl
  | cons h hops ih =>
    have hfield := hfields h (mem_cons_self ..)
    have hmarks : (mark start).toList.filter (!Path.isMark ·) = [] := by
      rw [filter_eq_nil_iff]
      intro m hm
      simp [hmark start m (by simpa using hm)]
    rw [zipIdx_cons, map_cons, flatten_cons, filter_append, ih (fun h hh => hfields h (mem_cons_of_mem _ hh))]
    dsimp only
    split <;> simp [hfield, hmarks]

theorem isName_of_mem_markedPath (hmark : ∀ i, ∀ m ∈ mark i, Path.IsName m)
    (hfields : ∀ h ∈ hops, Path.IsName h.field) : ∀ s ∈ markedPath mark hops, Path.IsName s := by
  intro s hs
  rw [markedPath] at hs
  obtain ⟨part, hpart, hs⟩ := mem_flatten.mp hs
  obtain ⟨⟨h, i⟩, hh, rfl⟩ := mem_map.mp hpart
  have hfield := hfields h (fst_mem_of_mem_zipIdx hh)
  dsimp only at hs
  split at hs
  · rcases mem_cons.mp hs with rfl | hs
    · exact hfield
    · exact hmark i s (by simpa using hs)
  · rw [mem_singleton.mp hs]
    exact hfield

end Hop

variable {i : Nat} {hops : List Hop} {s : RowStep} {steps : List RowStep}

section Selection

variable (equals : Option Bson → Bson → Prop) (filters : List Document)

/-- The mark stands for the element. Under an identifier the filters list fields of an element, with the
values that these are to equal. -/
inductive Admits : String → Bson → Prop
  | all {b : Bson} : Admits "$[]" b
  | bound {id : String} {b : Bson} : id ≠ "" →
      (∀ filter ∈ filters, ∀ clause ∈ filter, ∀ names, Path.split clause.1 = id :: names →
        equals (Bson.follow? names b) clause.2) →
      Admits ("$[" ++ id ++ "]") b

/-- The path selects the place below the value. -/
inductive Selects : List String → Bson → List String → Prop
  | here {b : Bson} : Selects [] b []
  | field {fields : Document} {name : String} {b : Bson} {names place : List String} :
      Document.get? fields name = some b → Selects names b place →
      Selects (name :: names) (.document fields) (name :: place)
  | element {items : List Bson} {i : Nat} {b : Bson} {mark : String} {names place : List String} :
      items[i]? = some b → Admits equals filters mark b → Selects names b place →
      Selects (mark :: names) (.array items) (toString i :: place)

variable {equals filters} {b : Bson}

theorem admits_bound {id : String} (hid : id ≠ "") :
    Admits equals filters ("$[" ++ id ++ "]") b ↔
      ∀ filter ∈ filters, ∀ clause ∈ filter, ∀ names, Path.split clause.1 = id :: names →
        equals (Bson.follow? names b) clause.2 := by
  refine ⟨fun h => ?_, .bound hid⟩
  generalize hmark : "$[" ++ id ++ "]" = mark at h
  have hinner (other : String) (heq : "$[" ++ id ++ "]" = "$[" ++ other ++ "]") : id = other := by
    simpa [← String.toList_inj] using heq
  cases h with
  | all => exact absurd (hinner "" hmark) hid
  | bound _ hall => exact hinner _ hmark ▸ hall

variable {names place : List String}

theorem selects_field {fields : Document} {name : String} (h : Document.get? fields name = some b) :
    Selects equals filters (name :: names) (.document fields) (name :: place) ↔
      Selects equals filters names b place := by
  refine ⟨fun hselects => ?_, .field h⟩
  cases hselects with
  | field h' hrest =>
    cases h.symm.trans h'
    exact hrest

theorem selects_element {items : List Bson} {mark : String} (h : items[i]? = some b) :
    Selects equals filters (mark :: names) (.array items) (toString i :: place) ↔
      Admits equals filters mark b ∧ Selects equals filters names b place := by
  refine ⟨fun hselects => ?_, fun ⟨hadmits, hrest⟩ => .element h hadmits hrest⟩
  generalize hplace : toString i :: place = full at hselects
  cases hselects with
  | element h' hadmits hrest =>
    obtain ⟨hi, rfl⟩ := List.cons.inj hplace
    rw [toString_injective hi, h'] at h
    cases h
    exact ⟨hadmits, hrest⟩

end Selection

def rowAt : Document → List RowStep → Nat → Document
  | d, [], _ => d
  | d, _ :: _, 0 => d
  | _, s :: steps, depth + 1 => rowAt s.row steps depth

/-- The steps lead down from a document along the hops, through arrays just where the hops do. -/
inductive Leads : Document → List Hop → List RowStep → Prop
  | nil {d} : Leads d [] []
  | single {d hop hops s steps} : hop.isArray = false → s.field = hop.field → s.index = none →
      Document.get? d hop.field = some (.document s.row) → Leads s.row hops steps →
      Leads d (hop :: hops) (s :: steps)
  | element {d hop hops s steps items i} : hop.isArray → s.field = hop.field → s.index = some i →
      Document.get? d hop.field = some (.array items) → items[i]? = some (.document s.row) →
      Leads s.row hops steps → Leads d (hop :: hops) (s :: steps)

namespace Row

/-- The rows that the hops lead to lie in arrays just where the hops say so. -/
def fits : List Hop → Row → Bool
  | [], _ => true
  | hop :: hops, r => (stepsBelow hop r).all fun s => s.index.isSome == hop.isArray && fits hops (r.below s)

theorem leads_of_step {hop : Hop} {r : Row} (hs : s ∈ stepsBelow hop r) (hindex : s.index.isSome = hop.isArray)
    (h : Leads s.row hops steps) : Leads r.row (hop :: hops) (s :: steps) := by
  rw [stepsBelow] at hs
  split at hs
  · rename_i items hget
    obtain ⟨hfield, i, hi, hitem⟩ := step_of_mem_arrayRows hs
    rw [Nat.zero_add] at hi
    exact .element (by rw [← hindex, hi]; rfl) hfield hi hget hitem h
  · rename_i d hget
    obtain rfl := mem_singleton.mp hs
    exact .single hindex.symm rfl rfl hget h
  · cases hs

theorem exists_leads {r row : Row} (hfits : r.fits hops) (h : row ∈ r.walk hops) :
    ∃ steps, row.steps = r.steps ++ steps ∧ row.top = r.top ∧ Leads r.row hops steps := by
  induction hops generalizing r with
  | nil =>
    obtain rfl := mem_singleton.mp h
    exact ⟨[], (append_nil _).symm, rfl, .nil⟩
  | cons hop hops ih =>
    rw [walk_cons, mem_flatMap] at h
    obtain ⟨s, hs, h⟩ := h
    have hboth := List.all_eq_true.mp hfits s hs
    rw [Bool.and_eq_true, beq_iff_eq] at hboth
    obtain ⟨steps, hsteps, htop, hleads⟩ := ih hboth.2 h
    rw [row_below] at hleads
    exact ⟨s :: steps, by simp [hsteps], htop, leads_of_step hs hboth.1 hleads⟩

theorem row_ancestor (r : Row) (depth : Nat) : (r.ancestor depth).row = rowAt r.top r.steps depth := by
  obtain ⟨table, top, steps⟩ := r
  show (((steps.take depth).getLast?).map (·.row)).getD top = rowAt top steps depth
  induction steps generalizing top depth with
  | nil => cases depth <;> rfl
  | cons s steps ih =>
    cases depth with
    | zero => rfl
    | succ depth =>
      rw [take_succ_cons, rowAt, ← ih depth s.row, getLast?_cons]
      cases (steps.take depth).getLast? <;> rfl

end Row

namespace Leads

variable {d : Document}

theorem length_eq (h : Leads d hops steps) : steps.length = hops.length := by
  induction h with
  | nil => rfl
  | single _ _ _ _ _ ih | element _ _ _ _ _ _ ih => exact congrArg (· + 1) ih

theorem index_isSome (h : Leads d hops steps) {hop : Hop} (hhop : hops[i]? = some hop) (hs : steps[i]? = some s) :
    s.index.isSome = hop.isArray := by
  induction h generalizing i with
  | nil => cases hhop
  | single harray _ hindex _ _ ih | element harray _ hindex _ _ _ ih =>
    cases i with
    | zero =>
      cases hhop
      cases hs
      rw [hindex, harray]
      rfl
    | succ i => exact ih hhop hs

theorem rowAt_succ (hs : steps[i]? = some s) (d : Document) : rowAt d steps (i + 1) = s.row := by
  induction steps generalizing i d with
  | nil => cases hs
  | cons first steps ih =>
    cases i with
    | zero =>
      cases hs
      cases steps <;> rfl
    | succ i => exact ih hs _

theorem rowAt_rowAt (d : Document) (steps : List RowStep) (i j : Nat) :
    rowAt (rowAt d steps i) (steps.drop i) j = rowAt d steps (i + j) := by
  induction i generalizing d steps with
  | zero => cases steps <;> simp [rowAt]
  | succ i ih =>
    cases steps with
    | nil => simp [rowAt]
    | cons s steps => rw [drop_succ_cons, rowAt, ih, Nat.succ_add, rowAt]

theorem drop (h : Leads d hops steps) (i : Nat) : Leads (rowAt d steps i) (hops.drop i) (steps.drop i) := by
  induction i generalizing d hops steps with
  | zero =>
    cases steps <;> simpa [rowAt] using h
  | succ i ih =>
    cases h with
    | nil => exact .nil
    | single _ _ _ _ h | element _ _ _ _ _ h => exact ih h

theorem follow?_take (h : Leads d hops steps) {depth : Nat} (hle : depth ≤ hops.length)
    (hnone : ∀ hop ∈ hops.take depth, hop.isArray = false) :
    Bson.follow? ((hops.take depth).map Hop.field) (.document d) = some (.document (rowAt d steps depth)) := by
  induction depth generalizing d hops steps with
  | zero => cases steps <;> rfl
  | succ depth ih =>
    cases h with
    | nil => simp at hle
    | @single _ hop hops s steps _ _ _ hget h =>
      have hrest := ih h (Nat.le_of_succ_le_succ hle) fun hop hhop => hnone hop (mem_cons_of_mem _ hhop)
      rw [take_succ_cons, map_cons, Bson.follow?, Bson.step?, hget]
      exact hrest
    | element harray =>
      rw [hnone _ (mem_cons_self ..)] at harray
      cases harray

end Leads

theorem forall_getElem?_cons {α : Type} {a : α} {l : List α} {p : Nat → α → Prop} :
    (∀ i x, (a :: l)[i]? = some x → p i x) ↔ p 0 a ∧ ∀ i x, l[i]? = some x → p (i + 1) x := by
  refine ⟨fun h => ⟨h 0 a rfl, fun i x hx => h (i + 1) x hx⟩, fun ⟨hfirst, hrest⟩ i x hx => ?_⟩
  cases i with
  | zero =>
    cases hx
    exact hfirst
  | succ i => exact hrest i x hx

theorem Hop.markedPath_cons (mark : Nat → Option String) (hop : Hop) (hops : List Hop) :
    markedPath mark (hop :: hops) =
      (if hop.isArray then hop.field :: (mark 0).toList else [hop.field]) ++
        markedPath (fun i => mark (i + 1)) hops := by
  rw [markedPath, markedPath, zipIdx_cons', map_cons, flatten_cons, map_map]
  rfl

theorem Leads.selects_markedPath {equals : Option Bson → Bson → Prop} {filters : List Document} {d : Document}
    (h : Leads d hops steps) (mark : Nat → String) :
    Selects equals filters (Hop.markedPath (fun i => some (mark i)) hops) (.document d) (steps.flatMap RowStep.names) ↔
      ∀ i s, steps[i]? = some s → s.index.isSome → Admits equals filters (mark i) (.document s.row) := by
  induction h generalizing mark with
  | nil =>
    refine ⟨fun _ _ _ hs => ?_, fun _ => .here⟩
    cases hs
  | @single _ hop _ s _ harray hfield hindex hget _ ih =>
    rw [forall_getElem?_cons, ← ih fun i => mark (i + 1), Hop.markedPath_cons, harray, hindex,
      flatMap_cons, RowStep.names, hindex, hfield]
    simpa using selects_field hget
  | @element _ hop _ s _ _ i harray hfield hindex hget hitem _ ih =>
    rw [forall_getElem?_cons, ← ih fun i => mark (i + 1), Hop.markedPath_cons, harray, hindex,
      flatMap_cons, RowStep.names, hindex, hfield]
    simpa using (selects_field hget).trans (selects_element hitem)

end Pushdown
