import Mathlib.Data.List.Nodup
import Pushdown.Proofs.ColumnLocations
import Pushdown.Proofs.MarkedPaths

/-!
# The row that holds a new row

`parent_rows_selected`: a new nested row goes into the row that its key refers to. The values of the key are looked
for where their columns lie: above all arrays by the filter on the document (`HoldsOutside`), and below one by a
condition on its elements, that of the last array on the way to the column (`clauseAt`).
-/

namespace Pushdown

open List Hop Pushdown.Path

namespace Path

def names (path : String) : List String := if path.isEmpty then [] else split path

theorem names_join {ns : List String} (h : ∀ s ∈ ns, IsName s) : names (join ns) = ns := by
  by_cases hne : ns = []
  · subst hne
    rfl
  · have hjoin : join ns ≠ "" := join_ne_empty hne fun s hs => (h s hs).1
    rw [names, if_neg (by simpa using hjoin), split_join hne h]

theorem flatMap_split {ns : List String} (h : ∀ s ∈ ns, '.' ∉ s.toList) : ns.flatMap split = ns := by
  by_cases hne : ns = []
  · subst hne
    rfl
  · rw [← split_join_flatMap hne, split_join_of_not_mem hne h]

def identifier? (name : String) : Option String :=
  let inner := (name.toList.drop 2).dropLast
  if isMark name && name.toList.getLast? == some ']' && !inner.isEmpty then some (String.ofList inner)
  else none

def identifiers (path : String) : List String := (names path).filterMap identifier?

theorem identifier?_of_not_mark {name : String} (h : isMark name = false) : identifier? name = none := by
  simp [identifier?, h]

theorem identifier?_mark {id : String} (h : id ≠ "") : identifier? ("$[" ++ id ++ "]") = some id := by
  have hchars : ("$[" ++ id ++ "]").toList = '$' :: '[' :: (id.toList ++ [']']) := by simp
  have hne : id.toList ≠ [] := by simpa using h
  simp [identifier?, isMark, hasPrefix, hchars, hne, getLast?_cons, List.isPrefixOf]

end Path

theorem flatten_map_ite {α β : Type} (p : α → Bool) (f : α → β) (l : List α) :
    (l.map fun a => if p a then [] else [f a]).flatten = (l.filter fun a => !p a).map f := by
  induction l with
  | nil => rfl
  | cons a l ih => cases hp : p a <;> simp [hp, ih]

/-! ### The last array -/

variable {i : Nat}

namespace Hop

variable {hops : List Hop}

theorem lastArray?_concat (hops : List Hop) (hop : Hop) :
    lastArray? (hops ++ [hop]) = if hop.isArray then some hops.length else lastArray? hops := by
  rw [lastArray?, lastArray?, reverse_concat, findIdx?_cons, length_append, length_singleton]
  split
  · simp
  · rw [Option.map_map]
    congr 1
    funext i
    simp only [Function.comp_apply]
    omega

theorem lastArray?_eq_none : lastArray? hops = none ↔ ∀ hop ∈ hops, hop.isArray = false := by
  simp [lastArray?, findIdx?_eq_none_iff]

theorem of_lastArray?_eq_some (h : lastArray? hops = some i) :
    (∃ hop, hops[i]? = some hop ∧ hop.isArray) ∧ ∀ hop ∈ hops.drop (i + 1), hop.isArray = false := by
  induction hops using List.reverseRecOn with
  | nil => cases h
  | append_singleton hops hop ih =>
    rw [lastArray?_concat] at h
    split at h
    · rename_i harray
      cases h
      exact ⟨⟨hop, by simp, harray⟩, by simp⟩
    · rename_i harray
      obtain ⟨⟨found, hfound, hisArray⟩, hrest⟩ := ih h
      have hlt := (List.getElem?_eq_some_iff.mp hfound).1
      refine ⟨⟨found, by rwa [getElem?_append_left hlt], hisArray⟩, fun other hother => ?_⟩
      rw [drop_append_of_le_length hlt] at hother
      rcases mem_append.mp hother with hother | hother
      · exact hrest other hother
      · rw [mem_singleton.mp hother]
        simpa using harray

theorem of_lastArray?_take {depth : Nat} (h : lastArray? (hops.take depth) = some i) :
    i < depth ∧ (∃ hop, hops[i]? = some hop ∧ hop.isArray) ∧
      ∀ hop ∈ (hops.take depth).drop (i + 1), hop.isArray = false := by
  obtain ⟨⟨hop, hhop, harray⟩, hrest⟩ := of_lastArray?_eq_some h
  rw [getElem?_take] at hhop
  split at hhop
  · exact ⟨‹_›, ⟨hop, hhop, harray⟩, hrest⟩
  · cases hhop

/-- The path does not lead into elements of an array among the hops. -/
def Outside (hops : List Hop) (path : String) : Prop :=
  ∀ i hop rest, hops[i]? = some hop → hop.isArray → Path.split path = (hops.take (i + 1)).map field ++ rest → rest = []

theorem elementName_injective {j : Nat} (h : elementName i = elementName j) : i = j := by
  rw [elementName, elementName, ← String.toList_inj] at h
  simp only [String.toList_append] at h
  exact toString_injective (String.toList_inj.mp (append_cancel_left h))

theorem elementName_isName (i : Nat) : Path.IsName (elementName i) := by
  have hdigits := toString_isName i
  refine ⟨fun h => ?_, ?_⟩
  · have := congrArg String.toList h
    simp [elementName] at this
  · simpa [elementName] using hdigits.2

end Hop

/-- The fields of the document outside of arrays equal the values that the filter lists. -/
def Document.HoldsOutside (equals : Option Bson → Bson → Prop) (hops : List Hop) (d filter : Document) : Prop :=
  ∀ clause ∈ filter, Hop.Outside hops clause.1 → equals (d.atPath? clause.1) clause.2

/-- The names from an element of the array that is the hop at `i` down to the location. -/
def Location.namesBelow (hops : List Hop) (i : Nat) (p : Location) : List String :=
  ((hops.take p.depth).drop (i + 1)).map Hop.field ++ Path.split p.field

/-! ### Values at locations -/

namespace Leads

variable {d : Document} {hops : List Hop} {steps : List RowStep} {p : Location}

theorem follow?_namesBelow (h : Leads d hops steps) (hle : p.depth ≤ hops.length) {s : RowStep}
    (hlast : lastArray? (hops.take p.depth) = some i) (hs : steps[i]? = some s) :
    Bson.follow? (p.namesBelow hops i) (.document s.row) = Document.atPath? (rowAt d steps p.depth) p.field := by
  obtain ⟨hlt, -, hrest⟩ := of_lastArray?_take hlast
  have hdepth : i + 1 + (p.depth - (i + 1)) = p.depth := by omega
  -- below the element the way goes on through documents
  have hle : p.depth - (i + 1) ≤ (hops.drop (i + 1)).length := by
    rw [length_drop]
    omega
  have hfollow := (h.drop (i + 1)).follow?_take hle (by rwa [← drop_take])
  rw [rowAt_rowAt, hdepth, rowAt_succ hs, ← drop_take] at hfollow
  rw [Location.namesBelow, Bson.follow?_append, hfollow]
  rfl

end Leads

/-! ### Addresses -/

namespace ParentAddress

variable {hops : List Hop} {pins : List Pin} {pin : Pin} {clause : String × Bson}

/-- The pins are at different locations of the rows along the hops, and these have names by which the paths
of the locations differ as well. -/
structure WellPinned (hops : List Hop) (pins : List Pin) : Prop where
  dotFree : ∀ hop ∈ hops, '.' ∉ hop.field.toList
  plain : ∀ hop ∈ hops, hop.link.readAs = none
  clear : ∀ hop ∈ hops, hop.Clear
  depth_le : ∀ pin ∈ pins, pin.location.depth ≤ hops.length
  shallow : ∀ pin ∈ pins, IsShallow pin.location.field
  distinct : (pins.map (·.location)).Nodup

/-- The condition that a pin puts on the elements of the array that is the hop at `i`. -/
def clauseAt (hops : List Hop) (i : Nat) (pin : Pin) : String × Bson :=
  (Hop.elementName i ++ "." ++ Hop.pathInElement hops i pin.location.depth pin.location.field, pin.value)

theorem condition?_eq_some :
    condition? hops i pin = some clause ↔
      lastArray? (hops.take pin.location.depth) = some i ∧ clause = clauseAt hops i pin := by
  rw [condition?]
  split
  · rename_i array hlast
    split
    · rename_i heq
      subst heq
      simp [hlast, clauseAt, eq_comm]
    · rename_i hne
      simp [hlast, hne]
  · rename_i hlast
    simp [hlast]

def bound (hops : List Hop) (pins : List Pin) : List Nat :=
  (List.range hops.length).filter fun i => !(conditions hops pins i).isEmpty

namespace WellPinned

variable (h : WellPinned hops pins)
include h

theorem flatMap_split_fields {part : List Hop} (hpart : ∀ hop ∈ part, hop ∈ hops) :
    (part.map Hop.field).flatMap Path.split = part.map Hop.field :=
  flatMap_split fun s hs => by
    obtain ⟨hop, hhop, rfl⟩ := mem_map.mp hs
    exact h.dotFree hop (hpart hop hhop)

theorem split_path (p : Location) :
    Path.split (p.path hops) = (hops.take p.depth).map Hop.field ++ Path.split p.field := by
  rw [Location.split_path h.plain h.clear, h.flatMap_split_fields fun _ => mem_of_mem_take]

theorem split_path_below {p : Location} (hlast : lastArray? (hops.take p.depth) = some i) :
    Path.split (p.path hops) = (hops.take (i + 1)).map Hop.field ++ p.namesBelow hops i := by
  obtain ⟨hlt, -, -⟩ := of_lastArray?_take hlast
  have htake : hops.take (i + 1) = (hops.take p.depth).take (i + 1) := by
    rw [take_take, Nat.min_eq_left hlt]
  rw [h.split_path, Location.namesBelow, ← append_assoc, ← map_append, htake, take_append_drop]

theorem split_clauseAt (i : Nat) (pin : Pin) :
    Path.split (clauseAt hops i pin).1 = elementName i :: pin.location.namesBelow hops i := by
  rw [clauseAt, split_append_dot, split_of_isName (elementName_isName i),
    pathInElement, split_join_flatMap (by simp), flatMap_append,
    h.flatMap_split_fields fun _ hhop => mem_of_mem_take (mem_of_mem_drop hhop),
    flatMap_singleton]
  rfl

theorem location_eq_of_path {q : Pin} (hpin : pin ∈ pins) (hq : q ∈ pins)
    (heq : pin.location.path hops = q.location.path hops) : pin.location = q.location :=
  Location.path_injective h.plain h.clear (h.shallow pin hpin) (h.shallow q hq) (h.depth_le pin hpin)
    (h.depth_le q hq) heq

theorem location_eq_of_clauseAt {q : Pin} (hpin : pin ∈ pins) (hq : q ∈ pins)
    (hlast : lastArray? (hops.take pin.location.depth) = some i)
    (hlast' : lastArray? (hops.take q.location.depth) = some i)
    (heq : (clauseAt hops i pin).1 = (clauseAt hops i q).1) : pin.location = q.location := by
  have hbelow : pin.location.namesBelow hops i = q.location.namesBelow hops i := by
    have hsplit := congrArg Path.split heq
    rw [h.split_clauseAt, h.split_clauseAt] at hsplit
    exact (List.cons.inj hsplit).2
  refine h.location_eq_of_path hpin hq (split_injective ?_)
  rw [h.split_path_below hlast, h.split_path_below hlast', hbelow]

theorem pairwise_location : pins.Pairwise fun p q => p.location ≠ q.location :=
  pairwise_map.mp h.distinct

theorem filter_eq : (ofPins hops pins).filter = pins.map fun p => (p.location.path hops, p.value) := by
  refine Document.ofFields_of_nodup ?_
  rw [map_map]
  refine pairwise_map.mpr (h.pairwise_location.imp_of_mem fun hp hq hne heq => hne ?_)
  exact h.location_eq_of_path hp hq heq

theorem mem_conditions :
    clause ∈ conditions hops pins i ↔
      ∃ pin ∈ pins, lastArray? (hops.take pin.location.depth) = some i ∧ clause = clauseAt hops i pin := by
  have hnodup : ((pins.filterMap (condition? hops i)).map Prod.fst).Nodup := by
    refine pairwise_map.mpr (List.Pairwise.filterMap _ (fun p q hpq x hx y hy => ?_)
      (h.pairwise_location.imp_of_mem (S := fun p q => ∀ x, condition? hops i p = some x →
        ∀ y, condition? hops i q = some y → x.1 ≠ y.1) fun {p q} hp hq hne x hx y hy heq => hne ?_))
    · exact hpq x hx y hy
    · obtain ⟨hlast, rfl⟩ := condition?_eq_some.mp hx
      obtain ⟨hlast', rfl⟩ := condition?_eq_some.mp hy
      exact h.location_eq_of_clauseAt hp hq hlast hlast' heq
  rw [conditions, Document.ofFields_of_nodup hnodup, mem_filterMap]
  simp only [condition?_eq_some]

theorem isArray_of_conditions (hne : conditions hops pins i ≠ []) : ∃ hop, hops[i]? = some hop ∧ hop.isArray := by
  obtain ⟨clause, hclause⟩ := exists_mem_of_ne_nil _ hne
  obtain ⟨pin, hpin, hlast, -⟩ := h.mem_conditions.mp hclause
  obtain ⟨-, harray, -⟩ := of_lastArray?_take hlast
  exact harray

theorem outside_iff (hpin : pin ∈ pins) :
    Hop.Outside hops (pin.location.path hops) ↔ lastArray? (hops.take pin.location.depth) = none := by
  constructor
  · intro hout
    cases hlast : lastArray? (hops.take pin.location.depth) with
    | none => rfl
    | some i =>
      obtain ⟨-, ⟨hop, hhop, harray⟩, -⟩ := of_lastArray?_take hlast
      have hbelow := hout i hop _ hhop harray (h.split_path_below hlast)
      exact absurd hbelow (append_ne_nil_of_right_ne_nil _ (split_ne_nil _))
  · intro hnone i hop rest hhop harray hsplit
    obtain ⟨hi, rfl⟩ := List.getElem?_eq_some_iff.mp hhop
    -- an array on the way is none above the location
    have hle : pin.location.depth ≤ i := by
      by_contra hlt
      have hmem : hops[i] ∈ hops.take pin.location.depth := mem_take_iff_getElem.mpr ⟨i, by omega, rfl⟩
      rw [lastArray?_eq_none.mp hnone _ hmem] at harray
      cases harray
    have hnext : hops.drop pin.location.depth = hops[pin.location.depth] :: hops.drop (pin.location.depth + 1) :=
      drop_eq_getElem_cons (by omega)
    obtain ⟨n, hn⟩ : ∃ n, i + 1 = pin.location.depth + (n + 1) := ⟨i - pin.location.depth, by omega⟩
    rw [h.split_path, hn, take_add, hnext, take_succ_cons, map_append, map_cons, append_assoc, cons_append] at hsplit
    have hfield := append_cancel_left hsplit
    rw [← singleton_append, ← split_of_not_mem (h.dotFree _ (getElem_mem _))] at hfield
    by_contra hrest
    exact (h.shallow pin hpin).not_below (h.clear _ (getElem_mem _)) (append_ne_nil_of_right_ne_nil _ hrest) hfield

end WellPinned

theorem arrayFilters_eq : (ofPins hops pins).arrayFilters = (bound hops pins).map (conditions hops pins) :=
  filter_map

theorem mem_arrayFilters {filter : Document} :
    filter ∈ (ofPins hops pins).arrayFilters ↔
      ∃ i < hops.length, conditions hops pins i ≠ [] ∧ conditions hops pins i = filter := by
  rw [arrayFilters_eq, mem_map]
  simp [bound, and_assoc]

def mark (hops : List Hop) (pins : List Pin) (i : Nat) : String :=
  if (conditions hops pins i).isEmpty then "$[]" else "$[" ++ Hop.elementName i ++ "]"

namespace WellPinned

variable {equals : Option Bson → Bson → Prop} (h : WellPinned hops pins)
include h

theorem admits_mark_iff (b : Bson) :
    Admits equals (ofPins hops pins).arrayFilters (mark hops pins i) b ↔
      ∀ pin ∈ pins, lastArray? (hops.take pin.location.depth) = some i →
        equals (Bson.follow? (pin.location.namesBelow hops i) b) pin.value := by
  rw [mark]
  split
  · rename_i hnone
    refine ⟨fun _ pin hpin hlast => ?_, fun _ => .all⟩
    have hmem := h.mem_conditions.mpr ⟨pin, hpin, hlast, rfl⟩
    rw [List.isEmpty_iff.mp hnone] at hmem
    cases hmem
  · rename_i hsome
    rw [admits_bound (elementName_isName i).1]
    constructor
    · intro hall pin hpin hlast
      have hclause := h.mem_conditions.mpr ⟨pin, hpin, hlast, rfl⟩
      obtain ⟨-, ⟨hop, hhop, -⟩, -⟩ := of_lastArray?_take hlast
      have hfilter := mem_arrayFilters.mpr ⟨i, (List.getElem?_eq_some_iff.mp hhop).1, ne_nil_of_mem hclause, rfl⟩
      exact hall _ hfilter _ hclause _ (h.split_clauseAt i pin)
    · intro hall filter hfilter clause hclause names hsplit
      obtain ⟨j, -, -, rfl⟩ := mem_arrayFilters.mp hfilter
      obtain ⟨pin, hpin, hlast, rfl⟩ := h.mem_conditions.mp hclause
      rw [h.split_clauseAt] at hsplit
      obtain ⟨hname, rfl⟩ := List.cons.inj hsplit
      obtain rfl := elementName_injective hname
      exact hall pin hpin hlast

variable {steps : List RowStep}

theorem holdsOutside_iff {d : Document} (hleads : Leads d hops steps) :
    Document.HoldsOutside equals hops d (ofPins hops pins).filter ↔
      ∀ pin ∈ pins, lastArray? (hops.take pin.location.depth) = none →
        equals (Document.atPath? (rowAt d steps pin.location.depth) pin.location.field) pin.value := by
  have hvalue (pin : Pin) (hpin : pin ∈ pins)
      (hnone : lastArray? (hops.take pin.location.depth) = none) :
      d.atPath? (pin.location.path hops) =
        Document.atPath? (rowAt d steps pin.location.depth) pin.location.field := by
    rw [Document.atPath?, h.split_path, Bson.follow?_append,
      hleads.follow?_take (h.depth_le pin hpin) (lastArray?_eq_none.mp hnone)]
    rfl
  rw [Document.HoldsOutside, h.filter_eq, forall_mem_map]
  refine forall₂_congr fun pin hpin => ?_
  rw [h.outside_iff hpin]
  exact forall_congr' fun hnone => by rw [hvalue pin hpin hnone]

theorem selects_iff (equals : Option Bson → Bson → Prop) {d : Document} (hleads : Leads d hops steps) :
    (Selects equals (ofPins hops pins).arrayFilters
        (markedPath (fun i => some (mark hops pins i)) hops) (.document d)
        (steps.flatMap RowStep.names) ∧
      Document.HoldsOutside equals hops d (ofPins hops pins).filter) ↔
    ∀ pin ∈ pins, equals (Document.atPath? (rowAt d steps pin.location.depth) pin.location.field) pin.value := by
  rw [hleads.selects_markedPath, h.holdsOutside_iff hleads]
  constructor
  · rintro ⟨helements, houtside⟩ pin hpin
    cases hlast : lastArray? (hops.take pin.location.depth) with
    | none => exact houtside pin hpin hlast
    | some i =>
      obtain ⟨-, ⟨hop, hhop, harray⟩, -⟩ := of_lastArray?_take hlast
      have hi : i < steps.length := hleads.length_eq ▸ (List.getElem?_eq_some_iff.mp hhop).1
      have hs : steps[i]? = some steps[i] := getElem?_eq_getElem hi
      have hadmits := helements i _ hs (by rw [hleads.index_isSome hhop hs, harray])
      have hvalue := (h.admits_mark_iff _).mp hadmits pin hpin hlast
      rwa [hleads.follow?_namesBelow (h.depth_le pin hpin) hlast hs] at hvalue
  · intro hall
    refine ⟨fun i s hs _ => (h.admits_mark_iff _).mpr fun pin hpin hlast => ?_, fun pin hpin _ => hall pin hpin⟩
    rw [hleads.follow?_namesBelow (h.depth_le pin hpin) hlast hs]
    exact hall pin hpin

theorem names_path : names (ofPins hops pins).path = markedPath (fun i => some (mark hops pins i)) hops := by
  refine names_join (isName_of_mem_markedPath (fun i m hm => ?_) fun hop hhop =>
    ⟨(h.clear hop hhop).nonempty, h.dotFree hop hhop⟩)
  cases hm
  split
  · decide
  · refine ⟨fun hempty => ?_, ?_⟩
    · have := congrArg String.toList hempty
      simp at this
    · simpa using (elementName_isName i).2

theorem identifiers_part (hmarks : ∀ hop ∈ hops, isMark hop.field = false) {hop : Hop} (hhop : hops[i]? = some hop) :
    (if hop.isArray then [hop.field, mark hops pins i] else [hop.field]).filterMap identifier? =
      if (conditions hops pins i).isEmpty then [] else [elementName i] := by
  have hfield := identifier?_of_not_mark (hmarks hop (mem_of_getElem? hhop))
  by_cases hnone : (conditions hops pins i).isEmpty
  · have hall : Path.identifier? "$[]" = none := by decide
    rw [mark, if_pos hnone, if_pos hnone]
    split <;> simp [hfield, hall]
  · obtain ⟨hop', hhop', harray⟩ := h.isArray_of_conditions (by simpa using hnone)
    cases hhop.symm.trans hhop'
    rw [mark, if_neg hnone, if_neg hnone, if_pos harray]
    simp [hfield, identifier?_mark (elementName_isName i).1]

theorem identifiers_path (hmarks : ∀ hop ∈ hops, isMark hop.field = false) :
    identifiers (ofPins hops pins).path = (bound hops pins).map elementName := by
  have hparts : (hops.zipIdx.map fun x =>
        (if x.1.isArray then [x.1.field, mark hops pins x.2] else [x.1.field]).filterMap identifier?) =
      (hops.zipIdx.map Prod.snd).map fun i =>
        if (conditions hops pins i).isEmpty then [] else [elementName i] := by
    rw [map_map]
    exact map_congr_left fun x hx => h.identifiers_part hmarks (mem_zipIdx_iff_getElem?.mp hx)
  rw [identifiers, h.names_path, markedPath, filterMap_flatten, map_map]
  refine (congrArg List.flatten hparts).trans ?_
  rw [zipIdx_map_snd, ← range_eq_range', flatten_map_ite]
  rfl

theorem identifiers_arrayFilters (hmarks : ∀ hop ∈ hops, isMark hop.field = false) :
    (identifiers (ofPins hops pins).path).Nodup ∧
      List.Forall₂ (fun id filter => filter ≠ [] ∧ ∀ clause ∈ filter, ∃ names, Path.split clause.1 = id :: names)
        (identifiers (ofPins hops pins).path) (ofPins hops pins).arrayFilters := by
  rw [h.identifiers_path hmarks, arrayFilters_eq]
  refine ⟨(nodup_range.filter _).map fun _ _ => elementName_injective, ?_⟩
  rw [forall₂_map_left_iff, forall₂_map_right_iff, forall₂_same]
  intro i hi
  refine ⟨by simpa using (mem_filter.mp hi).2, fun clause hclause => ?_⟩
  obtain ⟨pin, -, -, rfl⟩ := h.mem_conditions.mp hclause
  exact ⟨_, h.split_clauseAt i pin⟩

end WellPinned

end ParentAddress

/-! ### Parents of new rows -/

namespace Catalog

variable {c : Catalog} {name : String} {l : Layout}

theorem locateParent_eq {top : String} {hops : List Hop} {key : List (String × Bson)} {locations : List Location}
    (hkey : List.Forall₂ (fun pair location => c.locate top hops pair.1 = .ok location) key locations) :
    c.locateParent top hops key = .ok (.ofPins hops ((key.zip locations).map fun pair => ⟨pair.2, pair.1.2⟩)) := by
  have hpins : key.mapM (fun pair => do
        let l ← (c.locate top hops pair.1).mapError WriteError.layout
        return (⟨l, pair.2⟩ : ParentAddress.Pin)) =
      .ok ((key.zip locations).map fun pair => ⟨pair.2, pair.1.2⟩) := by
    rw [mapM_ok_iff]
    induction hkey with
    | nil => exact .nil
    | cons hlocation _ ih => exact .cons (by rw [hlocation]; rfl) ih
  rw [locateParent]
  exact congrArg (· >>= fun pins => pure (ParentAddress.ofPins hops pins)) hpins

/-- The address selects, among the rows that the hops of a layout lead to in a document that follows it, those in
which the columns of the key have the given values, as long as none of the hops has a name that is empty or `_id`.
Of each array those elements are taken for which all conditions on them hold. Unless the name of a hop is itself
like a mark, the identifiers on the path are different, and the array filters are those on the identifiers, one for
each. -/
theorem parent_rows_selected (hl : c.layout name = .ok l) (hdots : c.DotFreeColumns)
    (hnames : ∀ hop ∈ l.hops, '.' ∉ hop.field.toList) (hclear : ∀ hop ∈ l.hops, hop.Clear)
    {key : List (String × Bson)} {locations : List Location}
    (hkey : List.Forall₂ (fun pair location => c.locate l.collection l.hops pair.1 = .ok location) key
      locations)
    (hdistinct : locations.Nodup) {d : Document} (hfits : (Row.ofTop l.collection d).fits l.hops)
    (equals : Option Bson → Bson → Prop) :
    ∃ address, c.locateParent l.collection l.hops key = .ok address ∧
      (∀ r ∈ (Row.ofTop l.collection d).walk l.hops,
        (Selects equals address.arrayFilters (Path.names address.path) (.document d) r.names ∧
            d.HoldsOutside equals l.hops address.filter) ↔
          ∀ pair ∈ key.zip locations,
            equals (r.valueAt? pair.2.depth pair.2.field) pair.1.2) ∧
      ((∀ hop ∈ l.hops, Path.isMark hop.field = false) →
        (Path.identifiers address.path).Nodup ∧
          List.Forall₂ (fun id filter => filter ≠ [] ∧
              ∀ clause ∈ filter, ∃ names, Path.split clause.1 = id :: names)
            (Path.identifiers address.path) address.arrayFilters) := by
  have hout := layout_eq_ok_iff.mp hl
  have hlocated (pair : (String × Bson) × Location) (hpair : pair ∈ key.zip locations) :=
    forall₂_zip hkey hpair
  have hpinned : ParentAddress.WellPinned l.hops
      ((key.zip locations).map fun pair => ⟨pair.2, pair.1.2⟩) := by
    refine ⟨hnames, fun hop => hout.readAs_of_mem_hops, hclear, ?_, ?_, ?_⟩
    · exact forall_mem_map.mpr fun pair hpair => depth_le_of_locate (hlocated pair hpair)
    · exact forall_mem_map.mpr fun pair hpair => isShallow_of_locate hdots (hlocated pair hpair)
    · have hsnd : (key.zip locations).map Prod.snd = locations :=
        map_snd_zip (Nat.le_of_eq hkey.length_eq.symm)
      rw [map_map]
      exact hsnd.symm ▸ hdistinct
  refine ⟨_, locateParent_eq hkey, fun r hr => ?_, hpinned.identifiers_arrayFilters⟩
  obtain ⟨steps, hsteps, htop, hleads⟩ := Row.exists_leads hfits hr
  have hsteps : r.steps = steps := hsteps
  have hselects := hpinned.selects_iff equals hleads
  rw [hpinned.names_path, Row.names, hsteps]
  refine hselects.trans (forall_mem_map.trans (forall₂_congr fun pair hpair => ?_))
  have hle : pair.2.depth ≤ r.steps.length := by
    rw [hsteps, hleads.length_eq]
    exact depth_le_of_locate (hlocated pair hpair)
  rw [Row.valueAt?, if_pos hle, Row.row_ancestor, htop, hsteps]
  rfl

/-- Sites hold their halls, each of which has one desk, and desks hold their seats. -/
def sites : Catalog :=
  .ofTables
    [{ name := "site", columns := [⟨"no", .integer, false⟩], primaryKey := ["no"] },
      { name := "hall", columns := [⟨"no", .integer, false⟩, ⟨"site_no", .integer, false⟩]
        primaryKey := ["no"], foreignKeys := [⟨"hall_site", ["site_no"], "site", ["no"]⟩]
        properties := { mergeInto := some "site" } },
      { name := "desk"
        columns := [⟨"hall_no", .integer, false⟩, ⟨"site_no", .integer, false⟩, ⟨"label", .integer, false⟩]
        primaryKey := ["hall_no", "site_no"]
        foreignKeys := [⟨"desk_hall", ["site_no", "hall_no"], "hall", ["site_no", "no"]⟩]
        properties := { mergeInto := some "hall" } },
      { name := "seat"
        columns := [⟨"n", .integer, false⟩, ⟨"hall_no", .integer, false⟩, ⟨"site_no", .integer, false⟩,
          ⟨"label", .integer, false⟩]
        primaryKey := ["n"]
        foreignKeys := [⟨"seat_desk", ["hall_no", "site_no", "label"], "desk", ["hall_no", "site_no", "label"]⟩]
        properties := { mergeInto := some "desk" } }]

def seatHops : List Hop :=
  [⟨.merge, ⟨"hall_site", "site", "hall", ["site_no"], ["no"], .many, none⟩⟩,
    ⟨.merge, ⟨"desk_hall", "hall", "desk", ["site_no", "hall_no"], ["site_no", "no"], .one, none⟩⟩,
    ⟨.merge, ⟨"seat_desk", "desk", "seat", ["hall_no", "site_no", "label"],
      ["hall_no", "site_no", "label"], .many, none⟩⟩]

def hallRow (no label : Int32) (seats : List Int32) : Bson :=
  .document [("_id", .int32 no), ("desk", .document [("label", .int32 label),
    ("seat", .array (seats.map fun n => .document [("_id", .int32 n)]))])]

def siteRow : Document := [("_id", .int32 1), ("hall", .array [hallRow 7 5 [4], hallRow 2 5 [3, 4]])]

def seatKey : List (String × Bson) :=
  [("n", .int32 4), ("label", .int32 5), ("site_no", .int32 1), ("hall_no", .int32 2)]

/-- Of the two seats with the number that the key gives, the one in its hall is selected. -/
theorem parent_rows_selected_sites :
    ∃ l, sites.layout "seat" = .ok l ∧ sites.DotFreeColumns ∧
      (∀ hop ∈ l.hops, '.' ∉ hop.field.toList) ∧ (∀ hop ∈ l.hops, hop.Clear) ∧
      (Row.ofTop l.collection siteRow).fits l.hops ∧
      ∃ address, sites.locateParent l.collection l.hops seatKey = .ok address ∧
        address.path = "hall.$[a0].desk.seat.$[a2]" ∧
        Path.identifiers address.path = ["a0", "a2"] ∧ address.arrayFilters.length = 2 ∧
        Selects (fun read value => read = some value) address.arrayFilters (Path.names address.path)
          (.document siteRow) ["hall", "1", "desk", "seat", "1"] ∧
        ¬Selects (fun read value => read = some value) address.arrayFilters (Path.names address.path)
          (.document siteRow) ["hall", "0", "desk", "seat", "0"] := by
  obtain ⟨l, hl, hhops, htop⟩ : ∃ l, sites.layout "seat" = .ok l ∧ l.hops = seatHops ∧
      l.collection = "site" := ⟨_, rfl, rfl, rfl⟩
  have hdots : sites.DotFreeColumns := by decide +kernel
  have hnames : ∀ hop ∈ l.hops, '.' ∉ hop.field.toList := by rw [hhops]; decide
  have hclear : ∀ hop ∈ l.hops, hop.Clear := by rw [hhops]; decide
  have hkey : List.Forall₂ (fun pair location => sites.locate l.collection l.hops pair.1 = .ok location)
      seatKey [⟨3, "_id"⟩, ⟨2, "label"⟩, ⟨0, "_id"⟩, ⟨1, "_id"⟩] := by
    rw [hhops, htop]
    exact .cons rfl (.cons rfl (.cons rfl (.cons rfl .nil)))
  have hfits : (Row.ofTop l.collection siteRow).fits l.hops := by rw [hhops]; rfl
  obtain ⟨address, haddress, hselects, hids⟩ := parent_rows_selected hl hdots hnames hclear hkey
    (by decide) hfits (fun read value => read = some value)
  rw [hhops, htop] at hselects
  obtain ⟨-, hfilters⟩ := hids (by rw [hhops]; decide)
  have hpath : address.path = "hall.$[a0].desk.seat.$[a2]" := by
    rw [hhops, htop] at haddress
    cases haddress
    rfl
  have hidentifiers : Path.identifiers address.path = ["a0", "a2"] := by
    rw [hpath]
    decide +kernel
  -- the seats in the document, the first and the last of which have the number 4
  obtain ⟨first, second, last, hwalk, hfirst, hlast, hhall, hvalues⟩ :
      ∃ first second last, (Row.ofTop "site" siteRow).walk seatHops = [first, second, last] ∧
        first.names = ["hall", "0", "desk", "seat", "0"] ∧
        last.names = ["hall", "1", "desk", "seat", "1"] ∧
        first.valueAt? 1 "_id" = some (.int32 7) ∧
        last.valueAt? 3 "_id" = some (.int32 4) ∧ last.valueAt? 2 "label" = some (.int32 5) ∧
        last.valueAt? 0 "_id" = some (.int32 1) ∧ last.valueAt? 1 "_id" = some (.int32 2) :=
    ⟨_, _, _, rfl, rfl, rfl, rfl, rfl, rfl, rfl, rfl⟩
  have hchosen := (hselects last (by simp [hwalk])).mpr (by simpa [seatKey] using hvalues)
  refine ⟨l, hl, hdots, hnames, hclear, hfits, address, haddress, hpath, hidentifiers, ?_, ?_, ?_⟩
  · rw [← hfilters.length_eq, hidentifiers]
    rfl
  · rw [← hlast]
    exact hchosen.1
  · rw [← hfirst]
    intro hother
    have hvalue := (hselects first (by simp [hwalk])).mp ⟨hother, hchosen.2⟩
      (("hall_no", .int32 2), ⟨1, "_id"⟩) (by simp [seatKey])
    rw [hhall] at hvalue
    simp at hvalue

end Catalog

end Pushdown
