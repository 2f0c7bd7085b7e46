import Pushdown.Proofs.Prestages
import Pushdown.Proofs.SharedPlaces

/-!
# The ways of a FROM clause

`told`: as long as the names that lead to the tables of a FROM clause have no dots (`DotFree`), the ways to them are
told apart by the fields on them. So `ways_planned_once`: there is one stage for each way that has to be read.
-/

namespace Pushdown.Catalog

open List HopPlan Source Way

variable {c : Catalog} {source : FromClause} {placement : Placement}

/-- The names that lead to the tables of the clause have no dots. -/
def DotFree (c : Catalog) (source : FromClause) : Prop :=
  ∀ name ∈ c.fieldNames source, '.' ∉ name.toList

instance (c : Catalog) (source : FromClause) : Decidable (c.DotFree source) :=
  inferInstanceAs (Decidable (∀ name ∈ _, _))

/-- The names that lead to the tables of the clause are not like those of computed fields. -/
def Unmarked (c : Catalog) (source : FromClause) : Prop :=
  ∀ name ∈ c.fieldNames source, Path.hasPrefix "__" name = false

instance (c : Catalog) (source : FromClause) : Decidable (c.Unmarked source) :=
  inferInstanceAs (Decidable (∀ name ∈ _, _))

namespace Placed

variable {placed : List Source} {v w : Way}

section

variable (h : c.Placed source placement placed)

include h

theorem exists_chain (hw : w ∈ placed.flatMap Source.ways) : ∃ l, c.Chain placement.top l w.hops := by
  obtain ⟨s, hs, hw⟩ := mem_flatMap.mp hw
  obtain ⟨l, -, hchain⟩ := h.chain s hs
  obtain ⟨rest, hrest⟩ := mem_along_iff.mp hw
  rw [← hrest] at hchain
  exact hchain.of_append

theorem field_mem (hw : w ∈ placed.flatMap Source.ways) :
    ∀ name ∈ w.hops.map Hop.field, name ∈ c.fieldNames source := by
  intro name hname
  obtain ⟨hop, hhop, rfl⟩ := mem_map.mp hname
  obtain ⟨s, hs, hw⟩ := mem_flatMap.mp hw
  exact h.names s hs hop ((mem_along_iff.mp hw).subset hhop)

theorem split_key (hdots : c.DotFree source) (hw : w ∈ placed.flatMap Source.ways) :
    Path.split w.key = w.hops.map Hop.field :=
  Path.split_join_of_not_mem (by simp [Way.hops]) fun name hname => hdots name (h.field_mem hw name hname)

theorem split_name (hdots : c.DotFree source) (hw : w ∈ placed.flatMap Source.ways) : Path.split w.name = [w.name] := by
  have hfield : '.' ∉ w.hop.field.toList := hdots _ (h.field_mem hw _ (by simp [Way.hops]))
  exact Path.split_of_not_mem (by simpa [Way.name, String.toList_append] using hfield)

theorem name_not_mem (hunmarked : c.Unmarked source) (hw : w ∈ placed.flatMap Source.ways) :
    v.name ∉ w.hops.map Hop.field := by
  intro hmem
  have hmarked := hunmarked v.name (h.field_mem hw _ hmem)
  simp [Path.hasPrefix, Way.name, String.toList_append] at hmarked

theorem name_ne_key (hdots : c.DotFree source) (hunmarked : c.Unmarked source) (hv : v ∈ placed.flatMap Source.ways)
    (hw : w ∈ placed.flatMap Source.ways) : v.name ≠ w.key := by
  intro hkey
  apply h.name_not_mem (v := v) hunmarked hw
  rw [← h.split_key hdots hw, ← hkey, h.split_name hdots hv]
  exact mem_singleton_self _

theorem eq_of_name (hc : c.Indexed) (hv : v ∈ placed.flatMap Source.ways) (hw : w ∈ placed.flatMap Source.ways)
    (harray : v.hop.isArray) (harray' : w.hop.isArray) (hname : v.name = w.name) : v = w := by
  have hfield : v.hop.field = w.hop.field := by simpa [Way.name] using hname
  obtain ⟨l, hchain⟩ := h.exists_chain hv
  obtain ⟨l', hchain'⟩ := h.exists_chain hw
  obtain ⟨_, hl, -, hhops⟩ := hchain.own_of_isArray harray
  obtain ⟨_, hl', -, hhops'⟩ := hchain'.own_of_isArray harray'
  have htable : l.table = l'.table := by
    rw [hchain.table_eq, hchain'.table_eq]
    simp [Way.hops, hfield]
  rw [eq_of_layout_table hc hl hl' htable] at hhops
  exact Way.hops_injective (hhops.symm.trans hhops')

variable (hc : c.Indexed) (hdots : c.DotFree source)

include hc hdots

theorem eq_of_key (hv : v ∈ placed.flatMap Source.ways)
    (hw : w ∈ placed.flatMap Source.ways) (hkey : v.key = w.key) : v = w := by
  have hfields : v.hops.map Hop.field = w.hops.map Hop.field := by
    rw [← h.split_key hdots hv, ← h.split_key hdots hw, hkey]
  obtain ⟨_, hchain⟩ := h.exists_chain hv
  obtain ⟨_, hchain'⟩ := h.exists_chain hw
  exact Way.hops_injective (hchain.eq_of_fields hc hchain' hfields)

theorem told : Told (HopPlan.required placed) (placed.flatMap Source.ways) := by
  refine ⟨fun v hv w hw => h.eq_of_key hc hdots hv hw, fun w hw hrequired v hv => ?_, fun w hw => ?_⟩
  · obtain ⟨s, hs, hpresent, u, hu, hkey⟩ := mem_required_iff.mp hrequired
    have heq : u = w := h.eq_of_key hc hdots (mem_flatMap.mpr ⟨s, hs, hu⟩) hw hkey
    subst heq
    exact mem_required_iff.mpr ⟨s, hs, hpresent, v, along_subset (mem_along_above hv) hu, rfl⟩
  · obtain ⟨_, hchain⟩ := h.exists_chain hw
    exact hchain.readAs_eq_none w.hop (by simp [Way.hops])

theorem sources_eq : placement.sources = placed.map (Source.read (HopPlan.required placed)) :=
  (plan_eq (h.told hc hdots) h.plan).1

theorem shallow (hw : w ∈ placed.flatMap Source.ways)
    (houter : w.isOuter (HopPlan.required placed)) : w.Shallow (HopPlan.required placed) :=
  (plan_eq (h.told hc hdots) h.plan).2.2 w hw houter

theorem not_required (hw : w ∈ placed.flatMap Source.ways)
    (hoptional : ∀ s ∈ placed, w ∈ s.ways → s.optional) : w.key ∉ HopPlan.required placed := by
  intro hrequired
  obtain ⟨s, hs, hpresent, u, hu, hkey⟩ := mem_required_iff.mp hrequired
  have heq : u = w := h.eq_of_key hc hdots (mem_flatMap.mpr ⟨s, hs, hu⟩) hw hkey
  subst heq
  rw [hoptional s hs hu] at hpresent
  cases hpresent

variable (hunmarked : c.Unmarked source)

include hunmarked

theorem placesApart : Way.PlacesApart (HopPlan.required placed) (placed.flatMap Source.ways) := by
  intro v hv w hw _ _ hplace
  unfold Way.place at hplace
  split at hplace
  · rename_i houter
    split at hplace
    · rename_i houter'
      exact h.eq_of_name hc hv hw (isOuter_iff.mp houter).1 (isOuter_iff.mp houter').1 hplace
    · exact absurd hplace (h.name_ne_key hdots hunmarked hv hw)
  · split at hplace
    · exact absurd hplace.symm (h.name_ne_key hdots hunmarked hw hv)
    · exact h.eq_of_key hc hdots hv hw hplace

theorem prestages_eq :
    placement.prestages = stagesFor (HopPlan.required placed)
      (planned (HopPlan.required placed) (placed.flatMap Source.ways)) := by
  rw [(plan_eq (h.told hc hdots) h.plan).2.1]
  exact prestages_visits (h.told hc hdots) (h.placesApart hc hdots hunmarked) (List.Subset.refl _)

theorem filter_of_present {s : Source} (hs : s ∈ placed) (hpresent : s.optional = false) (hw : w ∈ s.ways) :
    placement.prestages.filter (·.path? == some (Hop.path w.hops)) =
      [if w.hop.isArray then .flatten (Hop.path w.hops) else .present (Hop.path w.hops)] := by
  have hrequired : w.key ∈ HopPlan.required placed := mem_required_iff.mpr ⟨s, hs, hpresent, w, hw, rfl⟩
  have hmem : w ∈ placed.flatMap Source.ways := mem_flatMap.mpr ⟨s, hs, hw⟩
  obtain ⟨_, hchain⟩ := h.exists_chain hmem
  have hplace : w.place (HopPlan.required placed) = Hop.path w.hops := by
    rw [Hop.path, Hop.pathNames_of_plain hchain.readAs_eq_none]
    simp [Way.place, Way.isOuter, hrequired]
    rfl
  rw [h.prestages_eq hc hdots hunmarked, ← hplace,
    filter_stages_eq (h.placesApart hc hdots hunmarked) (List.Subset.refl _) hmem
      (isPlanned_iff.mpr (.inr hrequired))]
  rfl

theorem name_of_field (hw : w ∈ placed.flatMap Source.ways) {f : String × Bson} (hf : f ∈ placement.prestages.fields)
    (hvalue : f.2 = orEmptyElement w.key) : f.1 = w.name := by
  rw [h.prestages_eq hc hdots hunmarked, fields_stagesFor] at hf
  obtain ⟨v, hv, rfl⟩ := mem_map.mp hf
  have hv := (mem_planned.mp (mem_of_mem_filter hv)).1
  have hkey : v.key = w.key := by simpa [fragment] using orEmptyElement_injective hvalue
  rw [h.eq_of_key hc hdots hv hw hkey]
  rfl

variable (hw : w ∈ placed.flatMap Source.ways) (houter : w.isOuter (HopPlan.required placed))

include hw houter

theorem filter_of_outer :
    placement.prestages.fields.filter (·.1 == w.name) = [w.fragment] ∧
      placement.prestages.filter (·.path? == some w.name) = [.flatten w.name] := by
  have hplaces := h.placesApart hc hdots hunmarked
  have hplace : w.place (HopPlan.required placed) = w.name := by rw [Way.place, if_pos houter]
  rw [h.prestages_eq hc hdots hunmarked]
  refine ⟨filter_fields_eq hplaces (List.Subset.refl _) hw houter, ?_⟩
  rw [← hplace, filter_stages_eq hplaces (List.Subset.refl _) hw (isPlanned_of_isOuter houter),
    stage, if_pos (isOuter_iff.mp houter).1]

theorem flatten_key_not_mem : .flatten w.key ∉ placement.prestages := by
  intro hmem
  have hfilter : .flatten w.key ∈ placement.prestages.filter (·.path? == some w.key) :=
    mem_filter.mpr ⟨hmem, by simp [Prestage.path?]⟩
  rw [h.prestages_eq hc hdots hunmarked, filter_path?_stagesFor] at hfilter
  obtain ⟨v, hv, -⟩ := mem_map.mp hfilter
  obtain ⟨hv, hplace⟩ := mem_filter.mp hv
  have hv := (mem_planned.mp hv).1
  have hplace : v.place (HopPlan.required placed) = w.key := by simpa using hplace
  rw [Way.place] at hplace
  split at hplace
  · exact h.name_ne_key hdots hunmarked hv hw hplace
  · rename_i hinner
    exact hinner (h.eq_of_key hc hdots hv hw hplace ▸ houter)

end

end Placed

/-- For each FROM clause that is `DotFree` and `Unmarked`: the rows of a table that may not be absent, and all that
they lie in, are flattened or asked for exactly once; an array that only rows which may be absent need is computed
and flattened exactly once under a field of its own; and tables that lie on one way are read along it in the same
way. -/
theorem ways_planned_once (hc : c.Indexed) (h : c.place source = .ok placement)
    (hdots : c.DotFree source) (hunmarked : c.Unmarked source) :
    (∀ s ∈ placement.sources, s.optional = false → ∀ above hop, above ++ [hop] <+: s.hops →
      placement.prestages.filter (·.path? == some (Hop.path (above ++ [hop]))) =
        [if hop.isArray then .flatten (Hop.path (above ++ [hop]))
          else .present (Hop.path (above ++ [hop]))]) ∧
    (∀ s ∈ placement.sources, ∀ above hop, above ++ [hop] <+: s.hops → hop.isArray →
      (∀ s' ∈ placement.sources, (above ++ [hop]).map Hop.plain <+: s'.hops.map Hop.plain →
        s'.optional) →
      hop.link.readAs = some ("__" ++ hop.field) ∧
      placement.prestages.fields.filter (·.1 == "__" ++ hop.field) =
        [("__" ++ hop.field, HopPlan.orEmptyElement (Hop.fieldPath (above ++ [hop])))] ∧
      (∀ f ∈ placement.prestages.fields,
        f.2 = HopPlan.orEmptyElement (Hop.fieldPath (above ++ [hop])) → f.1 = "__" ++ hop.field) ∧
      placement.prestages.filter (·.path? == some ("__" ++ hop.field)) = [.flatten ("__" ++ hop.field)] ∧
      .flatten (Hop.fieldPath (above ++ [hop])) ∉ placement.prestages) ∧
    (∀ s ∈ placement.sources, ∀ s' ∈ placement.sources, ∀ k,
      (s.hops.take k).map Hop.plain = (s'.hops.take k).map Hop.plain →
        s.hops.take k = s'.hops.take k) := by
  obtain ⟨placed, hplaced⟩ := exists_placed hc h
  rw [hplaced.sources_eq hc hdots]
  refine ⟨?_, ?_, ?_⟩
  · intro _ hmem hpresent above hop hstart
    obtain ⟨s, hs, rfl⟩ := mem_map.mp hmem
    rw [Source.read_of_present hs hpresent] at hstart
    have hw : (⟨above, hop⟩ : Way) ∈ s.ways := Way.mem_along_iff.mpr hstart
    exact hplaced.filter_of_present hc hdots hunmarked hs hpresent hw
  · intro _ hmem above hop hstart harray hoptional
    obtain ⟨s, hs, rfl⟩ := mem_map.mp hmem
    obtain ⟨w, hw, rfl, rfl⟩ := Way.exists_of_prefix_readAlong hstart
    have hmem : w ∈ placed.flatMap Source.ways := mem_flatMap.mpr ⟨s, hs, hw⟩
    have hfree : w.key ∉ HopPlan.required placed := by
      refine hplaced.not_required hc hdots hmem fun s' hs' hw' => ?_
      refine hoptional (s'.read (HopPlan.required placed)) (mem_map_of_mem hs') ?_
      rw [← Way.readAlong_hops]
      exact (Way.readAlong_mono (Way.mem_along_iff.mp hw')).map _
    have houter : w.isOuter (HopPlan.required placed) :=
      Way.isOuter_iff.mpr ⟨Way.isArray_read w ▸ harray, hfree⟩
    have hkey : Hop.fieldPath (Way.readAlong (HopPlan.required placed) w.above ++
        [w.read (HopPlan.required placed)]) = w.key := by
      rw [← Way.readAlong_hops, Way.fieldPath_readAlong_hops]
    have hname : "__" ++ (w.read (HopPlan.required placed)).field = w.name := by
      rw [Way.field_read, Way.name]
    obtain ⟨hfields, hflatten⟩ := hplaced.filter_of_outer hc hdots hunmarked hmem houter
    rw [hkey, hname]
    refine ⟨?_, hfields, fun f hf => hplaced.name_of_field hc hdots hunmarked hmem hf, hflatten,
      hplaced.flatten_key_not_mem hc hdots hunmarked hmem houter⟩
    rw [Way.read, if_pos houter]
    rfl
  · intro _ hmem _ hmem' k hplain
    obtain ⟨s, hs, rfl⟩ := mem_map.mp hmem
    obtain ⟨s', hs', rfl⟩ := mem_map.mp hmem'
    have hfields := Hop.map_field_of_plain hplain
    simp only [Source.read, Way.take_readAlong, Way.map_field_readAlong] at hfields ⊢
    obtain ⟨_, -, hchain⟩ := hplaced.chain s hs
    obtain ⟨_, -, hchain'⟩ := hplaced.chain s' hs'
    rw [← take_append_drop k s.hops] at hchain
    rw [← take_append_drop k s'.hops] at hchain'
    obtain ⟨_, hstart⟩ := hchain.of_append
    obtain ⟨_, hstart'⟩ := hchain'.of_append
    rw [hstart.eq_of_fields hc hstart' hfields]

def heldTable (name key parent parentKey : String) : Table :=
  { name := name, columns := [⟨key, .integer, false⟩, ⟨parent, .integer, false⟩], primaryKey := [key]
    foreignKeys := [⟨name ++ "_" ++ parent, [parent], parent, [parentKey]⟩]
    properties := { mergeInto := some parent } }

def heldHop (name parent parentKey : String) : Hop :=
  ⟨.merge, { name := name ++ "_" ++ parent, parent := parent, child := name, columns := [parent]
             referencedColumns := [parentKey], association := .many }⟩

def workshop : Catalog :=
  .ofTables
    [{ name := "orders", columns := [⟨"id", .integer, false⟩], primaryKey := ["id"] },
     heldTable "notes" "note" "orders" "id", heldTable "items" "no" "orders" "id",
     heldTable "parts" "part" "items" "no"]

/-- All items, whether or not their orders have notes and they have parts. -/
def workshopItems : FromClause where
  base := ⟨"orders", none⟩
  joins := [⟨.leftOuter, ⟨"notes", none⟩, none⟩, ⟨.inner, ⟨"items", none⟩, none⟩, ⟨.leftOuter, ⟨"parts", none⟩, none⟩]

def workshopPlacement : Placement where
  top := "orders"
  sources := [⟨"orders", "orders", [], false⟩,
    ⟨"notes", "notes", [(heldHop "notes" "orders" "id").aliased "__notes"], true⟩,
    ⟨"items", "items", [heldHop "items" "orders" "id"], false⟩,
    ⟨"parts", "parts", [heldHop "items" "orders" "id", (heldHop "parts" "items" "no").aliased "__parts"], true⟩]
  joins := [⟨"notes", true, none, true⟩, ⟨"items", false, none, true⟩, ⟨"parts", true, none, true⟩]
  prestages := [
    .compute [("__notes", HopPlan.orEmptyElement "notes"), ("__parts", HopPlan.orEmptyElement "items.parts")],
    .flatten "__notes", .flatten "items", .flatten "__parts"]

theorem workshop_planned_once :
    workshop.Indexed ∧ workshop.place workshopItems = .ok workshopPlacement ∧
      workshop.DotFree workshopItems ∧ workshop.Unmarked workshopItems ∧
      workshopPlacement.prestages.filter (·.path? == some "items") = [.flatten "items"] ∧
      workshopPlacement.prestages.fields.filter (·.1 == "__parts") =
        [("__parts", HopPlan.orEmptyElement "items.parts")] ∧
      workshopPlacement.prestages.filter (·.path? == some "__parts") = [.flatten "__parts"] ∧
      .flatten "items.parts" ∉ workshopPlacement.prestages := by
  have hc : workshop.Indexed := indexed_ofTables _
  have hplace : workshop.place workshopItems = .ok workshopPlacement := rfl
  have hdots : workshop.DotFree workshopItems := by decide +kernel
  have hunmarked : workshop.Unmarked workshopItems := by decide +kernel
  obtain ⟨hpresent, houter, -⟩ := ways_planned_once hc hplace hdots hunmarked
  have hitems : ⟨"items", "items", [heldHop "items" "orders" "id"], false⟩ ∈ workshopPlacement.sources := by
    simp [workshopPlacement]
  have hparts : ⟨"parts", "parts",
      [heldHop "items" "orders" "id", (heldHop "parts" "items" "no").aliased "__parts"], true⟩ ∈
        workshopPlacement.sources := by
    simp [workshopPlacement]
  obtain ⟨-, hfields, -, hflatten, hown⟩ := houter _ hparts [heldHop "items" "orders" "id"] _
    prefix_rfl rfl (by decide +kernel)
  exact ⟨hc, hplace, hdots, hunmarked, hpresent _ hitems rfl [] _ prefix_rfl, hfields, hflatten, hown⟩

end Pushdown.Catalog
