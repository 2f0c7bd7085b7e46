import Mathlib.Data.List.TakeWhile
import Pushdown.Proofs.PlacedWays

/-!
# The order of the stages

`Prestage.InOrder`: a stage that reads below an array has to come after the array is flattened. The stages for
nested rows do, because the ways to them are visited from the top (`TopDown`). The computed fields share the stage
of the first of them, which `stages_in_order_iff` says is in order just when `ArraysLead`.
-/

namespace Pushdown

open List HopPlan Source Way

/-! ### What stages read -/

/-- The text stands in the value. -/
inductive Bson.Mentions (text : String) : Bson → Prop
  | string : Mentions text (.string text)
  | array {items : List Bson} {item : Bson} :
      item ∈ items → Mentions text item → Mentions text (.array items)
  | document {fields : Document} {field : String × Bson} :
      field ∈ fields → Mentions text field.2 → Mentions text (.document fields)

namespace Bson

variable {text : String}

theorem mentions_string {s : String} : Mentions text (.string s) ↔ s = text := by
  refine ⟨fun h => ?_, fun h => h ▸ .string⟩
  cases h
  rfl

theorem mentions_array {items : List Bson} : Mentions text (.array items) ↔ ∃ item ∈ items, Mentions text item := by
  refine ⟨fun h => ?_, fun ⟨item, hitem, h⟩ => .array hitem h⟩
  cases h with
  | array hitem h => exact ⟨_, hitem, h⟩

theorem mentions_document {fields : Document} :
    Mentions text (.document fields) ↔ ∃ field ∈ fields, Mentions text field.2 := by
  refine ⟨fun h => ?_, fun ⟨field, hfield, h⟩ => .document hfield h⟩
  cases h with
  | document hfield h => exact ⟨_, hfield, h⟩

theorem not_mentions_int32 {n : Int32} : ¬Mentions text (.int32 n) := by
  intro h
  cases h

theorem mentions_orEmptyElement {path other : String} :
    Mentions ("$" ++ other) (HopPlan.orEmptyElement path) ↔ path = other := by
  simp [orEmptyElement, opList, op, mentions_document, mentions_array, mentions_string, not_mentions_int32]

end Bson

/-- The stage reads what lies at the path. -/
def Prestage.Reads (path : String) : Prestage → Prop
  | .present p => p = path
  | .flatten p => p = path
  | .compute fields => ∃ f ∈ fields, f.2.Mentions ("$" ++ path)

/-- Whatever the stage reads, the arrays that hold it are flattened before. -/
def Prestage.InOrder (arrays : String → Prop) (before : Prestages) (stage : Prestage) : Prop :=
  ∀ path, stage.Reads path → ∀ array, arrays array → Path.hasPrefix (array ++ ".") path → .flatten array ∈ before

/-- The path, or the fields on it, lead to an array that rows of the FROM clause lie in. -/
def Placement.HoldsArray (p : Placement) (path : String) : Prop :=
  ∃ s ∈ p.sources, ∃ above hop, above ++ [hop] <+: s.hops ∧ hop.isArray ∧
    (path = Hop.path (above ++ [hop]) ∨ path = Hop.fieldPath (above ++ [hop]))

def Source.isAliased (s : Source) : Bool := s.hops.any (·.link.readAs.isSome)

def upToFirst {α : Type} (p : α → Bool) : List α → List α
  | [] => []
  | a :: l => if p a then [a] else a :: upToFirst p l

/-- The sources up to the first that is read under a computed field, and that one. -/
def Placement.leading (p : Placement) : List Source := upToFirst Source.isAliased p.sources

/-- The arrays above one that is read under a computed field lie on the ways to leading sources. -/
def Placement.ArraysLead (p : Placement) : Prop :=
  ∀ s ∈ p.sources, ∀ above hop, above ++ [hop] <+: s.hops → hop.link.readAs.isSome →
    ∀ start array, start ++ [array] <+: above → array.isArray → ∃ s' ∈ p.leading, start ++ [array] <+: s'.hops

variable {α : Type} {after before : Prestages}

theorem upToFirst_map {β : Type} (p : β → Bool) (f : α → β) (l : List α) :
    upToFirst p (l.map f) = (upToFirst (p ∘ f) l).map f := by
  induction l with
  | nil => rfl
  | cons a l ih =>
    rw [map_cons, upToFirst, upToFirst, ih]
    by_cases h : p (f a) <;> simp [h]

theorem upToFirst_congr {p q : α → Bool} {l : List α} (h : ∀ a ∈ l, p a = q a) : upToFirst p l = upToFirst q l := by
  induction l with
  | nil => rfl
  | cons a l ih =>
    obtain ⟨ha, hl⟩ := forall_mem_cons.mp h
    rw [upToFirst, upToFirst, ha, ih hl]

theorem upToFirst_subset (p : α → Bool) (l : List α) : upToFirst p l ⊆ l := by
  induction l with
  | nil => exact List.Subset.refl _
  | cons a l ih =>
    rw [upToFirst]
    split
    · simp
    · exact cons_subset_cons a ih

/-! ### Paths above others -/

namespace Path

theorem split_of_hasPrefix {above path : String} (h : hasPrefix (above ++ ".") path) :
    ∃ rest, rest ≠ [] ∧ split path = split above ++ rest := by
  obtain ⟨rest, hrest⟩ := isPrefixOf_iff_prefix.mp h
  have hpath : path = above ++ "." ++ String.ofList rest := by
    rw [← String.toList_inj, String.toList_append, String.toList_ofList, hrest]
  exact ⟨split (String.ofList rest), split_ne_nil _, by rw [hpath, split_append_dot]⟩

end Path

/-! ### Ways from the top -/

namespace Way

variable {required : List String} {ways visits : List Way} {w : Way}

theorem along_eq_append {hops : List Hop} {before after : List Way}
    (h : along [] hops = before ++ w :: after) : before = along [] w.above := by
  induction hops using List.reverseRecOn generalizing after with
  | nil => simp [along] at h
  | append_singleton hops hop ih =>
    rw [along_concat] at h
    rcases eq_nil_or_concat' after with rfl | ⟨after, last, rfl⟩
    · obtain ⟨hbefore, hlast⟩ := append_inj' h rfl
      rw [← hbefore, ← head_eq_of_cons_eq hlast]
    · rw [← cons_append, ← append_assoc] at h
      exact ih (append_inj' h rfl).1

def TopDown (p : Way → Bool) (ways : List Way) : Prop :=
  ∀ before w after, ways = before ++ w :: after → ∀ v ∈ along [] w.above, p v → v ∈ before

namespace TopDown

variable {p : Way → Bool}

theorem concat (h : TopDown p ways) (hw : ∀ v ∈ along [] w.above, p v → v ∈ ways) : TopDown p (ways ++ [w]) := by
  intro before v after heq
  rcases eq_nil_or_concat' after with rfl | ⟨after, last, rfl⟩
  · obtain ⟨rfl, hlast⟩ := append_inj' heq rfl
    rwa [← head_eq_of_cons_eq hlast]
  · rw [← cons_append, ← append_assoc] at heq
    exact h before v after (append_inj' heq rfl).1

theorem init (h : TopDown p (ways ++ [w])) : TopDown p ways ∧ ∀ v ∈ along [] w.above, p v → v ∈ ways := by
  refine ⟨fun before v after heq => h before v (after ++ [w]) ?_, h ways w [] rfl⟩
  rw [heq, append_assoc, cons_append]

theorem along (h : TopDown p visits) (hops : List Hop) : TopDown p (visits ++ along [] hops) := by
  induction hops using List.reverseRecOn with
  | nil => simpa [Way.along] using h
  | append_singleton hops hop ih =>
    rw [along_concat, ← append_assoc]
    exact ih.concat fun v hv _ => mem_append_right _ hv

end TopDown

theorem topDown_ways (p : Way → Bool) (sources : List Source) : TopDown p (sources.flatMap Source.ways) := by
  induction sources using List.reverseRecOn with
  | nil => exact fun before w after h => by simp at h
  | append_singleton sources s ih =>
    rw [flatMap_append, flatMap_singleton]
    exact ih.along s.hops

theorem topDown_planned (h : TopDown (isPlanned required) visits) :
    TopDown (isPlanned required) (planned required visits) := by
  induction visits using List.reverseRecOn with
  | nil => exact h
  | append_singleton visits w ih =>
    obtain ⟨hvisits, hlast⟩ := h.init
    by_cases hnew : w.isPlanned required ∧ w ∉ visits
    · rw [planned_concat_new hnew.1 hnew.2]
      exact (ih hvisits).concat fun v hv hplanned => mem_planned.mpr ⟨hlast v hv hplanned, hplanned⟩
    · rw [planned_concat_old fun hplanned => not_not.mp fun hold => hnew ⟨hplanned, hold⟩]
      exact ih hvisits

/-! ### Where stages stand -/

theorem exists_of_stagesFor {stage : Prestage} (h : stagesFor required ways = before ++ stage :: after)
    (hstage : stage.isCompute = false) :
    ∃ early w late, ways = early ++ w :: late ∧ stage = w.stage required ∧
      (∀ v ∈ early, v.stage required ∈ before) ∧
      (w.isOuter required → .compute ((ways.filter (isOuter required)).map fragment) ∈ before) := by
  induction ways generalizing before with
  | nil => simp [stagesFor] at h
  | cons v ways ih =>
    rw [stagesFor] at h
    split at h
    · rename_i houter
      rcases before with _ | ⟨first, before⟩
      · obtain ⟨rfl, -⟩ := List.cons.inj h
        cases hstage
      · obtain ⟨rfl, hmap⟩ := List.cons.inj h
        obtain ⟨early, rest, hways, hearly, hrest⟩ := map_eq_append_iff.mp hmap
        obtain ⟨w, late, rfl, rfl, -⟩ := map_eq_cons_iff.mp hrest
        refine ⟨early, w, late, hways, rfl, fun u hu => ?_, fun _ => mem_cons_self ..⟩
        rw [← hearly]
        exact mem_cons_of_mem _ (mem_map_of_mem hu)
    · rename_i hinner
      rcases before with _ | ⟨first, before⟩
      · obtain ⟨rfl, -⟩ := List.cons.inj h
        exact ⟨[], v, ways, rfl, rfl, by simp, fun houter => absurd houter hinner⟩
      · obtain ⟨rfl, htail⟩ := List.cons.inj h
        obtain ⟨early, w, late, rfl, rfl, hearly, houter⟩ := ih htail
        refine ⟨v :: early, w, late, rfl, rfl, forall_mem_cons.mpr ⟨mem_cons_self .., fun u hu => ?_⟩, fun hw => ?_⟩
        · exact mem_cons_of_mem _ (hearly u hu)
        · rw [filter_cons_of_neg hinner]
          exact mem_cons_of_mem _ (houter hw)

theorem filter_split {early late : List Way} (hearly : ∀ v ∈ early, v.isOuter required = false) :
    (early ++ w :: late).filter (isOuter required) = (w :: late).filter (isOuter required) := by
  rw [filter_append, filter_eq_nil_iff.mpr (by simpa using hearly), nil_append]

theorem takeWhile_split {early late : List Way} (hearly : ∀ v ∈ early, v.isOuter required = false)
    (hw : w.isOuter required) : (early ++ w :: late).takeWhile (!isOuter required ·) = early := by
  rw [takeWhile_append_of_pos fun v hv => by simp [hearly v hv], takeWhile_cons_of_neg (by simp [hw]), append_nil]

theorem compute_mem_stagesFor (hw : w ∈ ways) (houter : w.isOuter required) :
    .compute ((ways.filter (isOuter required)).map fragment) ∈ stagesFor required ways := by
  rcases exists_split required ways with hinner | ⟨early, v, late, rfl, hv, hearly⟩
  · simp [hinner w hw] at houter
  · rw [stagesFor_outer hearly hv, filter_split hearly]
    exact mem_append_right _ (mem_cons_self ..)

theorem compute_of_stagesFor {fields : List (String × Bson)}
    (h : stagesFor required ways = before ++ .compute fields :: after) :
    before = (ways.takeWhile (!isOuter required ·)).map (stage required) ∧
      fields = (ways.filter (isOuter required)).map fragment := by
  have hstages (ways : List Way) : .compute fields ∉ ways.map (stage required) := by
    intro hmem
    obtain ⟨w, -, hw⟩ := mem_map.mp hmem
    have hcompute : (w.stage required).isCompute = false := isCompute_stage
    rw [hw] at hcompute
    cases hcompute
  rcases exists_split required ways with hinner | ⟨early, v, late, rfl, hv, hearly⟩
  · rw [stagesFor_inner hinner] at h
    exact absurd (h ▸ by simp) (hstages ways)
  · rw [stagesFor_outer hearly hv, append_cons_inj_of_notMem (hstages early) (hstages _)] at h
    obtain ⟨rfl, hfields, -⟩ := h
    cases hfields
    rw [takeWhile_split hearly hv, filter_split hearly]
    exact ⟨rfl, rfl⟩

/-! ### The ways before the computed fields -/

theorem planned_append_cons {early : List Way} (hw : w.isPlanned required) (hnew : w ∉ early) (rest : List Way) :
    ∃ late, planned required (early ++ w :: rest) = planned required early ++ w :: late := by
  induction rest using List.reverseRecOn with
  | nil => exact ⟨[], planned_concat_new hw hnew⟩
  | append_singleton rest v ih =>
    obtain ⟨late, hlate⟩ := ih
    rw [← cons_append, ← append_assoc]
    by_cases hv : v.isPlanned required ∧ v ∉ early ++ w :: rest
    · refine ⟨late ++ [v], ?_⟩
      rw [planned_concat_new hv.1 hv.2, hlate, append_assoc, cons_append]
    · refine ⟨late, ?_⟩
      rw [planned_concat_old fun hplanned => not_not.mp fun hold => hv ⟨hplanned, hold⟩, hlate]

theorem mem_takeWhile_planned :
    w ∈ (planned required visits).takeWhile (!isOuter required ·) ↔
      w.isPlanned required ∧ w ∈ visits.takeWhile (!isOuter required ·) := by
  rcases exists_split required visits with hinner | ⟨early, v, rest, rfl, hv, hearly⟩
  · have hplanned (v : Way) (hv : v ∈ planned required visits) : (!isOuter required v) = true := by
      simp [hinner v (mem_planned.mp hv).1]
    have hvisits (v : Way) (hv : v ∈ visits) : (!isOuter required v) = true := by simp [hinner v hv]
    rw [takeWhile_eq_self_iff.mpr hplanned, takeWhile_eq_self_iff.mpr hvisits, mem_planned, and_comm]
  · have hnew : v ∉ early := fun hmem => by simp [hearly v hmem] at hv
    obtain ⟨late, hlate⟩ := planned_append_cons (isPlanned_of_isOuter hv) hnew rest
    rw [hlate, takeWhile_split (fun u hu => hearly u (mem_planned.mp hu).1) hv, takeWhile_split hearly hv,
      mem_planned, and_comm]

/-- Up to the first array that only rows which may be absent need, the arrays of the leading sources are
visited. -/
theorem mem_takeWhile_ways {all : List Way} (hall : Told required all) {sources : List Source}
    (hways : sources.flatMap Source.ways ⊆ all) (harray : w.hop.isArray) (hinner : w.isOuter required = false) :
    w ∈ (sources.flatMap Source.ways).takeWhile (!isOuter required ·) ↔
      ∃ s ∈ upToFirst (fun s => s.ways.any (isOuter required)) sources, w ∈ s.ways := by
  induction sources with
  | nil => simp [upToFirst]
  | cons s sources ih =>
    rw [flatMap_cons] at hways ⊢
    obtain ⟨hs, hsources⟩ := append_subset.mp hways
    rw [upToFirst]
    rcases exists_split required s.ways with hfirst | ⟨early, v, late, hsplit, hv, hearly⟩
    · have hnone : s.ways.any (isOuter required) = false := by simpa using hfirst
      rw [takeWhile_append_of_pos fun v hv => by simp [hfirst v hv], hnone, mem_append, ih hsources]
      simp
    · have hsome : s.ways.any (isOuter required) = true := any_eq_true.mpr ⟨v, by simp [hsplit], hv⟩
      rw [hsome, hsplit, append_assoc, cons_append, takeWhile_split hearly hv]
      simp only [if_pos, mem_singleton, exists_eq_left, hsplit]
      refine ⟨fun hw => mem_append_left _ hw, fun hw => ?_⟩
      rcases mem_append.mp hw with hw | hw
      · exact hw
      · exfalso
        rcases mem_cons.mp hw with rfl | hw
        · rw [hv] at hinner
          cases hinner
        · -- a required array does not lie below one that is not required
          obtain ⟨between, after, rfl⟩ := append_of_mem hw
          have hways : along [] s.hops = (early ++ v :: between) ++ w :: after := by
            rw [← Source.ways, hsplit, append_assoc, cons_append]
          have habove := along_eq_append hways
          have hmem : w ∈ all := hs (by simp [hsplit])
          have hrequired : w.key ∈ required := by simpa [isOuter, harray] using hinner
          exact (isOuter_iff.mp hv).2 (hall.required_above w hmem hrequired v (by simp [← habove]))

end Way

namespace Catalog.Placed

variable {c : Catalog} {source : FromClause} {placement : Placement} {placed : List Source} {u v w : Way}

theorem not_hasPrefix_name (h : c.Placed source placement placed) (hdots : c.DotFree source)
    (hw : w ∈ placed.flatMap Source.ways) (array : String) : ¬Path.hasPrefix (array ++ ".") w.name := by
  intro hbelow
  obtain ⟨rest, hne, hsplit⟩ := Path.split_of_hasPrefix hbelow
  rw [h.split_name hdots hw] at hsplit
  rcases append_eq_singleton_iff.mp hsplit.symm with ⟨hnil, -⟩ | ⟨-, hnil⟩
  · exact Path.split_ne_nil _ hnil
  · exact hne hnil

theorem readAs_read (h : c.Placed source placement placed) (hw : w ∈ placed.flatMap Source.ways) :
    (w.read (required placed)).link.readAs.isSome = w.isOuter (required placed) := by
  obtain ⟨_, hchain⟩ := h.exists_chain hw
  have hplain := hchain.readAs_eq_none w.hop (by simp [Way.hops])
  cases houter : w.isOuter (required placed) with
  | true =>
    rw [Way.read, if_pos houter]
    rfl
  | false =>
    rw [Way.read, if_neg (by simp [houter]), hplain]
    rfl

theorem stage_of_required {required : List String} (harray : u.hop.isArray) (hrequired : u.key ∈ required) :
    u.stage required = .flatten u.key := by
  simp [Way.stage, harray, Way.place, Way.isOuter, hrequired]

variable (h : c.Placed source placement placed) (hc : c.Indexed) (hdots : c.DotFree source)

include h hc hdots

theorem hasPrefix_key_iff (hv : v ∈ placed.flatMap Source.ways) (hw : w ∈ placed.flatMap Source.ways) :
    Path.hasPrefix (v.key ++ ".") w.key ↔ v ∈ Way.along [] w.above := by
  refine ⟨fun hbelow => ?_, fun hmem => ?_⟩
  · obtain ⟨rest, hne, hsplit⟩ := Path.split_of_hasPrefix hbelow
    rw [h.split_key hdots hv, h.split_key hdots hw] at hsplit
    have htake : (w.hops.take v.hops.length).map Hop.field = v.hops.map Hop.field := by
      rw [map_take, hsplit]
      simp
    obtain ⟨_, hchain⟩ := h.exists_chain hv
    obtain ⟨_, hchain'⟩ := h.exists_chain hw
    rw [← take_append_drop v.hops.length w.hops] at hchain'
    obtain ⟨_, hstart⟩ := hchain'.of_append
    have hhops : v.hops <+: w.hops := by
      rw [← hstart.eq_of_fields hc hchain htake]
      exact take_prefix _ _
    rcases prefix_concat_iff.mp hhops with heq | habove
    · exfalso
      have hlength := congrArg List.length hsplit
      rw [heq] at hlength
      simp [Way.hops] at hlength
      exact hne hlength
    · exact Way.mem_along_iff.mpr habove
  · obtain ⟨rest, hrest⟩ := Way.mem_along_iff.mp hmem
    have hfields : w.hops.map Hop.field = v.hops.map Hop.field ++ (rest ++ [w.hop]).map Hop.field := by
      rw [← map_append, ← append_assoc, hrest]
      rfl
    rw [Way.key, Way.key, Hop.fieldPath, Hop.fieldPath, hfields]
    rw [Path.join_append (by simp [Way.hops]) (by simp), Path.hasPrefix, isPrefixOf_iff_prefix]
    exact ⟨_, String.toList_append.symm⟩

theorem path_readAlong (hw : w ∈ placed.flatMap Source.ways) (harray : w.hop.isArray) :
    Hop.path (readAlong (required placed) w.hops) = w.place (required placed) := by
  have hall := h.told hc hdots
  obtain ⟨s, hs, hways⟩ := mem_flatMap.mp hw
  rw [readAlong_hops]
  by_cases houter : w.isOuter (required placed)
  · rw [Way.place, if_pos houter, Way.read, if_pos houter, Hop.path, Hop.pathNames, foldl_concat]
    rfl
  · have hrequired : w.key ∈ required placed := by
      by_contra hfree
      exact houter (isOuter_iff.mpr ⟨harray, hfree⟩)
    rw [Way.place, if_neg houter, Way.read, if_neg houter]
    refine HopPlan.path_readAlong hall hw (HopPlan.plain_readAlong hall (fun v hv => ?_) fun v hv => ?_)
    · exact mem_flatMap.mpr ⟨s, hs, Way.along_subset (Way.mem_along_above hv) hways⟩
    · simp [Way.isOuter, hall.required_above w hw hrequired v hv]

theorem exists_of_holdsArray {array : String} (harray : placement.HoldsArray array) :
    ∃ u ∈ placed.flatMap Source.ways, u.hop.isArray ∧ (array = u.place (required placed) ∨ array = u.key) := by
  obtain ⟨_, hsource, above, hop, hstart, hhop, hpath⟩ := harray
  rw [h.sources_eq hc hdots] at hsource
  obtain ⟨s, hs, rfl⟩ := mem_map.mp hsource
  obtain ⟨u, hu, rfl, rfl⟩ := exists_of_prefix_readAlong hstart
  have hmem : u ∈ placed.flatMap Source.ways := mem_flatMap.mpr ⟨s, hs, hu⟩
  rw [isArray_read] at hhop
  rw [← readAlong_hops, h.path_readAlong hc hdots hmem hhop, fieldPath_readAlong_hops] at hpath
  exact ⟨u, hmem, hhop, hpath⟩

theorem holdsArray_key (hu : u ∈ placed.flatMap Source.ways) (harray : u.hop.isArray) : placement.HoldsArray u.key := by
  obtain ⟨s, hs, hu⟩ := mem_flatMap.mp hu
  refine ⟨s.read (required placed), ?_, readAlong (required placed) u.above,
    u.read (required placed), ?_, ?_, .inr ?_⟩
  · rw [h.sources_eq hc hdots]
    exact mem_map_of_mem hs
  · rw [← readAlong_hops]
    exact readAlong_mono (Way.mem_along_iff.mp hu)
  · rw [isArray_read, harray]
  · rw [← readAlong_hops, fieldPath_readAlong_hops]

theorem exists_above (hunmarked : c.Unmarked source) (hw : w ∈ placed.flatMap Source.ways) {array : String}
    (harray : placement.HoldsArray array) (hbelow : Path.hasPrefix (array ++ ".") w.key) :
    ∃ u ∈ Way.along [] w.above, u.hop.isArray ∧ array = u.key := by
  obtain ⟨u, hu, hhop, hplace⟩ := h.exists_of_holdsArray hc hdots harray
  have hkey : array = u.key := by
    rcases hplace with rfl | hkey
    · rw [Way.place] at hbelow ⊢
      split at hbelow
      · -- the field under which an array is read would be that of a table
        obtain ⟨rest, -, hsplit⟩ := Path.split_of_hasPrefix hbelow
        rw [h.split_name hdots hu, h.split_key hdots hw] at hsplit
        exact absurd (by simp [hsplit]) (h.name_not_mem (v := u) hunmarked hw)
      · rename_i hinner
        rw [if_neg hinner]
    · exact hkey
  subst hkey
  exact ⟨u, (h.hasPrefix_key_iff hc hdots hu hw).mp hbelow, hhop, rfl⟩

theorem inOrder_of_path (hunmarked : c.Unmarked source) {stage : Prestage}
    (hstages : placement.prestages = before ++ stage :: after) (hstage : stage.isCompute = false) :
    stage.InOrder placement.HoldsArray before := by
  intro path hreads array harray hbelow
  rw [h.prestages_eq hc hdots hunmarked] at hstages
  obtain ⟨early, w, late, hplanned, rfl, hearly, -⟩ := exists_of_stagesFor hstages hstage
  have hmem : w ∈ planned (required placed) (placed.flatMap Source.ways) := by simp [hplanned]
  obtain ⟨hw, hstaged⟩ := mem_planned.mp hmem
  have hplace : w.place (required placed) = path := by
    rw [Way.stage] at hreads
    split at hreads <;> exact hreads
  rw [← hplace, Way.place] at hbelow
  split at hbelow
  · exact absurd hbelow (h.not_hasPrefix_name hdots hw array)
  · rename_i hinner
    obtain ⟨u, hu, hhop, rfl⟩ := h.exists_above hc hdots hunmarked hw harray hbelow
    have hrequired : w.key ∈ required placed := by
      rcases isPlanned_iff.mp hstaged with harray | hrequired
      · by_contra hfree
        exact hinner (isOuter_iff.mpr ⟨harray, hfree⟩)
      · exact hrequired
    rw [← stage_of_required hhop ((h.told hc hdots).required_above w hw hrequired u hu)]
    have htop := topDown_planned (topDown_ways (isPlanned (required placed)) placed)
    exact hearly u (htop early w late hplanned u hu (isPlanned_iff.mpr (.inl hhop)))

theorem compute_before (hunmarked : c.Unmarked source)
    (hw : w ∈ placed.flatMap Source.ways) (houter : w.isOuter (required placed))
    (hstages : placement.prestages = before ++ .flatten w.name :: after) :
    ∃ fields, .compute fields ∈ before ∧ w.fragment ∈ fields := by
  rw [h.prestages_eq hc hdots hunmarked] at hstages
  obtain ⟨early, v, late, hplanned, hstage, -, hcompute⟩ := exists_of_stagesFor hstages rfl
  have hmem : v ∈ planned (required placed) (placed.flatMap Source.ways) := by simp [hplanned]
  have hplace : v.place (required placed) = w.place (required placed) := by
    have hpath := congrArg Prestage.path? hstage
    rw [Way.path?_stage, Prestage.path?, Option.some.injEq] at hpath
    rw [← hpath, Way.place, if_pos houter]
  have heq : v = w := h.placesApart hc hdots hunmarked v (mem_planned.mp hmem).1 w hw
    (mem_planned.mp hmem).2 (isPlanned_of_isOuter houter) hplace
  subst heq
  exact ⟨_, hcompute houter, mem_map_of_mem (mem_filter.mpr ⟨hmem, houter⟩)⟩

/-! ### Leading sources -/

theorem leading_eq :
    placement.leading = (upToFirst (fun s => s.ways.any (Way.isOuter (required placed)))
      placed).map (Source.read (required placed)) := by
  rw [Placement.leading, h.sources_eq hc hdots, upToFirst_map]
  congr 1
  refine upToFirst_congr fun s hs => ?_
  have hways (w : Way) (hw : w ∈ s.ways) := h.readAs_read (mem_flatMap.mpr ⟨s, hs, hw⟩)
  rw [Function.comp_apply, isAliased, Source.read, readAlong, any_map, Bool.eq_iff_iff,
    any_eq_true, any_eq_true]
  exact exists_congr fun w => and_congr_right fun hw => by rw [Function.comp_apply, hways w hw]

theorem mem_leading_iff (hu : u ∈ placed.flatMap Source.ways)
    (harray : u.hop.isArray) (hinner : u.isOuter (required placed) = false) :
    u ∈ (planned (required placed) (placed.flatMap Source.ways)).takeWhile
        (!Way.isOuter (required placed) ·) ↔
      ∃ s ∈ placement.leading, readAlong (required placed) u.hops <+: s.hops := by
  have hplanned : u.isPlanned (required placed) := isPlanned_iff.mpr (.inl harray)
  rw [mem_takeWhile_planned, mem_takeWhile_ways (h.told hc hdots) (List.Subset.refl _) harray hinner,
    h.leading_eq hc hdots]
  refine ⟨fun ⟨_, s, hs, hu⟩ => ?_, fun ⟨_, hsource, hstart⟩ => ⟨hplanned, ?_⟩⟩
  · exact ⟨_, mem_map_of_mem hs, readAlong_mono (Way.mem_along_iff.mp hu)⟩
  · obtain ⟨s, hs, rfl⟩ := mem_map.mp hsource
    rw [readAlong_hops] at hstart
    obtain ⟨v, hv, habove, hread⟩ := exists_of_prefix_readAlong hstart
    have hkey : v.key = u.key := by
      have hhops : readAlong (required placed) v.hops =
          readAlong (required placed) u.hops := by
        rw [readAlong_hops, readAlong_hops, habove, hread]
      rw [← fieldPath_readAlong_hops, hhops, fieldPath_readAlong_hops]
    have hmem : v ∈ placed.flatMap Source.ways := mem_flatMap.mpr ⟨s, upToFirst_subset _ _ hs, hv⟩
    exact ⟨s, hs, h.eq_of_key hc hdots hmem hu hkey ▸ hv⟩

/-- Arrays lead just when those above an array that is read under a computed field are all staged before the
first such field. -/
theorem arraysLead_iff :
    placement.ArraysLead ↔ ∀ v ∈ placed.flatMap Source.ways, v.isOuter (required placed) →
      ∀ u ∈ Way.along [] v.above, u.hop.isArray →
        u ∈ (planned (required placed) (placed.flatMap Source.ways)).takeWhile
          (!Way.isOuter (required placed) ·) := by
  refine ⟨fun hlead v hv houter u hu harray => ?_, fun hstaged => ?_⟩
  · obtain ⟨s, hs, hways⟩ := mem_flatMap.mp hv
    have hsource : s.read (required placed) ∈ placement.sources := by
      rw [h.sources_eq hc hdots]
      exact mem_map_of_mem hs
    refine (h.mem_leading_iff hc hdots (mem_ways_of_above hv hu) harray (h.shallow hc hdots hv houter u hu)).mpr ?_
    rw [readAlong_hops]
    refine hlead _ hsource (readAlong (required placed) v.above) (v.read (required placed)) ?_
      (by rw [h.readAs_read hv, houter]) _ _ ?_ (by rw [isArray_read, harray])
    · exact readAlong_hops _ v ▸ readAlong_mono (Way.mem_along_iff.mp hways)
    · exact readAlong_hops _ u ▸ readAlong_mono (Way.mem_along_iff.mp hu)
  · intro _ hsource above hop hstart hread start array hstart' harray
    rw [h.sources_eq hc hdots] at hsource
    obtain ⟨s, hs, rfl⟩ := mem_map.mp hsource
    obtain ⟨v, hv, rfl, rfl⟩ := exists_of_prefix_readAlong hstart
    obtain ⟨u, hu, rfl, rfl⟩ := exists_of_prefix_readAlong hstart'
    have hv : v ∈ placed.flatMap Source.ways := mem_flatMap.mpr ⟨s, hs, hv⟩
    rw [h.readAs_read hv] at hread
    rw [isArray_read] at harray
    rw [← readAlong_hops]
    exact (h.mem_leading_iff hc hdots (mem_ways_of_above hv hu) harray (h.shallow hc hdots hv hread u hu)).mp
      (hstaged v hv hread u hu harray)

/-- The computed fields stand where the arrays above those that they are computed from are flattened, just
when these arrays lie on the ways to leading sources. -/
theorem inOrder_compute_iff (hunmarked : c.Unmarked source) :
    (∀ before fields after, placement.prestages = before ++ .compute fields :: after →
        (Prestage.compute fields).InOrder placement.HoldsArray before) ↔ placement.ArraysLead := by
  rw [h.prestages_eq hc hdots hunmarked, h.arraysLead_iff hc hdots]
  refine ⟨fun horder v hv houter u hu harray => ?_, fun hstaged => ?_⟩
  · have hu' : u ∈ placed.flatMap Source.ways := mem_ways_of_above hv hu
    have hplanned := mem_planned.mpr ⟨hv, isPlanned_of_isOuter houter⟩
    obtain ⟨before, after, hstages⟩ := append_of_mem (compute_mem_stagesFor hplanned houter)
    have hflatten : .flatten u.key ∈ before := by
      refine horder before _ after hstages v.key ⟨v.fragment, ?_, ?_⟩ u.key
        (h.holdsArray_key hc hdots hu' harray) ((h.hasPrefix_key_iff hc hdots hu' hv).mpr hu)
      · exact mem_map_of_mem (mem_filter.mpr ⟨hplanned, houter⟩)
      · exact Bson.mentions_orEmptyElement.mpr rfl
    obtain ⟨rfl, -⟩ := compute_of_stagesFor hstages
    obtain ⟨x, hx, hstage⟩ := mem_map.mp hflatten
    have hinner : x.isOuter (required placed) = false := by
      simpa using mem_takeWhile_imp hx
    have hkey : x.key = u.key := by
      have hpath := congrArg Prestage.path? hstage
      rw [Way.path?_stage, Way.place, if_neg (by simp [hinner])] at hpath
      exact Option.some.inj hpath
    have hx' := (mem_planned.mp ((takeWhile_sublist _).subset hx)).1
    exact h.eq_of_key hc hdots hx' hu' hkey ▸ hx
  · intro before fields after hstages path hreads array harray hbelow
    obtain ⟨rfl, rfl⟩ := compute_of_stagesFor hstages
    obtain ⟨f, hf, hmentions⟩ := hreads
    obtain ⟨v, hv, rfl⟩ := mem_map.mp hf
    obtain ⟨hv, houter⟩ := mem_filter.mp hv
    have hv := (mem_planned.mp hv).1
    have hpath : v.key = path := Bson.mentions_orEmptyElement.mp hmentions
    subst hpath
    obtain ⟨u, hu, hhop, rfl⟩ := h.exists_above hc hdots hunmarked hv harray hbelow
    have hrequired : u.key ∈ required placed := by
      simpa [Way.isOuter, hhop] using h.shallow hc hdots hv houter u hu
    rw [← stage_of_required hhop hrequired]
    exact mem_map_of_mem (hstaged v hv houter u hu hhop)

end Catalog.Placed

theorem Placement.arraysLead_of_dropLast {p : Placement}
    (h : ∀ s ∈ p.sources, ∃ s' ∈ p.leading, s.hops.dropLast <+: s'.hops) : p.ArraysLead := by
  intro s hs above hop hstart _ start array hstart' _
  obtain ⟨s', hs', hlast⟩ := h s hs
  refine ⟨s', hs', (hstart'.trans ?_).trans hlast⟩
  obtain ⟨rest, hrest⟩ := hstart
  rw [← hrest, append_assoc]
  rw [dropLast_append_of_ne_nil (by simp)]
  exact prefix_append _ _

/-- For each FROM clause that is `DotFree` and `Unmarked`: nested rows are read after the arrays that hold them are
flattened, and a field is computed before an array is flattened under it. So all stages are in order just when the
arrays above those that are read under computed fields lie on the ways to `leading` sources. -/
theorem Catalog.stages_in_order_iff {c : Catalog} {source : FromClause} {placement : Placement}
    (hc : c.Indexed) (h : c.place source = .ok placement) (hdots : c.DotFree source) (hunmarked : c.Unmarked source) :
    (∀ before stage after, placement.prestages = before ++ stage :: after → stage.isCompute = false →
      stage.InOrder placement.HoldsArray before) ∧
    (∀ s ∈ placement.sources, ∀ hop ∈ s.hops, ∀ name, hop.link.readAs = some name →
      .flatten name ∈ placement.prestages ∧
      ∀ before after, placement.prestages = before ++ .flatten name :: after →
        ∃ fields, .compute fields ∈ before ∧ name ∈ fields.map (·.1)) ∧
    ((∀ before stage after, placement.prestages = before ++ stage :: after →
      stage.InOrder placement.HoldsArray before) ↔ placement.ArraysLead) := by
  obtain ⟨placed, hplaced⟩ := exists_placed hc h
  refine ⟨fun before stage after => hplaced.inOrder_of_path hc hdots hunmarked, ?_, ?_⟩
  · intro _ hsource hop hhop name hread
    rw [hplaced.sources_eq hc hdots] at hsource
    obtain ⟨s, hs, rfl⟩ := mem_map.mp hsource
    obtain ⟨w, hw, rfl⟩ := mem_map.mp hhop
    have hw : w ∈ placed.flatMap Source.ways := mem_flatMap.mpr ⟨s, hs, hw⟩
    have houter : w.isOuter (HopPlan.required placed) := by
      rw [← hplaced.readAs_read hw, hread]
      rfl
    have hname : name = w.name := by
      rw [Way.read, if_pos houter] at hread
      exact (Option.some.inj hread).symm
    subst hname
    refine ⟨?_, fun before after hstages => ?_⟩
    · have hfilter := (hplaced.filter_of_outer hc hdots hunmarked hw houter).2
      exact mem_of_mem_filter (hfilter ▸ mem_singleton_self _)
    · obtain ⟨fields, hfields, hmem⟩ := hplaced.compute_before hc hdots hunmarked hw houter hstages
      exact ⟨fields, hfields, mem_map_of_mem hmem⟩
  · rw [← hplaced.inOrder_compute_iff hc hdots hunmarked]
    refine ⟨fun horder before fields after => horder before (.compute fields) after, ?_⟩
    intro horder before stage after hstages
    cases stage with
    | compute fields => exact horder before fields after hstages
    | present path | flatten path => exact hplaced.inOrder_of_path hc hdots hunmarked hstages rfl

namespace Catalog

/-- The items of the workshop with their parts, if any, and the notes on their orders. -/
def workshopParts : FromClause where
  base := ⟨"orders", none⟩
  joins := [⟨.inner, ⟨"items", none⟩, none⟩, ⟨.leftOuter, ⟨"parts", none⟩, none⟩, ⟨.leftOuter, ⟨"notes", none⟩, none⟩]

def workshopPartsPlacement : Placement where
  top := "orders"
  sources := [⟨"orders", "orders", [], false⟩, ⟨"items", "items", [heldHop "items" "orders" "id"], false⟩,
    ⟨"parts", "parts", [heldHop "items" "orders" "id", (heldHop "parts" "items" "no").aliased "__parts"], true⟩,
    ⟨"notes", "notes", [(heldHop "notes" "orders" "id").aliased "__notes"], true⟩]
  joins := [⟨"items", false, none, true⟩, ⟨"parts", true, none, true⟩, ⟨"notes", true, none, true⟩]
  prestages := [.flatten "items",
    .compute [("__parts", HopPlan.orEmptyElement "items.parts"), ("__notes", HopPlan.orEmptyElement "notes")],
    .flatten "__parts", .flatten "__notes"]

/-- The stages are in order when items come before notes in the FROM clause. When notes come first, the parts are
computed before the items that hold them are flattened. -/
theorem workshop_stages :
    workshop.Indexed ∧ workshop.DotFree workshopParts ∧ workshop.Unmarked workshopParts ∧
      workshop.place workshopParts = .ok workshopPartsPlacement ∧
      (∀ before stage after, workshopPartsPlacement.prestages = before ++ stage :: after →
        stage.InOrder workshopPartsPlacement.HoldsArray before) ∧
      workshop.DotFree workshopItems ∧ workshop.Unmarked workshopItems ∧
      workshop.place workshopItems = .ok workshopPlacement ∧
      ¬∀ before stage after, workshopPlacement.prestages = before ++ stage :: after →
        stage.InOrder workshopPlacement.HoldsArray before := by
  have hc : workshop.Indexed := indexed_ofTables _
  have hdots : workshop.DotFree workshopParts := by decide +kernel
  have hunmarked : workshop.Unmarked workshopParts := by decide +kernel
  have hplace : workshop.place workshopParts = .ok workshopPartsPlacement := rfl
  have hdots' : workshop.DotFree workshopItems := by decide +kernel
  have hunmarked' : workshop.Unmarked workshopItems := by decide +kernel
  have hplace' : workshop.place workshopItems = .ok workshopPlacement := rfl
  refine ⟨hc, hdots, hunmarked, hplace, ?_, hdots', hunmarked', hplace', ?_⟩
  · rw [(stages_in_order_iff hc hplace hdots hunmarked).2.2]
    exact Placement.arraysLead_of_dropLast (by decide +kernel)
  · rw [(stages_in_order_iff hc hplace' hdots' hunmarked').2.2]
    intro hlead
    have hleading := hlead ⟨"parts", "parts",
        [heldHop "items" "orders" "id", (heldHop "parts" "items" "no").aliased "__parts"], true⟩
      (by simp [workshopPlacement]) [heldHop "items" "orders" "id"] _ prefix_rfl rfl [] _
      prefix_rfl rfl
    revert hleading
    decide +kernel

end Catalog

end Pushdown
