import Mathlib.Data.List.Nodup
import Pushdown.Proofs.ColumnLocations
import Pushdown.Query.Placement

/-!
# Ways into documents

`Way`: a hop with the hops above it. The hops of a FROM clause are planned way by way, and a way that several
sources take is planned at the first visit. `planHops_cons`: as long as ways are told apart by the fields on them
(`Told`), each hop is read as its way says, and the plan is what the visits make of it (`visit`), one after the
other.
-/

namespace Pushdown

open List

variable {sources planned : List Source} {α : Type}

theorem eraseDups_concat [DecidableEq α] (l : List α) (a : α) :
    (l ++ [a]).eraseDups = if a ∈ l then l.eraseDups else l.eraseDups ++ [a] := by
  rw [eraseDups_append]
  by_cases h : a ∈ l <;> simp [List.removeAll, h, eraseDups_cons]

theorem nodup_eraseDups [DecidableEq α] (l : List α) : l.eraseDups.Nodup := by
  induction l using List.reverseRecOn with
  | nil => simp
  | append_singleton l a ih =>
    rw [eraseDups_concat]
    split
    · exact ih
    · rename_i h
      exact ih.append (nodup_singleton a) (by simpa using h)

theorem filter_eq_singleton [DecidableEq α] {l : List α} (hl : l.Nodup) {a : α} (ha : a ∈ l) {p : α → Bool}
    (hp : ∀ b ∈ l, p b ↔ b = a) : l.filter p = [a] := by
  have hcongr : l.filter p = l.filter (· == a) := filter_congr fun b hb => by rw [Bool.eq_iff_iff, hp b hb, beq_iff_eq]
  rw [hcongr, filter_beq, count_eq_one_of_mem hl ha]
  rfl

/-- A hop with those above it. -/
structure Way where
  above : List Hop
  hop : Hop
deriving DecidableEq

variable {v w : Way}

namespace Way

def hops (w : Way) : List Hop := w.above ++ [w.hop]

def key (w : Way) : String := Hop.fieldPath w.hops

/-- The ways to the hops that lead on from `above`, one below the other. -/
def along (above : List Hop) : List Hop → List Way
  | [] => []
  | h :: rest => ⟨above, h⟩ :: along (above ++ [h]) rest

theorem along_append (above xs ys : List Hop) : along above (xs ++ ys) = along above xs ++ along (above ++ xs) ys := by
  induction xs generalizing above with
  | nil => simp [along]
  | cons x xs ih => simp [along, ih]

theorem along_concat (hops : List Hop) (h : Hop) : along [] (hops ++ [h]) = along [] hops ++ [⟨hops, h⟩] := by
  simp [along_append, along]

theorem map_hop_along (above hops : List Hop) : (along above hops).map Way.hop = hops := by
  induction hops generalizing above with
  | nil => rfl
  | cons h hops ih => simp [along, ih]

theorem take_along (above hops : List Hop) (k : Nat) : (along above hops).take k = along above (hops.take k) := by
  induction hops generalizing above k with
  | nil => simp [along]
  | cons h hops ih =>
    cases k with
    | zero => rfl
    | succ k => simp [along, ih]

theorem hops_injective (h : v.hops = w.hops) : v = w := by
  obtain ⟨habove, hhop⟩ := append_inj' h rfl
  cases v
  cases w
  simp_all

theorem mem_along_iff {hops : List Hop} : w ∈ along [] hops ↔ w.hops <+: hops := by
  induction hops using List.reverseRecOn with
  | nil => simp [along, hops]
  | append_singleton hops h ih =>
    rw [along_concat, mem_append, mem_singleton, ih, prefix_concat_iff, or_comm]
    refine or_congr ⟨fun heq => heq ▸ rfl, fun heq => hops_injective heq⟩ Iff.rfl

theorem along_subset (hv : v ∈ along [] w.hops) {hops : List Hop} (hw : w ∈ along [] hops) : v ∈ along [] hops :=
  mem_along_iff.mpr ((mem_along_iff.mp hv).trans (mem_along_iff.mp hw))

theorem mem_along_above (hv : v ∈ along [] w.above) : v ∈ along [] w.hops := by
  rw [hops, along_concat]
  exact mem_append_left _ hv

theorem starts_eq (hops : List Hop) : HopPlan.starts hops = (along [] hops).map Way.hops := by
  induction hops using List.reverseRecOn with
  | nil => rfl
  | append_singleton xs h ih =>
    rw [along_concat, map_append, ← ih, HopPlan.starts, HopPlan.starts, length_append,
      length_singleton, range_succ, map_append]
    congr 1
    · refine map_congr_left fun k hk => ?_
      rw [take_append_of_le_length (Nat.succ_le_of_lt (mem_range.mp hk))]
    · simp [Way.hops, take_of_length_le]

end Way

def Source.ways (s : Source) : List Way := Way.along [] s.hops

theorem mem_ways_of_above (hw : w ∈ sources.flatMap Source.ways) (hv : v ∈ Way.along [] w.above) :
    v ∈ sources.flatMap Source.ways := by
  obtain ⟨s, hs, hw⟩ := mem_flatMap.mp hw
  exact mem_flatMap.mpr ⟨s, hs, Way.along_subset (Way.mem_along_above hv) hw⟩

theorem mem_required_iff {key : String} :
    key ∈ HopPlan.required sources ↔ ∃ s ∈ sources, s.optional = false ∧ ∃ w ∈ s.ways, w.key = key := by
  simp [HopPlan.required, Way.starts_eq, Source.ways, Way.key, and_assoc]

namespace Way

variable (required : List String)

/-- Whether the hop leads to an array that only rows which may be absent need. -/
def isOuter (w : Way) : Bool := w.hop.isArray && !required.contains w.key

theorem isOuter_iff {required : List String} : w.isOuter required ↔ w.hop.isArray ∧ w.key ∉ required := by
  simp [isOuter]

/-- The field under which an array is read that only rows which may be absent need. -/
def name (w : Way) : String := "__" ++ w.hop.field

def read (w : Way) : Hop := if w.isOuter required then w.hop.aliased w.name else w.hop

def Shallow (w : Way) : Prop := ∀ v ∈ along [] w.above, v.isOuter required = false

/-- The hop is seen before, or no array above it is read under another field if it leads to one that is. -/
def ShallowAfter (seen : List Way) (w : Way) : Prop :=
  w.isOuter required → w ∈ seen ∨ w.Shallow required

def readAlong (hops : List Hop) : List Hop := (along [] hops).map (read required)

theorem readAlong_hops (w : Way) : readAlong required w.hops = readAlong required w.above ++ [w.read required] := by
  simp [readAlong, hops, along_concat]

variable {required}

theorem field_read (w : Way) : (w.read required).field = w.hop.field := by
  rw [read]
  split <;> rfl

theorem isArray_read (w : Way) : (w.read required).isArray = w.hop.isArray := by
  rw [read]
  split <;> rfl

theorem map_field_readAlong (hops : List Hop) : (readAlong required hops).map Hop.field = hops.map Hop.field := by
  induction hops using List.reverseRecOn with
  | nil => rfl
  | append_singleton hops h ih =>
    have hread : readAlong required (hops ++ [h]) = _ := readAlong_hops required ⟨hops, h⟩
    simp [hread, ih, field_read]

theorem take_readAlong (hops : List Hop) (k : Nat) :
    (readAlong required hops).take k = readAlong required (hops.take k) := by
  rw [readAlong, ← map_take, take_along, readAlong]

theorem readAlong_mono {hops hops' : List Hop} (h : hops <+: hops') :
    readAlong required hops <+: readAlong required hops' := by
  rw [prefix_iff_eq_take.mp h, ← take_readAlong]
  exact take_prefix _ _

theorem exists_of_prefix_readAlong {hops above : List Hop} {hop : Hop}
    (h : above ++ [hop] <+: readAlong required hops) :
    ∃ w ∈ along [] hops, above = readAlong required w.above ∧ hop = w.read required := by
  rw [prefix_iff_eq_take, take_readAlong] at h
  generalize htake : hops.take (above ++ [hop]).length = start at h
  rcases eq_nil_or_concat' start with rfl | ⟨before, last, rfl⟩
  · simp [readAlong, along] at h
  · refine ⟨⟨before, last⟩, mem_along_iff.mpr ?_, ?_⟩
    · rw [Way.hops, ← htake]
      exact take_prefix _ _
    · have hread := readAlong_hops required ⟨before, last⟩
      rw [Way.hops, ← h] at hread
      simpa using append_inj' hread rfl

theorem shallow_of_plain (h : ∀ hop ∈ readAlong required w.above, hop.link.readAs = none) : w.Shallow required := by
  intro v hv
  by_contra houter
  have hread := h (v.read required) (mem_map_of_mem hv)
  rw [read, if_pos (by simpa using houter)] at hread
  cases hread

theorem ShallowAfter.of_append {seen more : List Way} (hmore : ∀ v ∈ more, ShallowAfter required seen v)
    (h : ShallowAfter required (seen ++ more) w) : ShallowAfter required seen w := by
  intro houter
  rcases h houter with hmem | hshallow
  · rcases mem_append.mp hmem with hseen | hw
    · exact .inl hseen
    · exact hmore w hw houter
  · exact .inr hshallow

theorem fieldPath_readAlong_hops (w : Way) : Hop.fieldPath (readAlong required w.hops) = w.key := by
  rw [Hop.fieldPath, map_field_readAlong]
  rfl

theorem fieldPath_readAlong (w : Way) : Hop.fieldPath (readAlong required w.above ++ [w.hop]) = w.key := by
  simp [key, hops, Hop.fieldPath, map_field_readAlong]

end Way

def Source.read (required : List String) (s : Source) : Source :=
  { s with hops := Way.readAlong required s.hops }

theorem Source.read_of_present {s : Source} (hs : s ∈ sources) (hpresent : s.optional = false) :
    s.read (HopPlan.required sources) = s := by
  have hinner (w : Way) (hw : w ∈ Way.along [] s.hops) :
      w.isOuter (HopPlan.required sources) = false := by
    have hrequired : w.key ∈ HopPlan.required sources := mem_required_iff.mpr ⟨s, hs, hpresent, w, hw, rfl⟩
    simp [Way.isOuter, hrequired]
  rw [Source.read, Way.readAlong, map_congr_left fun w hw => show w.read _ = w.hop by simp [Way.read, hinner w hw],
    Way.map_hop_along]

/-- Ways are told apart by the fields on them, and all that lies on a required way is required. -/
structure Told (required : List String) (all : List Way) : Prop where
  eq_of_key : ∀ v ∈ all, ∀ w ∈ all, v.key = w.key → v = w
  required_above : ∀ w ∈ all, w.key ∈ required → ∀ v ∈ Way.along [] w.above, v.key ∈ required
  plain : ∀ w ∈ all, w.hop.link.readAs = none

namespace HopPlan

variable (required : List String)

/-- What a visit adds to the plan. -/
def visit (plan : HopPlan) (w : Way) : HopPlan :=
  if (plan.aliased.lookup w.key).isSome then plan
  else if required.contains w.key then
    { plan with
      prestages :=
        if w.hop.isArray then plan.prestages.flatten w.key else plan.prestages.requirePresent w.key }
  else if w.hop.isArray then
    { prestages := (plan.prestages.compute w.name (orEmptyElement w.key)).flatten w.name
      aliased := (w.key, w.read required) :: plan.aliased }
  else plan

/-- The plan knows the hops among the ways seen that are read under another field. -/
def Recalls (all seen : List Way) (plan : HopPlan) : Prop :=
  ∀ w ∈ all, ∀ hop, plan.aliased.lookup w.key = some hop ↔ hop = w.read required ∧ w ∈ seen ∧ w.isOuter required

variable {required} {all seen : List Way} {plan : HopPlan}

variable (hall : Told required all)

include hall

theorem recalls_visit (h : Recalls required all seen plan) (hw : w ∈ all) :
    Recalls required all (seen ++ [w]) (plan.visit required w) := by
  intro v hv hop
  have hold := h v hv hop
  -- a way that is not outer, or was seen before, changes nothing
  have hsame (hw : w.isOuter required → w ∈ seen) :
      (v ∈ seen ++ [w] ∧ v.isOuter required) ↔ (v ∈ seen ∧ v.isOuter required) := by
    simp only [mem_append, mem_singleton, and_congr_left_iff, or_iff_left_iff_imp]
    rintro houter rfl
    exact hw houter
  unfold visit
  split
  · rename_i hsome
    obtain ⟨known, hknown⟩ := Option.isSome_iff_exists.mp hsome
    rw [hold, hsame fun _ => ((h w hw known).mp hknown).2.1]
  · split
    · rename_i hrequired
      have hrequired : w.key ∈ required := by simpa using hrequired
      rw [hsame fun houter => absurd hrequired (Way.isOuter_iff.mp houter).2]
      exact hold
    · rename_i hfree
      split
      · rename_i harray
        have houter : w.isOuter required := Way.isOuter_iff.mpr ⟨harray, by simpa using hfree⟩
        rw [lookup_cons]
        split
        · rename_i hkey
          have heq : v = w := hall.eq_of_key v hv w hw (by simpa using hkey)
          simp [heq, houter, eq_comm]
        · rename_i hkey
          have hne : v ≠ w := by
            rintro rfl
            simp at hkey
          simp [hold, hne]
      · rename_i hsingle
        rw [hsame fun houter => absurd (Way.isOuter_iff.mp houter).1 hsingle]
        exact hold

theorem plain_readAlong {hops : List Hop} (hways : Way.along [] hops ⊆ all)
    (hinner : ∀ w ∈ Way.along [] hops, w.isOuter required = false) :
    ∀ hop ∈ Way.readAlong required hops, hop.link.readAs = none := by
  intro hop hhop
  obtain ⟨w, hw, rfl⟩ := mem_map.mp hhop
  simpa [Way.read, hinner w hw] using hall.plain w (hways hw)

theorem path_readAlong (hw : w ∈ all) (hplain : ∀ hop ∈ Way.readAlong required w.above, hop.link.readAs = none) :
    Hop.path (Way.readAlong required w.above ++ [w.hop]) = w.key := by
  rw [Hop.path, Hop.pathNames_of_plain]
  · exact Way.fieldPath_readAlong w
  · simpa [or_imp, forall_and] using ⟨hplain, hall.plain w hw⟩

/-- One hop is planned as the visit to its way says. Arrays below one that is read under another field are
refused at the first visit. -/
theorem planHops_cons (hways : Way.along [] w.hops ⊆ all) (hrecalls : Recalls required all seen plan) {rest : List Hop}
    {r : List Hop × HopPlan} (h : planHops required (Way.readAlong required w.above) (w.hop :: rest) plan = .ok r) :
    planHops required (Way.readAlong required w.hops) rest (plan.visit required w) = .ok r ∧
      w.ShallowAfter required seen := by
  have hw : w ∈ all := hways (Way.mem_along_iff.mpr prefix_rfl)
  have habove : Way.along [] w.above ⊆ all := fun v hv => hways (Way.mem_along_above hv)
  rw [planHops] at h
  extract_lets prestages name read at h
  rw [Way.fieldPath_readAlong] at h
  rw [Way.readAlong_hops, visit]
  split at h
  · rename_i known hlookup
    obtain ⟨rfl, hseen, -⟩ := (hrecalls w hw known).mp hlookup
    rw [if_pos (by simp [hlookup])]
    exact ⟨h, fun _ => .inl hseen⟩
  · rename_i hlookup
    rw [if_neg (by simp [hlookup])]
    split at h
    · rename_i hrequired
      have hmem : w.key ∈ required := by simpa using hrequired
      have hread : w.read required = w.hop := by simp [Way.read, Way.isOuter_iff, hmem]
      -- all that lies on the way to a required place is read under its own field
      have hpath := path_readAlong hall hw (plain_readAlong hall habove fun v hv => by
        simp [Way.isOuter, hall.required_above w hw hmem v hv])
      rw [if_pos hrequired, hread]
      refine ⟨by simpa [prestages, hpath] using h, fun houter => ?_⟩
      exact absurd hmem (Way.isOuter_iff.mp houter).2
    · rename_i hfree
      rw [if_neg hfree]
      split at h
      · rename_i harray
        have houter : w.isOuter required := Way.isOuter_iff.mpr ⟨harray, by simpa using hfree⟩
        split at h
        · cases h
        · rename_i hplain
          have hplain : ∀ hop ∈ Way.readAlong required w.above, hop.link.readAs = none := by
            simpa using hplain
          have hpath := path_readAlong hall hw hplain
          rw [if_pos harray]
          refine ⟨?_, fun _ => .inr (Way.shallow_of_plain hplain)⟩
          simpa [Way.read, Way.name, houter, name, read, hpath] using h
      · rename_i hsingle
        rw [if_neg hsingle]
        refine ⟨by simpa [Way.read, Way.isOuter_iff, hsingle] using h, fun houter => ?_⟩
        exact absurd (Way.isOuter_iff.mp houter).1 hsingle

theorem planHops_eq {before rest hops : List Hop} {plan' : HopPlan} (hways : Way.along [] (before ++ rest) ⊆ all)
    (hrecalls : Recalls required all seen plan)
    (h : planHops required (Way.readAlong required before) rest plan = .ok (hops, plan')) :
    hops = Way.readAlong required (before ++ rest) ∧
      plan' = (Way.along before rest).foldl (visit required) plan ∧
      Recalls required all (seen ++ Way.along before rest) plan' ∧
      ∀ w ∈ Way.along before rest, w.ShallowAfter required seen := by
  induction rest generalizing before seen plan with
  | nil =>
    cases h
    simpa [Way.along] using hrecalls
  | cons hop rest ih =>
    rw [append_cons] at hways
    have hstart : Way.along [] (Way.hops ⟨before, hop⟩) ⊆ all := fun v hv => hways (by
      rw [Way.along_append]
      exact mem_append_left _ hv)
    have hw : (⟨before, hop⟩ : Way) ∈ all := hstart (Way.mem_along_iff.mpr prefix_rfl)
    obtain ⟨h, hfirst⟩ := planHops_cons hall hstart hrecalls h
    obtain ⟨hhops, hplan, hrecalls', hrest⟩ := ih hways (recalls_visit hall hrecalls hw) h
    refine ⟨by simpa using hhops, hplan, by simpa [Way.along] using hrecalls', ?_⟩
    refine forall_mem_cons.mpr ⟨hfirst, fun v hv => ?_⟩
    exact .of_append (forall_mem_singleton.mpr hfirst) (hrest v hv)

theorem planSources_eq {sources : List Source} {plan' : HopPlan} (hways : ∀ s ∈ sources, s.ways ⊆ all)
    (hrecalls : Recalls required all seen plan) (h : planSources required sources plan = .ok (planned, plan')) :
    planned = sources.map (Source.read required) ∧
      plan' = (sources.flatMap Source.ways).foldl (visit required) plan ∧
      ∀ w ∈ sources.flatMap Source.ways, w.ShallowAfter required seen := by
  induction sources generalizing planned seen plan with
  | nil =>
    cases h
    exact ⟨rfl, rfl, by simp⟩
  | cons s sources ih =>
    rw [planSources] at h
    obtain ⟨⟨hops, plan₁⟩, hhops, h⟩ := exists_of_bind_ok h
    obtain ⟨⟨rest, plan₂⟩, hrest, h⟩ := exists_of_bind_ok h
    cases h
    obtain ⟨hs, hsources⟩ := forall_mem_cons.mp hways
    have hfirst : Way.along [] ([] ++ s.hops) ⊆ all := hs
    obtain ⟨rfl, hplan₁, hrecalls₁, hshallow₁⟩ := planHops_eq hall hfirst hrecalls hhops
    obtain ⟨rfl, rfl, hshallow⟩ := ih hsources hrecalls₁ hrest
    refine ⟨by simp [Source.read], by rw [hplan₁]; simp [Source.ways], fun w hw => ?_⟩
    rw [flatMap_cons, mem_append] at hw
    rcases hw with hw | hw
    · exact hshallow₁ w hw
    · exact .of_append hshallow₁ (hshallow w hw)

end HopPlan

theorem HopPlan.plan_eq {sources : List Source} {prestages : Prestages}
    (hall : Told (required sources) (sources.flatMap Source.ways)) (h : plan sources = .ok (planned, prestages)) :
    planned = sources.map (Source.read (required sources)) ∧
      prestages = ((sources.flatMap Source.ways).foldl (visit (required sources)) {}).prestages ∧
      ∀ w ∈ sources.flatMap Source.ways, w.isOuter (required sources) → w.Shallow (required sources) := by
  rw [plan] at h
  obtain ⟨⟨planned, plan'⟩, hplan, h⟩ := exists_of_bind_ok h
  cases h
  have hways (s : Source) (hs : s ∈ sources) : s.ways ⊆ sources.flatMap Source.ways :=
    fun w hw => mem_flatMap.mpr ⟨s, hs, hw⟩
  have hnone : Recalls (required sources) (sources.flatMap Source.ways) [] {} := by simp [Recalls]
  obtain ⟨rfl, rfl, hshallow⟩ := planSources_eq hall hways hnone hplan
  exact ⟨rfl, rfl, fun w hw houter => (hshallow w hw houter).resolve_left (by simp)⟩

end Pushdown
