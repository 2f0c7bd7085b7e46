import Pushdown.Proofs.Ways

/-!
# The stages for the ways of a FROM clause

`stagesFor`: the stages stand in the order in which their ways are first visited, but for the computed fields, which
share one stage where the first of them is. `prestages_visits`: as long as the paths under which they are read tell
the ways apart (`PlacesApart`), the plan holds one stage for each way that has to be read (`planned`).
-/

namespace Pushdown

open List Prestage Prestages

def Prestage.fields : Prestage → List (String × Bson)
  | .compute fields => fields
  | _ => []

def Prestages.fields (stages : Prestages) : List (String × Bson) := stages.flatMap Prestage.fields

namespace Prestages

variable {stages : Prestages} {path : String}

theorem flatten_of_mem (h : .flatten path ∈ stages) : stages.flatten path = stages := by
  rw [flatten, if_pos (any_eq_true.mpr ⟨_, h, by simp [isFlattenOf]⟩)]

theorem flatten_of_not_mem (h : .flatten path ∉ stages) :
    stages.flatten path = stages.filter (!isPresentOf path ·) ++ [.flatten path] := by
  have hnone : ∀ stage ∈ stages, ¬stage.isFlattenOf path := by
    rintro (p | p | fields) hmem
    · simp [isFlattenOf]
    · have hp : p ≠ path := fun heq => h (heq ▸ hmem)
      simp [isFlattenOf, hp]
    · simp [isFlattenOf]
  rw [flatten, if_neg (by simpa using hnone)]

theorem flatten_of_free (h : ∀ stage ∈ stages, stage.path? ≠ some path) :
    stages.flatten path = stages ++ [.flatten path] := by
  have hpresent : stages.filter (!isPresentOf path ·) = stages := by
    rw [filter_eq_self]
    rintro (p | p | fields) hmem
    · simpa [isPresentOf, path?] using h _ hmem
    · simp [isPresentOf]
    · simp [isPresentOf]
  rw [flatten_of_not_mem fun hmem => h _ hmem rfl, hpresent]

theorem requirePresent_of_mem (h : .present path ∈ stages) : stages.requirePresent path = stages := by
  rw [requirePresent, if_pos (any_eq_true.mpr ⟨_, h, by simp [path?]⟩)]

theorem requirePresent_of_free (h : ∀ stage ∈ stages, stage.path? ≠ some path) :
    stages.requirePresent path = stages ++ [.present path] := by
  have hfree : stages.any (·.path? == some path) = false := by simpa using h
  rw [requirePresent, hfree]
  rfl

theorem free_compute (h : ∀ stage ∈ stages, stage.path? ≠ some path) (name : String) (value : Bson) :
    ∀ stage ∈ stages.compute name value, stage.path? ≠ some path := by
  intro stage hstage
  rw [compute] at hstage
  split at hstage
  · obtain ⟨old, hold, rfl⟩ := mem_map.mp hstage
    cases old with
    | compute fields => simp [Prestage.withField, path?]
    | present p | flatten p => exact h _ hold
  · rcases mem_append.mp hstage with hold | hnew
    · exact h stage hold
    · rw [mem_singleton.mp hnew]
      simp [path?]

end Prestages

theorem HopPlan.orEmptyElement_injective {a b : String} (h : orEmptyElement a = orEmptyElement b) : a = b := by
  simpa [orEmptyElement, Bson.opList, Bson.op] using h

namespace Way

variable (required : List String) {visits : List Way}

def isPlanned (w : Way) : Bool := w.hop.isArray || required.contains w.key

theorem isPlanned_iff {required : List String} {w : Way} :
    w.isPlanned required ↔ w.hop.isArray ∨ w.key ∈ required := by
  simp [isPlanned]

theorem isPlanned_of_isOuter {required : List String} {w : Way} (h : w.isOuter required) : w.isPlanned required :=
  isPlanned_iff.mpr (.inl (isOuter_iff.mp h).1)

def place (w : Way) : String := if w.isOuter required then w.name else w.key

def stage (w : Way) : Prestage :=
  if w.hop.isArray then .flatten (w.place required) else .present (w.place required)

/-- The computed field under which an array is read that only rows which may be absent need. -/
def fragment (w : Way) : String × Bson := (w.name, HopPlan.orEmptyElement w.key)

/-- The stages for ways that are visited once: at the first array that only rows which may be absent
need, the fields for all such arrays are computed. -/
def stagesFor : List Way → Prestages
  | [] => []
  | w :: ways =>
    if w.isOuter required then
      .compute (((w :: ways).filter (isOuter required)).map fragment) :: (w :: ways).map (stage required)
    else w.stage required :: stagesFor ways

variable {required} {ways : List Way} {w : Way}

@[simp] theorem path?_stage : (w.stage required).path? = some (w.place required) := by
  rw [stage]
  split <;> rfl

@[simp] theorem withField_stage (name : String) (value : Bson) :
    (w.stage required).withField name value = w.stage required := by
  rw [stage]
  split <;> rfl

@[simp] theorem fields_stage : (w.stage required).fields = [] := by
  rw [stage]
  split <;> rfl

@[simp] theorem isCompute_stage : (w.stage required).isCompute = false := by
  rw [stage]
  split <;> rfl

theorem filter_path?_stagesFor (ways : List Way) (path : String) :
    (stagesFor required ways).filter (·.path? == some path) =
      (ways.filter (·.place required == path)).map (stage required) := by
  have hmap (ways : List Way) : (ways.map (stage required)).filter (·.path? == some path) =
      (ways.filter (·.place required == path)).map (stage required) := by
    simp [filter_map, Function.comp_def]
  induction ways with
  | nil => rfl
  | cons w ways ih =>
    rw [stagesFor]
    split
    · exact hmap (w :: ways)
    · rw [filter_cons, filter_cons, ih]
      by_cases hplace : w.place required = path <;> simp [hplace]

theorem stagesFor_inner (h : ∀ w ∈ ways, w.isOuter required = false) :
    stagesFor required ways = ways.map (stage required) := by
  induction ways with
  | nil => rfl
  | cons w ways ih =>
    obtain ⟨hw, hways⟩ := forall_mem_cons.mp h
    simp [stagesFor, hw, ih hways]

theorem stagesFor_outer {early late : List Way} (h : ∀ v ∈ early, v.isOuter required = false)
    (hw : w.isOuter required) :
    stagesFor required (early ++ w :: late) = early.map (stage required) ++
      .compute (((w :: late).filter (isOuter required)).map fragment) :: (w :: late).map (stage required) := by
  induction early with
  | nil => simp [stagesFor, hw]
  | cons v early ih =>
    obtain ⟨hv, hearly⟩ := forall_mem_cons.mp h
    simp [stagesFor, hv, ih hearly]

theorem exists_split (required : List String) (ways : List Way) :
    (∀ w ∈ ways, w.isOuter required = false) ∨
      ∃ early w late, ways = early ++ w :: late ∧ w.isOuter required ∧ ∀ v ∈ early, v.isOuter required = false := by
  cases hfind : ways.find? (isOuter required) with
  | none => exact .inl (by simpa using hfind)
  | some w =>
    obtain ⟨hw, early, late, rfl, hearly⟩ := find?_eq_some_iff_append.mp hfind
    exact .inr ⟨early, w, late, rfl, hw, by simpa using hearly⟩

theorem fields_stagesFor (ways : List Way) :
    (stagesFor required ways).fields = (ways.filter (isOuter required)).map fragment := by
  have hmap (ways : List Way) : Prestages.fields (ways.map (stage required)) = [] := by
    simp [Prestages.fields, flatMap_map]
  induction ways with
  | nil => rfl
  | cons w ways ih =>
    rw [stagesFor]
    split
    · rw [Prestages.fields, flatMap_cons, ← Prestages.fields, hmap, append_nil]
      rfl
    · rename_i hinner
      rw [Prestages.fields, flatMap_cons, ← Prestages.fields, ih]
      simp [hinner]

theorem stagesFor_concat_inner (h : w.isOuter required = false) :
    stagesFor required (ways ++ [w]) = stagesFor required ways ++ [w.stage required] := by
  rcases exists_split required ways with hinner | ⟨early, v, late, rfl, hv, hearly⟩
  · rw [stagesFor_inner hinner, stagesFor_inner (by simpa [or_imp, forall_and, h] using hinner)]
    simp
  · rw [append_assoc, cons_append, stagesFor_outer hearly hv, stagesFor_outer hearly hv]
    simp [hv, h]

theorem stagesFor_concat_outer (h : w.isOuter required) (hfree : ∀ v ∈ ways, v.isOuter required → v.name ≠ w.name) :
    stagesFor required (ways ++ [w]) =
      (stagesFor required ways).compute w.name (HopPlan.orEmptyElement w.key) ++ [w.stage required] := by
  rcases exists_split required ways with hinner | ⟨early, v, late, rfl, hv, hearly⟩
  · rw [stagesFor_inner hinner, stagesFor_outer hinner h, Prestages.compute, if_neg (by simp)]
    simp [h, fragment]
  · have hfields : (((v :: late).filter (isOuter required)).map fragment).filter (·.1 ≠ w.name) =
        ((v :: late).filter (isOuter required)).map fragment := by
      rw [filter_eq_self, forall_mem_map]
      intro u hu
      obtain ⟨hu, houter⟩ := mem_filter.mp hu
      exact decide_eq_true (hfree u (mem_append_right _ hu) houter)
    have hkeep (l : List Way) : (l.map (stage required)).map
        (Prestage.withField w.name (HopPlan.orEmptyElement w.key)) = l.map (stage required) := by
      simp
    rw [append_assoc, cons_append, stagesFor_outer hearly hv, stagesFor_outer hearly hv,
      Prestages.compute, if_pos (by simp [Prestage.isCompute]), map_append, hkeep,
      map_cons (a := Prestage.compute _), hkeep, Prestage.withField, hfields]
    simp [hv, h, fragment]

variable {stages : Prestages}

theorem addStage_of_mem (h : w.stage required ∈ stages) :
    (if w.hop.isArray then stages.flatten (w.place required)
      else stages.requirePresent (w.place required)) = stages := by
  rw [stage] at h
  split at h
  · rw [if_pos ‹_›, flatten_of_mem h]
  · rw [if_neg ‹_›, requirePresent_of_mem h]

theorem addStage_of_free (h : ∀ stage ∈ stages, stage.path? ≠ some (w.place required)) :
    (if w.hop.isArray then stages.flatten (w.place required)
      else stages.requirePresent (w.place required)) = stages ++ [w.stage required] := by
  rw [stage]
  split
  · exact flatten_of_free h
  · exact requirePresent_of_free h

/-- The ways for which there are stages, in the order of the first visits. -/
def planned (required : List String) (visits : List Way) : List Way :=
  visits.eraseDups.filter (isPlanned required)

theorem mem_planned : w ∈ planned required visits ↔ w ∈ visits ∧ w.isPlanned required := by
  simp [planned]

theorem nodup_planned (visits : List Way) : (planned required visits).Nodup :=
  (nodup_eraseDups visits).filter _

theorem planned_concat_new (hw : w.isPlanned required) (hnew : w ∉ visits) :
    planned required (visits ++ [w]) = planned required visits ++ [w] := by
  simp [planned, eraseDups_concat, hnew, hw]

theorem planned_concat_old (hw : w.isPlanned required → w ∈ visits) :
    planned required (visits ++ [w]) = planned required visits := by
  rw [planned, eraseDups_concat]
  split
  · rfl
  · rename_i hnew
    have hfree : ¬w.isPlanned required := fun hplanned => hnew (hw hplanned)
    simp [planned, hfree]

theorem stage_mem_stagesFor (hw : w ∈ ways) : w.stage required ∈ stagesFor required ways := by
  rcases exists_split required ways with hinner | ⟨early, v, late, rfl, hv, hearly⟩
  · rw [stagesFor_inner hinner]
    exact mem_map_of_mem hw
  · rw [stagesFor_outer hearly hv]
    rcases mem_append.mp hw with hw | hw
    · exact mem_append_left _ (mem_map_of_mem hw)
    · exact mem_append_right _ (mem_cons_of_mem _ (mem_map_of_mem hw))

def PlacesApart (required : List String) (all : List Way) : Prop :=
  ∀ v ∈ all, ∀ w ∈ all, v.isPlanned required → w.isPlanned required → v.place required = w.place required → v = w

section PlacesApart

variable {all : List Way} (hplaces : PlacesApart required all) (hvisits : visits ⊆ all)
include hplaces hvisits

theorem filter_stages_eq (hw : w ∈ visits) (hplanned : w.isPlanned required) :
    (stagesFor required (planned required visits)).filter (·.path? == some (w.place required)) =
      [w.stage required] := by
  rw [filter_path?_stagesFor, filter_eq_singleton (nodup_planned visits) (mem_planned.mpr ⟨hw, hplanned⟩)]
  · rfl
  · intro v hv
    obtain ⟨hv, hplanned'⟩ := mem_planned.mp hv
    simp only [beq_iff_eq]
    exact ⟨hplaces v (hvisits hv) w (hvisits hw) hplanned' hplanned, fun heq => by rw [heq]⟩

theorem filter_fields_eq (hw : w ∈ visits) (houter : w.isOuter required) :
    (stagesFor required (planned required visits)).fields.filter (·.1 == w.name) = [w.fragment] := by
  have hfilter : ((planned required visits).filter (isOuter required)).filter (·.name == w.name) = [w] := by
    refine filter_eq_singleton ((nodup_planned visits).filter _)
      (mem_filter.mpr ⟨mem_planned.mpr ⟨hw, isPlanned_of_isOuter houter⟩, houter⟩) fun v hv => ?_
    obtain ⟨hv, houter'⟩ := mem_filter.mp hv
    have hname := hplaces v (hvisits (mem_planned.mp hv).1) w (hvisits hw) (mem_planned.mp hv).2
      (isPlanned_of_isOuter houter)
    rw [place, if_pos houter', place, if_pos houter] at hname
    simp only [beq_iff_eq]
    exact ⟨hname, fun heq => by rw [heq]⟩
  rw [fields_stagesFor, filter_map]
  exact congrArg (List.map fragment) hfilter

end PlacesApart

end Way

namespace HopPlan

open Way

variable {required : List String} {all visits : List Way} {w : Way}

theorem free_stagesFor (hplaces : PlacesApart required all) (hvisits : visits ⊆ all) (hw : w ∈ all)
    (hplanned : w.isPlanned required) (hnew : w ∉ visits) :
    ∀ stage ∈ stagesFor required (planned required visits), stage.path? ≠ some (w.place required) := by
  intro stage hstage hpath
  have hmem : stage ∈ (stagesFor required (planned required visits)).filter
      (·.path? == some (w.place required)) := mem_filter.mpr ⟨hstage, by simpa using hpath⟩
  rw [filter_path?_stagesFor] at hmem
  obtain ⟨v, hv, -⟩ := mem_map.mp hmem
  obtain ⟨hv, hplace⟩ := mem_filter.mp hv
  obtain ⟨hv, hplanned'⟩ := mem_planned.mp hv
  exact hnew (hplaces v (hvisits hv) w hw hplanned' hplanned (beq_iff_eq.mp hplace) ▸ hv)

theorem prestages_visit (hplaces : PlacesApart required all) (hvisits : visits ⊆ all) (hw : w ∈ all)
    {plan : HopPlan} (hrecalls : Recalls required all visits plan)
    (hstages : plan.prestages = stagesFor required (planned required visits)) :
    (plan.visit required w).prestages = stagesFor required (planned required (visits ++ [w])) := by
  unfold visit
  split
  · rename_i hsome
    obtain ⟨known, hknown⟩ := Option.isSome_iff_exists.mp hsome
    rw [hstages, planned_concat_old fun _ => ((hrecalls w hw known).mp hknown).2.1]
  · rename_i hnone
    split
    · rename_i hrequired
      have hmem : w.key ∈ required := by simpa using hrequired
      have hplanned : w.isPlanned required := isPlanned_iff.mpr (.inr hmem)
      have hinner : w.isOuter required = false := by simp [isOuter, hmem]
      have hplace : w.place required = w.key := by simp [place, hinner]
      show (if w.hop.isArray then _ else _) = _
      rw [hstages, ← hplace]
      by_cases hold : w ∈ visits
      · rw [planned_concat_old fun _ => hold, addStage_of_mem (stage_mem_stagesFor (mem_planned.mpr ⟨hold, hplanned⟩))]
      · rw [planned_concat_new hplanned hold, stagesFor_concat_inner hinner,
          addStage_of_free (free_stagesFor hplaces hvisits hw hplanned hold)]
    · rename_i hfree
      have hfree : w.key ∉ required := by simpa using hfree
      split
      · rename_i harray
        have houter : w.isOuter required := isOuter_iff.mpr ⟨harray, hfree⟩
        have hplanned : w.isPlanned required := isPlanned_iff.mpr (.inl harray)
        have hplace : w.place required = w.name := by simp [place, houter]
        have hnew : w ∉ visits := by
          intro hold
          rw [(hrecalls w hw _).mpr ⟨rfl, hold, houter⟩] at hnone
          simp at hnone
        have hpaths := free_stagesFor hplaces hvisits hw hplanned hnew
        rw [hplace] at hpaths
        have hnames (v : Way) (hv : v ∈ planned required visits) (houter' : v.isOuter required) :
            v.name ≠ w.name := by
          simpa [place, houter'] using hpaths _ (stage_mem_stagesFor hv)
        rw [planned_concat_new hplanned hnew, stagesFor_concat_outer houter hnames, stage, if_pos harray,
          hplace, hstages]
        exact flatten_of_free (free_compute hpaths _ _)
      · rename_i hsingle
        have hskipped : ¬w.isPlanned required := by
          rw [isPlanned_iff]
          simp [hsingle, hfree]
        rw [hstages, planned_concat_old fun hplanned => absurd hplanned hskipped]

theorem prestages_visits (hall : Told required all) (hplaces : PlacesApart required all) (hvisits : visits ⊆ all) :
    (visits.foldl (visit required) {}).prestages = stagesFor required (planned required visits) := by
  suffices h : Recalls required all visits (visits.foldl (visit required) {}) ∧
      (visits.foldl (visit required) {}).prestages = stagesFor required (planned required visits) from h.2
  induction visits using List.reverseRecOn with
  | nil => exact ⟨by simp [Recalls], rfl⟩
  | append_singleton visits w ih =>
    obtain ⟨hvisits, hw⟩ := append_subset.mp hvisits
    have hw : w ∈ all := hw (mem_singleton_self w)
    obtain ⟨hrecalls, hstages⟩ := ih hvisits
    rw [foldl_concat]
    exact ⟨recalls_visit hall hrecalls hw, prestages_visit hplaces hvisits hw hrecalls hstages⟩

end HopPlan

end Pushdown
