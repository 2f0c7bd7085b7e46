import Pushdown.Proofs.Prestages

/-!
# Requests for stages

Stages are asked for one by one (`StageRequest`), in any order and as often as there is a use for them.
`requests_settled`: which stages there are depends on what was ever asked for, and their order on when that was
first asked for.
-/

namespace Pushdown

open List Prestage

inductive StageRequest where
  | present (path : String)
  | flatten (path : String)
  | compute (name : String) (value : Bson)

namespace StageRequest

/-- The document that a request is about. -/
def path? : StageRequest → Option String
  | present path | flatten path => some path
  | compute .. => none

/-- The value that a request gives to the computed field `name`. -/
def value? (name : String) : StageRequest → Option Bson
  | compute n value => if n = name then some value else none
  | _ => none

end StageRequest

namespace Prestage

/-- Whether a stage is still there, with its kind, after a request: only a request to flatten takes a
stage away. -/
def outlives (stage : Prestage) : StageRequest → Bool
  | .flatten path => !stage.isPresentOf path
  | _ => true

/-- The kind of a stage and its document. -/
def withoutFields : Prestage → Prestage
  | .compute _ => .compute []
  | stage => stage

end Prestage

namespace Prestages

variable {stages : Prestages} {path : String} {request : StageRequest}

def handle (stages : Prestages) : StageRequest → Prestages
  | .present path => stages.requirePresent path
  | .flatten path => stages.flatten path
  | .compute name value => stages.compute name value

def ofRequests (requests : List StageRequest) : Prestages := requests.foldl handle []

theorem ofRequests_concat (requests : List StageRequest) (request : StageRequest) :
    ofRequests (requests ++ [request]) = (ofRequests requests).handle request :=
  foldl_concat ..

/-- The stages for the document at a path, or those for computed fields. -/
def about (path? : Option String) (stages : Prestages) : Prestages := stages.filter (·.path? == path?)

theorem about_concat (path? : Option String) (stage : Prestage) :
    (stages ++ [stage]).about path? = stages.about path? ++ if stage.path? = path? then [stage] else [] := by
  simp [about, filter_cons]

theorem about_map_withField (path? : Option String) (name : String) (value : Bson) :
    about path? (stages.map (withField name value)) = (stages.about path?).map (withField name value) := by
  have hpath : (·.path? == path?) ∘ withField name value = (·.path? == path?) := by
    funext stage
    cases stage <;> rfl
  rw [about, filter_map, hpath]
  rfl

theorem about_handle_of_ne {path? : Option String} (h : request.path? ≠ path?) :
    (stages.handle request).about path? = stages.about path? := by
  cases request with
  | present p =>
    rw [handle, requirePresent]
    split
    · rfl
    · rw [about_concat, if_neg (by exact h), append_nil]
  | flatten p =>
    have hkeep : ∀ stage ∈ stages, (stage.path? == path? && !stage.isPresentOf p) = (stage.path? == path?) := by
      rintro (q | q | fields) -
      · by_cases hq : q = p
        · have hne : (some p == path?) = false := beq_false_of_ne h
          simp [Prestage.path?, hq, hne]
        · simp [isPresentOf, hq]
      · simp [isPresentOf]
      · simp [isPresentOf]
    rw [handle, flatten]
    split
    · rfl
    · rw [about_concat, if_neg (by exact h), append_nil, about, filter_filter, filter_congr hkeep]
      rfl
  | compute name value =>
    rw [handle, compute]
    split
    · rw [about_map_withField]
      refine (map_congr_left fun stage hstage => ?_).trans (map_id _)
      cases stage with
      | compute fields => exact absurd (beq_iff_eq.mp (mem_filter.mp hstage).2) h
      | present p | flatten p => rfl
    · rw [about_concat, if_neg (by exact h), append_nil]

theorem about_requirePresent :
    (stages.requirePresent path).about (some path) =
      if stages.about (some path) = [] then [.present path] else stages.about (some path) := by
  split
  · rename_i hfree
    rw [requirePresent_of_free (by simpa [about] using hfree), about_concat, hfree]
    simp [Prestage.path?]
  · rename_i hfree
    have hany : stages.any (·.path? == some path) := by simpa [about] using hfree
    rw [requirePresent, if_pos hany]

theorem about_flatten (h : .flatten path ∈ stages → stages.about (some path) = [.flatten path]) :
    (stages.flatten path).about (some path) = [.flatten path] := by
  by_cases hmem : .flatten path ∈ stages
  · rw [flatten_of_mem hmem, h hmem]
  · have hnone : about (some path) (stages.filter (!isPresentOf path ·)) = [] := by
      rw [about, filter_filter, filter_eq_nil_iff]
      rintro (p | p | fields) hstage
      · simp [Prestage.path?, isPresentOf]
      · have hp : p ≠ path := fun heq => hmem (heq ▸ hstage)
        simp [Prestage.path?, hp]
      · simp [Prestage.path?]
    rw [flatten_of_not_mem hmem, about_concat, hnone]
    simp [Prestage.path?]

theorem about_compute (name : String) (value : Bson) :
    (stages.compute name value).about none =
      if stages.about none = [] then [.compute [(name, value)]]
      else (stages.about none).map (withField name value) := by
  have hcompute : stages.any isCompute ↔ stages.about none ≠ [] := by
    have hkey : isCompute = (·.path? == none) := by
      funext stage
      cases stage <;> rfl
    simp [hkey, about]
  rw [compute]
  split
  · rename_i hany
    rw [if_neg (hcompute.mp hany), about_map_withField]
  · rename_i hany
    have hnone : stages.about none = [] := not_not.mp fun h => hany (hcompute.mpr h)
    rw [about_concat, hnone]
    rfl

open Classical in
theorem about_document (requests : List StageRequest) (path : String) :
    (ofRequests requests).about (some path) =
      if .flatten path ∈ requests then [.flatten path]
      else if .present path ∈ requests then [.present path] else [] := by
  induction requests using reverseRecOn with
  | nil => rfl
  | append_singleton requests request ih =>
    rw [ofRequests_concat]
    by_cases hpath : request.path? = some path
    · cases request with
      | present p =>
        cases hpath
        rw [handle, about_requirePresent, ih]
        by_cases hflatten : StageRequest.flatten path ∈ requests <;>
          by_cases hpresent : StageRequest.present path ∈ requests <;> simp [hflatten, hpresent]
      | flatten p =>
        cases hpath
        rw [handle, about_flatten]
        · simp
        · intro hmem
          have hmem : .flatten path ∈ (ofRequests requests).about (some path) :=
            mem_filter.mpr ⟨hmem, beq_self_eq_true _⟩
          rw [ih] at hmem ⊢
          split_ifs at hmem ⊢ <;> simp at hmem ⊢
      | compute name value => cases hpath
    · have hne : ∀ request', request'.path? = some path → request' ≠ request := fun _ h heq => hpath (heq ▸ h)
      rw [about_handle_of_ne hpath, ih]
      simp [hne (.flatten path) rfl, hne (.present path) rfl]

theorem exists_fields_ofRequests (requests : List StageRequest) :
    ∃ fields, (ofRequests requests).about none = (if fields.isEmpty then [] else [.compute fields]) ∧
      ∀ name, fields.filter (·.1 == name) = ((requests.filterMap (·.value? name)).getLast?.map (name, ·)).toList := by
  induction requests using reverseRecOn with
  | nil => exact ⟨[], rfl, fun _ => rfl⟩
  | append_singleton requests request ih =>
    obtain ⟨fields, hstage, hvalues⟩ := ih
    rw [ofRequests_concat]
    cases request with
    | present p | flatten p =>
      refine ⟨fields, ?_, fun name => ?_⟩
      · rw [about_handle_of_ne (by simp [StageRequest.path?]), hstage]
      · rw [hvalues, filterMap_append]
        simp [StageRequest.value?]
    | compute name value =>
      refine ⟨fields.filter (·.1 ≠ name) ++ [(name, value)], ?_, fun other => ?_⟩
      · rw [handle, about_compute, hstage]
        cases fields with
        | nil => simp
        | cons field fields => simp [withField]
      · rw [filter_append, filter_filter, filterMap_append]
        by_cases hother : name = other
        · subst hother
          simp [StageRequest.value?]
        · have hkeep : ∀ field ∈ fields, (field.1 == other && decide (field.1 ≠ name)) = (field.1 == other) := by
            intro field _
            by_cases hfield : field.1 = other
            · simp [hfield, Ne.symm hother]
            · simp [hfield]
          rw [filter_congr hkeep, hvalues]
          simp [StageRequest.value?, hother]

theorem prefix_requirePresent : stages <+: stages.requirePresent path := by
  rw [requirePresent]
  split
  · exact prefix_rfl
  · exact prefix_append ..

theorem prefix_handle (request : StageRequest) (h : ∀ path, .flatten path ∈ stages → .present path ∉ stages) :
    (stages.filter (·.outlives request)).map withoutFields <+: (stages.handle request).map withoutFields := by
  cases request with
  | present path =>
    have hall : stages.filter (·.outlives (.present path)) = stages := filter_eq_self.mpr fun _ _ => rfl
    rw [hall]
    exact prefix_requirePresent.map _
  | flatten path =>
    rw [handle]
    by_cases hmem : .flatten path ∈ stages
    · have hall : stages.filter (·.outlives (.flatten path)) = stages := by
        rw [filter_eq_self]
        rintro (p | p | fields) hstage
        · have hp : p ≠ path := fun heq => h path hmem (heq ▸ hstage)
          simp [outlives, isPresentOf, hp]
        · rfl
        · rfl
      simp only [flatten_of_mem hmem, hall, prefix_rfl]
    · rw [flatten_of_not_mem hmem]
      exact (prefix_append ..).map _
  | compute name value =>
    have hall : stages.filter (·.outlives (.compute name value)) = stages := filter_eq_self.mpr fun _ _ => rfl
    rw [hall, handle, compute]
    split
    · have hkind : withoutFields ∘ withField name value = withoutFields := by
        funext stage
        cases stage <;> rfl
      simp only [map_map, hkind, prefix_rfl]
    · exact (prefix_append ..).map _

theorem present_not_mem_ofRequests {requests : List StageRequest} (h : .flatten path ∈ ofRequests requests) :
    .present path ∉ ofRequests requests := by
  intro hpresent
  have hmem {stage : Prestage} (hstage : stage ∈ ofRequests requests) (hpath : stage.path? = some path) :
      stage ∈ (ofRequests requests).about (some path) :=
    mem_filter.mpr ⟨hstage, beq_iff_eq.mpr hpath⟩
  have hflatten := hmem h rfl
  have hpresent := hmem hpresent rfl
  rw [about_document] at hflatten hpresent
  split_ifs at hflatten hpresent <;> simp at hflatten hpresent

theorem prefix_ofRequests (requests more : List StageRequest) :
    ((ofRequests requests).filter fun stage => more.all stage.outlives).map withoutFields <+:
      (ofRequests (requests ++ more)).map withoutFields := by
  induction more using reverseRecOn with
  | nil => simp
  | append_singleton more request ih =>
    have hlast : (fun stage : Prestage => (more ++ [request]).all stage.outlives) =
        fun stage => (stage.outlives request && more.all stage.outlives) := by
      funext stage
      simp [Bool.and_comm]
    have hkind : (outlives · request) ∘ withoutFields = (outlives · request) := by
      funext stage
      cases stage <;> rfl
    have hkept := ih.filter (outlives · request)
    rw [filter_map, filter_map, hkind, filter_filter, ← hlast] at hkept
    rw [← append_assoc, ofRequests_concat]
    exact hkept.trans (prefix_handle request fun _ => present_not_mem_ofRequests)

open Classical in
/-- Each document that was ever asked for has one stage, which flattens it just when that was asked for. There is at
most one stage for computed fields, which gives each field its last value. Asking for a document leaves the stages
that are there as they are. Stages that have their final kind (`outlives`) stay in their order in front of all
others. -/
theorem requests_settled (requests : List StageRequest) :
    (∀ path, (ofRequests requests).about (some path) =
      if .flatten path ∈ requests then [.flatten path] else if .present path ∈ requests then [.present path] else []) ∧
    (∃ fields, (ofRequests requests).about none = (if fields.isEmpty then [] else [.compute fields]) ∧
      ∀ name, fields.filter (·.1 == name) = ((requests.filterMap (·.value? name)).getLast?.map (name, ·)).toList) ∧
    (∀ path, ofRequests requests <+: ofRequests (requests ++ [.present path])) ∧
    ∀ more, ((ofRequests requests).filter fun stage => more.all stage.outlives).map withoutFields <+:
      (ofRequests (requests ++ more)).map withoutFields := by
  refine ⟨about_document requests, exists_fields_ofRequests requests, fun path => ?_, prefix_ofRequests requests⟩
  rw [ofRequests_concat]
  exact prefix_requirePresent

end Prestages

end Pushdown
