import Mathlib.Data.List.Induction
import Pushdown.Proofs.OutputPaths
import Pushdown.Proofs.TouchedPaths

/-!
# The stored fields that a query keeps

`early_projection_keeps_covering`: a projection ahead of the match keeps a `Covering` of the stored fields that the
query reads, since the store refuses one that names a field and another one inside it. Paths are met in any order: a
path inside a kept one is passed over (`pass`), and kept paths inside a new one give way to it (`keep`).
-/

namespace Pushdown

open List

/-- Of the paths, such are kept that none leads to another and that every path is led to by one of them. -/
structure Path.Covering (paths kept : List String) : Prop where
  subset : kept ⊆ paths
  apart : kept.Pairwise fun p q => ¬LeadsTo p q ∧ ¬LeadsTo q p
  covered : ∀ path ∈ paths, ∃ p ∈ kept, LeadsTo p path

namespace Path.Covering

variable {paths kept : List String} {path : String}

theorem pass (h : Covering paths kept) (hcovered : ∃ p ∈ kept, LeadsTo p path) : Covering (paths ++ [path]) kept where
  subset := subset_append_of_subset_left _ h.subset
  apart := h.apart
  covered := forall_mem_append.mpr ⟨h.covered, forall_mem_singleton.mpr hcovered⟩

theorem keep (h : Covering paths kept) (hnew : ∀ p ∈ kept, ¬LeadsTo p path) :
    Covering (paths ++ [path]) (kept.filter (!covers path ·) ++ [path]) where
  subset := append_subset.mpr ⟨fun p hp => mem_append_left _ (h.subset (mem_of_mem_filter hp)), subset_append_right ..⟩
  apart := by
    refine pairwise_append.mpr ⟨h.apart.filter _, pairwise_singleton .., fun p hp q hq => ?_⟩
    obtain ⟨hp, hout⟩ := mem_filter.mp hp
    rw [mem_singleton.mp hq]
    exact ⟨hnew p hp, fun hin => by simp [split_prefix_iff.mp hin] at hout⟩
  covered := by
    refine forall_mem_append.mpr ⟨fun other hother => ?_, forall_mem_singleton.mpr ?_⟩
    · -- what was led to by a path that gives way is led to by the new one
      obtain ⟨p, hp, hleads⟩ := h.covered other hother
      by_cases hin : LeadsTo path p
      · exact ⟨path, mem_append_right _ (mem_singleton_self _), hin.trans hleads⟩
      · refine ⟨p, mem_append_left _ (mem_filter.mpr ⟨hp, ?_⟩), hleads⟩
        simpa using mt split_prefix_iff.mpr hin
    · exact ⟨path, mem_append_right _ (mem_singleton_self _), prefix_rfl⟩

end Path.Covering

/-- The name under which a stored field is kept. -/
def ProjectedField.kept? (name : String) : ProjectedField → Option String
  | .keep => some name
  | .computed _ => none

def Projection.kept (p : Projection) : List String := p.fields.filterMap fun f => f.2.kept? f.1

namespace Select

theorem covering_coveringPaths (paths : List String) : Path.Covering paths (coveringPaths paths) := by
  induction paths using List.reverseRecOn with
  | nil => exact ⟨List.Subset.refl _, .nil, by simp⟩
  | append_singleton paths path ih =>
    have hleads (p : String) : Path.LeadsTo p path ↔ Path.covers p path := Path.split_prefix_iff
    rw [coveringPaths, foldl_append, foldl_cons, foldl_nil, ← coveringPaths]
    split_ifs with hcovered
    · exact ih.pass (by simpa [hleads] using hcovered)
    · exact ih.keep (by simpa [hleads] using hcovered)

section

variable {σ : Type} {d : Draft σ} {outputs : List Output} {grouped : Bool} {e : Projection}

theorem exists_of_earlyProjection (h : earlyProjection d outputs grouped = .ok e) :
    ∃ computed,
      e.fields = d.helperFields.map (fun f => (f.1, .computed f.2)) ++ computed ++
        (coveringPaths d.registry.fieldPaths).map (·, .keep) ∧
      (∀ f ∈ computed, ∃ o ∈ outputs, f = (o.column.name, .computed o.expression)) ∧
      (grouped = false → earlyOutputs (coveringPaths d.registry.fieldPaths) outputs = .ok computed) := by
  cases grouped with
  | false =>
    obtain ⟨computed, hcomputed, h⟩ := exists_of_bind_ok h
    cases h
    exact ⟨computed, rfl, (earlyOutputs_ok hcomputed).1, fun _ => hcomputed⟩
  | true =>
    cases h
    exact ⟨[], rfl, by simp, by simp⟩

theorem kept_earlyProjection (h : earlyProjection d outputs grouped = .ok e) :
    e.kept = coveringPaths d.registry.fieldPaths := by
  obtain ⟨computed, hfields, hof, -⟩ := exists_of_earlyProjection h
  have hcomputed : computed.filterMap (fun f => f.2.kept? f.1) = [] := by
    refine filterMap_eq_nil_iff.mpr fun f hf => ?_
    obtain ⟨o, -, rfl⟩ := hof f hf
    rfl
  rw [Projection.kept, hfields, filterMap_append, filterMap_append, hcomputed, append_nil, filterMap_map,
    filterMap_map]
  simp [ProjectedField.kept?, Function.comp_def]

/-- What is kept ahead of the match is a `Covering` of the fields that the query reads. Where rows are not grouped,
an output is computed under a name apart from all of them, or is one of them, read under its own name. -/
theorem early_projection_keeps_covering (h : earlyProjection d outputs grouped = .ok e) :
    e.kept ⊆ d.registry.fieldPaths ∧
      e.kept.Pairwise (fun p q => ¬Path.LeadsTo p q ∧ ¬Path.LeadsTo q p) ∧
      (∀ path ∈ d.registry.fieldPaths, ∃ p ∈ e.kept, Path.LeadsTo p path) ∧
      (grouped = false → ∀ o ∈ outputs,
        (o.column.name, .computed o.expression) ∈ e.fields ∧
            (∀ p ∈ e.kept, ¬Path.LeadsTo o.column.name p ∧ ¬Path.LeadsTo p o.column.name) ∨
          o.column.name ∈ e.kept ∧ o.expression = .fieldRef o.column.name) := by
  have hcovering := covering_coveringPaths d.registry.fieldPaths
  obtain ⟨computed, hfields, -, houtputs⟩ := exists_of_earlyProjection h
  rw [kept_earlyProjection h, hfields]
  refine ⟨hcovering.subset, hcovering.apart, hcovering.covered, fun hgrouped o ho => ?_⟩
  rcases (earlyOutputs_ok (houtputs hgrouped)).2 o ho with hread | ⟨hcollides, hmem⟩
  · exact .inr hread
  · exact .inl ⟨by simp [hmem], by simpa [Path.LeadsTo, Path.split_prefix_iff] using hcollides⟩

end

/-- A field of an address is read before the address itself, and `cities` is no part of `city`. -/
theorem early_projection_keeps_covering_addresses :
    let detail (path : String) : String × ColumnDetail := (path, .ofExpression (.fieldRef path))
    let d : Draft Unit :=
      { registry := ["address.city", "city", "address", "cities", "address.zip", "city"].map detail
        objects := () }
    let outputs : List Output :=
      [⟨⟨"city", "city", .string⟩, .fieldRef "city"⟩, ⟨⟨"citizen", "citizen", .string⟩, .fieldRef "address.zip"⟩]
    ∃ e, earlyProjection d outputs false = .ok e ∧ e.kept = ["city", "address", "cities"] ∧
      ∀ p ∈ e.kept, ¬Path.LeadsTo "citizen" p ∧ ¬Path.LeadsTo p "citizen" := by
  intro detail d outputs
  have h : earlyProjection d outputs false =
      .ok ⟨[("citizen", .computed (.fieldRef "address.zip")), ("city", .keep), ("address", .keep),
        ("cities", .keep)], false⟩ := by
    have hkept : coveringPaths d.registry.fieldPaths = ["city", "address", "cities"] := by decide
    rw [earlyProjection, hkept]
    rfl
  refine ⟨_, h, rfl, ?_⟩
  rcases (early_projection_keeps_covering h).2.2.2 rfl _ (mem_cons_of_mem _ (mem_singleton_self _)) with
    ⟨-, hapart⟩ | ⟨hmem, -⟩
  · exact hapart
  · simp [Projection.kept, ProjectedField.kept?] at hmem

end Select

end Pushdown
