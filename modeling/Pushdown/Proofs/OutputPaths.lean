import Pushdown.Proofs.GroupOutputs
import Pushdown.Proofs.OutputNames

/-!
# Where outputs are read

`Pipeline.Writes`: an output is computed or kept on its path by the last projection, or read there from a group.
`Projection.IsTaken`: no field of a projection leads into another, or else the store refuses it.
`output_paths_of_plan` says when every output is written, when the last projection is taken, and which outputs share
a path.
-/

namespace Pushdown

open List

theorem Document.contains_ofFields {fields : List (String × Bson)} {key : String} :
    (ofFields fields).contains key ↔ key ∈ fields.map Prod.fst := by
  rw [contains, get?_ofFields, Option.isSome_iff_exists]
  constructor
  · rintro ⟨v, hv⟩
    exact mem_map.mpr ⟨_, mem_reverse.mp (mem_of_get? hv), rfl⟩
  · intro hmem
    by_contra hnone
    obtain ⟨f, hf, rfl⟩ := mem_map.mp hmem
    simp only [not_exists, ← Option.eq_none_iff_forall_ne_some, get?, lookup_eq_none_iff] at hnone
    exact absurd (hnone f (mem_reverse.mpr hf)) (by simp)

theorem Document.get?_ofFields_append (fields fields' : List (String × Bson)) (key : String) :
    get? (ofFields (fields ++ fields')) key = (get? (ofFields fields') key).or (get? (ofFields fields) key) := by
  rw [get?_ofFields, get?_ofFields, get?_ofFields, reverse_append, get?_append]

namespace Projection

def written (fields : List (String × ProjectedField)) : List (String × Bson) := fields.map fun f => (f.1, f.2.toBson)

theorem toDocument_eq (p : Projection) :
    p.toDocument = Document.ofFields ((if p.excludeId then [("_id", .int32 0)] else []) ++ written p.fields) := by
  rw [toDocument, Document.ofFields, written, foldl_append, foldl_map]
  cases p.excludeId <;> rfl

/-- Whether a projection has an output on its path: it computes it there, or keeps the field that the output
reads. The store has to take the projection as well. -/
def Writes (p : Projection) (o : Output) : Prop :=
  Document.get? p.toDocument o.column.path = some o.expression ∨
    (o.column.path, .keep) ∈ p.fields ∧ Document.get? p.toDocument o.column.path = some (.int32 1) ∧
      o.expression = .fieldRef o.column.path

/-- Whether the store takes a projection: none of its fields leads into another. -/
def IsTaken (p : Projection) : Prop :=
  ∀ a b, p.toDocument.contains a → p.toDocument.contains b → Path.LeadsTo a b → a = b

/-- Whether a projection computes outputs under their names, after other fields, except those that read one of
the fields that are kept. -/
structure Projects (p : Projection) (outputs : List Output) (first computed : List (String × ProjectedField))
    (kept : List String) : Prop where
  fields_eq : p.fields = first ++ computed ++ kept.map fun path => (path, .keep)
  of_first : ∀ f ∈ first, f.2 ≠ .keep
  of_computed : ∀ f ∈ computed, ∃ o ∈ outputs, f = (o.column.name, .computed o.expression)
  of_output : ∀ o ∈ outputs, o.column.name ∈ kept ∧ o.expression = .fieldRef o.column.name ∨
    o.column.name ∉ kept ∧ (o.column.name, .computed o.expression) ∈ computed

namespace Projects

variable {p : Projection} {outputs : List Output} {first computed : List (String × ProjectedField)}
  {kept : List String} {o : Output} {name : String}

variable (h : p.Projects outputs first computed kept)

include h

theorem keep_mem_iff : (name, .keep) ∈ p.fields ↔ name ∈ kept := by
  rw [h.fields_eq, mem_append, mem_append]
  constructor
  · rintro ((hfirst | hcomputed) | hkept)
    · exact absurd rfl (h.of_first _ hfirst)
    · obtain ⟨o, -, ho⟩ := h.of_computed _ hcomputed
      cases ho
    · obtain ⟨path, hpath, heq⟩ := mem_map.mp hkept
      cases heq
      exact hpath
  · exact fun hname => .inr (mem_map.mpr ⟨name, hname, rfl⟩)

theorem get?_toDocument (name : String) :
    ∃ others, Document.get? p.toDocument name = (if name ∈ kept then some (.int32 1) else none).or
      ((Document.get? (Document.ofFields (written computed)) name).or others) := by
  have hkept : Document.get? (Document.ofFields (written (kept.map fun path => (path, .keep)))) name =
      if name ∈ kept then some (.int32 1) else none := by
    split_ifs with hname
    · have hmem := mem_map_of_mem (f := fun path => (path, ProjectedField.keep)) hname
      refine Document.get?_ofFields_of_mem (mem_map.mpr ⟨_, hmem, rfl⟩) fun v hv => ?_
      obtain ⟨f, hf, heq⟩ := mem_map.mp hv
      obtain ⟨path, -, rfl⟩ := mem_map.mp hf
      cases heq
      rfl
    · refine Document.get?_ofFields_eq_none fun v hv => hname ?_
      obtain ⟨f, hf, heq⟩ := mem_map.mp hv
      obtain ⟨path, hpath, rfl⟩ := mem_map.mp hf
      cases heq
      exact hpath
  have hwritten : written p.fields =
      written first ++ written computed ++ written (kept.map fun path => (path, .keep)) := by
    rw [h.fields_eq, written, map_append, map_append]
    rfl
  rw [toDocument_eq, hwritten, ← append_assoc, ← append_assoc, Document.get?_ofFields_append, hkept,
    Document.get?_ofFields_append]
  exact ⟨_, rfl⟩

theorem writes_iff (hpaths : ∀ o ∈ outputs, o.column.path = o.column.name) :
    (∀ o ∈ outputs, p.Writes o) ↔
      ∀ o ∈ outputs, ∀ o' ∈ outputs, o.expression ≠ o'.expression → o.column.path ≠ o'.column.path := by
  constructor
  · intro hall o ho o' ho' hne hpath
    refine hne ?_
    rcases h.of_output o ho with ⟨hkept, hread⟩ | ⟨hnot, -⟩
    · rcases h.of_output o' ho' with ⟨-, hread'⟩ | ⟨hnot', -⟩
      · rw [hread, hread', ← hpaths o ho, hpath, hpaths o' ho']
      · rw [← hpaths o' ho', ← hpath, hpaths o ho] at hnot'
        exact absurd hkept hnot'
    · have hget {o : Output} (ho : p.Writes o) (hnot : o.column.path ∉ kept) :
          Document.get? p.toDocument o.column.path = some o.expression := by
        rcases ho with hget | ⟨hkeep, -⟩
        · exact hget
        · exact absurd (h.keep_mem_iff.mp hkeep) hnot
      rw [← hpaths o ho] at hnot
      have hfirst := hget (hall o ho) hnot
      have hsecond := hget (hall o' ho') (hpath ▸ hnot)
      rw [hpath, hsecond] at hfirst
      exact (Option.some.inj hfirst).symm
  · intro hapart o ho
    obtain ⟨others, hget⟩ := h.get?_toDocument o.column.name
    rw [Writes, hpaths o ho]
    rcases h.of_output o ho with ⟨hkept, hread⟩ | ⟨hnot, hmem⟩
    · rw [if_pos hkept] at hget
      exact .inr ⟨h.keep_mem_iff.mpr hkept, hget, hread⟩
    · have hcomputed : Document.get? (Document.ofFields (written computed)) o.column.name = some o.expression := by
        refine Document.get?_ofFields_of_mem (mem_map.mpr ⟨_, hmem, rfl⟩) fun v hv => ?_
        obtain ⟨f, hf, heq⟩ := mem_map.mp hv
        obtain ⟨o', ho', rfl⟩ := h.of_computed f hf
        obtain ⟨hname, rfl⟩ := Prod.mk.inj heq
        by_contra hne
        exact hapart o' ho' o ho hne (by rw [hpaths o' ho', hpaths o ho]; exact hname)
      rw [if_neg hnot, hcomputed] at hget
      exact .inl hget

theorem apart_of_isTaken (htaken : p.IsTaken) : Path.Apart (outputs.map (·.column.name)) := by
  have hcontains {o : Output} (ho : o ∈ outputs) : p.toDocument.contains o.column.name := by
    rw [toDocument_eq, Document.contains_ofFields, map_append, mem_append, written, h.fields_eq]
    rcases h.of_output o ho with ⟨hkept, -⟩ | ⟨-, hcomputed⟩
    · simp [hkept]
    · simpa using .inr (.inr (.inl ⟨_, hcomputed⟩))
  rintro a ha b hb
  obtain ⟨o, ho, rfl⟩ := mem_map.mp ha
  obtain ⟨o', ho', rfl⟩ := mem_map.mp hb
  exact htaken _ _ (hcontains ho) (hcontains ho')

end Projects

end Projection

/-- Whether the stages of a query have an output on its path: its last projection does, or, where nothing is
projected after grouping, the groups do. -/
def Pipeline.Writes (p : Pipeline) (o : Output) : Prop :=
  match p.projection, p.group with
  | some projection, _ => projection.Writes o
  | none, some g => o.IsReadFrom g
  | none, none => ∃ projection ∈ p.earlyProjection, projection.Writes o

theorem Bson.isFieldRef_iff {path : String} {b : Bson} : b.isFieldRef path ↔ b = .fieldRef path := by
  cases b <;> simp [isFieldRef, fieldRef]

namespace Select

theorem projects_finalProjection (outputs : List Output) :
    (finalProjection outputs).Projects outputs []
      (outputs.map fun o => (o.column.name, .computed o.expression)) [] where
  fields_eq := by rw [nil_append, map_nil, append_nil]; rfl
  of_first := by simp
  of_computed f hf := by
    obtain ⟨o, ho, rfl⟩ := mem_map.mp hf
    exact ⟨o, ho, rfl⟩
  of_output o ho := .inr ⟨by simp, mem_map.mpr ⟨o, ho, rfl⟩⟩

theorem isTaken_finalProjection (outputs : List Output) :
    (finalProjection outputs).IsTaken ↔ Path.Apart ("_id" :: outputs.map (·.column.name)) := by
  have hcontains (key : String) : (finalProjection outputs).toDocument.contains key ↔
      key ∈ "_id" :: outputs.map (·.column.name) := by
    rw [Projection.toDocument_eq, Document.contains_ofFields, map_append, mem_append]
    by_cases hid : "_id" ∈ outputs.map (·.column.name)
    · have hkept : (finalProjection outputs).excludeId = false := by simpa [finalProjection] using hid
      have hmem : key = "_id" → key ∈ outputs.map (·.column.name) := fun heq => heq ▸ hid
      rw [hkept, mem_cons, or_iff_right_of_imp hmem]
      simp [finalProjection, Projection.written]
    · have hexcluded : (finalProjection outputs).excludeId := by simpa [finalProjection] using hid
      rw [hexcluded]
      simp [finalProjection, Projection.written]
  simp only [Projection.IsTaken, Path.Apart, hcontains]
  exact ⟨fun h a ha b hb => h a b ha hb, fun h a b ha hb => h a ha b hb⟩

variable {outputs : List Output}

theorem earlyOutputs_ok {kept : List String} {computed : List (String × ProjectedField)}
    (h : earlyOutputs kept outputs = .ok computed) :
    (∀ f ∈ computed, ∃ o ∈ outputs, f = (o.column.name, .computed o.expression)) ∧
      ∀ o ∈ outputs, o.column.name ∈ kept ∧ o.expression = .fieldRef o.column.name ∨
        (¬ kept.any fun p => Path.covers o.column.name p || Path.covers p o.column.name) ∧
          (o.column.name, .computed o.expression) ∈ computed := by
  induction outputs generalizing computed with
  | nil =>
    cases h
    exact ⟨by simp, by simp⟩
  | cons o outputs ih =>
    rw [earlyOutputs] at h
    split_ifs at h with hthere hcollides
    · obtain ⟨hkept, hread⟩ := Bool.and_eq_true_iff.mp hthere
      obtain ⟨hcomputed, houtputs⟩ := ih h
      refine ⟨fun f hf => ?_, forall_mem_cons.mpr ⟨.inl ⟨by simpa using hkept, ?_⟩, houtputs⟩⟩
      · obtain ⟨o', ho', hf⟩ := hcomputed f hf
        exact ⟨o', mem_cons_of_mem _ ho', hf⟩
      · exact Bson.isFieldRef_iff.mp hread
    · obtain ⟨rest, hrest, h⟩ := exists_of_bind_ok h
      cases h
      obtain ⟨hcomputed, houtputs⟩ := ih hrest
      refine ⟨forall_mem_cons.mpr ⟨⟨o, mem_cons_self .., rfl⟩, fun f hf => ?_⟩,
        forall_mem_cons.mpr ⟨.inr ⟨hcollides, mem_cons_self ..⟩, fun o' ho' => ?_⟩⟩
      · obtain ⟨o', ho', hf⟩ := hcomputed f hf
        exact ⟨o', mem_cons_of_mem _ ho', hf⟩
      · rcases houtputs o' ho' with hread | ⟨hnot', hmem⟩
        · exact .inl hread
        · exact .inr ⟨hnot', mem_cons_of_mem _ hmem⟩

theorem projects_earlyProjection {σ : Type} {d : Draft σ} {e : Projection}
    (h : earlyProjection d outputs false = .ok e) :
    ∃ computed, e.Projects outputs (d.helperFields.map fun f => (f.1, .computed f.2)) computed
      (coveringPaths d.registry.fieldPaths) := by
  rw [earlyProjection] at h
  obtain ⟨computed, hcomputed, h⟩ := exists_of_bind_ok h
  cases h
  obtain ⟨hof, houtputs⟩ := earlyOutputs_ok hcomputed
  refine ⟨computed, rfl, fun f hf => ?_, hof, fun o ho => (houtputs o ho).imp_right ?_⟩
  · obtain ⟨f', -, rfl⟩ := mem_map.mp hf
    simp
  · exact And.imp_left fun hcollides hmem => hcollides (any_eq_true.mpr ⟨_, hmem, by simp [Path.covers]⟩)

namespace Clauses.CompiledFrom

variable {σ : Type} {c : Context σ} {q : Select} {placement : Placement} {r : Clauses σ} {objects : σ}

theorem path_of_compileItems {position : Nat} {used : List String} {items : List SelectItem} {s s' : Draft σ}
    (h : compileItems c .raw position used items s = (.ok outputs, s')) :
    ∀ o ∈ outputs, o.column.path = o.column.name := by
  induction items generalizing position used outputs s with
  | nil =>
    obtain ⟨rfl, -⟩ := Attempt.pure_ok h
    simp
  | cons item items ih =>
    obtain ⟨b, type, s₁, rest, -, hrest, rfl⟩ := compileItems_cons_ok h
    exact forall_mem_cons.mpr ⟨rfl, ih hrest⟩

variable {o : Output} {item : SelectItem}

theorem path_eq_name (h : r.CompiledFrom c placement q { objects })
    (hprojected : r.keys = none ∨ r.selected.helperFields.isEmpty) (ho : o ∈ r.outputs) :
    o.column.path = o.column.name := by
  cases hkeys : r.keys with
  | none =>
    have houtputs := h.outputs
    rw [hkeys] at houtputs
    exact path_of_compileItems houtputs o ho
  | some keys =>
    obtain ⟨item, -, s₁, s₂, -, -, hpath⟩ := exists_left_of_forall₂ (h.items hkeys) ho
    have hempty : r.selected.helperFields.isEmpty := hprojected.resolve_left (by simp [hkeys])
    rw [hpath, hempty]
    rfl

theorem label_of_same_name {s : Draft σ} (h : r.CompiledFrom c placement q s) {i j : Nat} {o' : Output} (hij : i < j)
    (hitem : q.columns[j]? = some item) (ho : r.outputs[i]? = some o) (ho' : r.outputs[j]? = some o')
    (hname : o.column.name = o'.column.name) : item.label = some o.column.name := by
  have hnamed := name_of_compileItems h.outputs hitem ho'
  rw [hname, hnamed]
  refine (label_or_lower_not_mem _ _ item).resolve_right fun hnew => hnew ?_
  rw [← hnamed, ← hname, append_nil, mem_reverse]
  refine mem_map.mpr ⟨o, ?_, rfl⟩
  exact mem_of_getElem? ((getElem?_take_of_lt hij).trans ho)

section

variable {p : Pipeline} (h : r.CompiledFrom c placement q { objects }) (hgives : r.Gives p outputs)

include h hgives

/-- Outputs with one path are the same, or the later has the name of the earlier as its alias, or one of them is
mistaken. -/
theorem of_same_path {i j : Nat} {o' : Output} (hij : i < j) (hitem : q.columns[j]? = some item)
    (ho : r.outputs[i]? = some o) (ho' : r.outputs[j]? = some o') (hpath : o.column.path = o'.column.path) :
    o.expression = o'.expression ∨ item.label = some o.column.name ∨
      p.projection = none ∧ ∃ g ∈ p.group, o.IsMistakenIn g ∨ o'.IsMistakenIn g := by
  have hmem := mem_of_getElem? ho
  have hmem' := mem_of_getElem? ho'
  by_cases hprojected : r.keys = none ∨ r.selected.helperFields.isEmpty
  · rw [h.path_eq_name hprojected hmem, h.path_eq_name hprojected hmem'] at hpath
    exact .inr (.inl (h.label_of_same_name hij hitem ho ho' hpath))
  · obtain ⟨hkeys, hearly⟩ := not_or.mp hprojected
    obtain ⟨keys, hkeys⟩ := Option.ne_none_iff_exists'.mp hkeys
    rw [Bool.not_eq_true] at hearly
    have hnone := hgives.projection_eq_none hearly
    rcases h.isReadFrom_or_isMistakenIn hgives hkeys hearly hmem with hread | hone
    · rcases h.isReadFrom_or_isMistakenIn hgives hkeys hearly hmem' with hread' | hone
      · exact .inl (by rw [hread.2, hread'.2, hpath])
      · exact .inr (.inr ⟨hnone, _, hgives.group_eq_some hkeys, .inr hone⟩)
    · exact .inr (.inr ⟨hnone, _, hgives.group_eq_some hkeys, .inl hone⟩)

theorem writes_iff :
    (∀ o ∈ r.outputs, p.Writes o) ↔
      (∀ o ∈ r.outputs, ∀ o' ∈ r.outputs, o.expression ≠ o'.expression → o.column.path ≠ o'.column.path) ∧
        (p.projection = none → ∀ g ∈ p.group, ∀ o ∈ r.outputs, ¬ o.IsMistakenIn g) := by
  cases hempty : r.selected.helperFields.isEmpty with
  | true =>
    have hprojection : p.projection = some (finalProjection r.outputs) := by
      rw [hgives.projection, hempty]
      rfl
    simp only [Pipeline.Writes, hprojection]
    rw [(projects_finalProjection r.outputs).writes_iff fun o => h.path_eq_name (.inr hempty)]
    simp
  | false =>
    have hnone := hgives.projection_eq_none hempty
    cases hkeys : r.keys with
    | none =>
      have hgroup : p.group = none := by
        rw [hgives.group, hkeys]
        rfl
      obtain ⟨e, he, hsome⟩ := hgives.early hempty
      rw [hkeys] at he
      obtain ⟨computed, hprojects⟩ := projects_earlyProjection he
      simp only [Pipeline.Writes, hnone, hgroup, hsome, Option.mem_some_iff, exists_eq_left']
      rw [hprojects.writes_iff fun o => h.path_eq_name (.inl hkeys)]
      simp
    | some keys =>
      simp only [Pipeline.Writes, hnone, hgives.group_eq_some hkeys, Option.mem_some_iff, forall_eq', forall_const]
      constructor
      · intro hread
        refine ⟨fun o ho o' ho' hne hpath => hne ?_, fun o ho hone => hone.1.not_isReadFrom _ (hread o ho)⟩
        rw [(hread o ho).2, (hread o' ho').2, hpath]
      · rintro ⟨-, hnot⟩ o ho
        exact (h.isReadFrom_or_isMistakenIn hgives hkeys hempty ho).resolve_right (hnot o ho)

theorem isTaken_iff {projection : Projection} (hprojection : p.projection = some projection) :
    projection.IsTaken ↔ Path.Apart ("_id" :: r.outputs.map (·.column.path)) := by
  rw [hgives.projection] at hprojection
  split_ifs at hprojection with hempty
  obtain rfl := Option.some.inj hprojection
  rw [map_congr_left fun o => h.path_eq_name (.inr hempty)]
  exact isTaken_finalProjection r.outputs

theorem apart_of_isTaken {projection : Projection} (hprojection : p.earlyProjection = some projection)
    (hgroup : p.group = none) (htaken : projection.IsTaken) : Path.Apart (r.outputs.map (·.column.path)) := by
  have hkeys : r.keys = none := by simpa [hgives.group] using hgroup
  cases hempty : r.selected.helperFields.isEmpty with
  | true =>
    rw [hgives.late hempty] at hprojection
    cases hprojection
  | false =>
    obtain ⟨e, he, hsome⟩ := hgives.early hempty
    obtain rfl := Option.some.inj (hsome.symm.trans hprojection)
    rw [hkeys] at he
    obtain ⟨computed, hprojects⟩ := projects_earlyProjection he
    rw [map_congr_left fun o => h.path_eq_name (.inl hkeys)]
    exact hprojects.apart_of_isTaken htaken

end

end Clauses.CompiledFrom

/-- Outputs share a path only if they have one expression, if the later repeats the name of the earlier as its
alias, or if one of them `Output.IsMistakenIn` the group. The labels `a` and `a.b` are both written, in a projection
that the store does not take. -/
theorem output_paths_of_plan {c : Catalog} {options : Options} {q : Select} {p : Pipeline} {outputs : List Output}
    (h : q.plan c options = .ok (p, outputs)) :
    (∀ (i j : Nat) (item : SelectItem) (o o' : Output), i < j → q.columns[j]? = some item → outputs[i]? = some o →
      outputs[j]? = some o' → o.column.path = o'.column.path → o.expression = o'.expression ∨
        item.label = some o.column.name ∨
          p.projection = none ∧ ∃ g ∈ p.group, o.IsMistakenIn g ∨ o'.IsMistakenIn g) ∧
      ((∀ o ∈ outputs, p.Writes o) ↔
        (∀ o ∈ outputs, ∀ o' ∈ outputs, o.expression ≠ o'.expression → o.column.path ≠ o'.column.path) ∧
          (p.projection = none → ∀ g ∈ p.group, ∀ o ∈ outputs, ¬ o.IsMistakenIn g)) ∧
      (∀ projection ∈ p.projection, projection.IsTaken ↔ Path.Apart ("_id" :: outputs.map (·.column.path))) ∧
        ∀ projection ∈ p.earlyProjection, p.group = none → projection.IsTaken →
          Path.Apart (outputs.map (·.column.path)) := by
  obtain ⟨placement, r, -, hr, hgives⟩ := exists_clauses_of_plan h
  obtain rfl := hgives.outputs
  refine ⟨fun i j item o o' hij hitem ho ho' => hr.of_same_path hgives hij hitem ho ho', hr.writes_iff hgives,
    fun projection => hr.isTaken_iff hgives, fun projection => hr.apart_of_isTaken hgives⟩

/-- Two columns under one alias are read from the same field, and only the later is written. -/
theorem output_paths_of_plan_points :
    let c : Catalog := .ofTables [
      { name := "points", columns := [⟨"id", .integer, false⟩, ⟨"x", .integer, false⟩, ⟨"y", .integer, false⟩]
        primaryKey := ["id"] }]
    let q (label : String) : Select :=
      { source := ⟨⟨"points", none⟩, []⟩
        columns := [⟨.column ⟨"", "x"⟩, some "a"⟩, ⟨.column ⟨"", "y"⟩, some label⟩] }
    (∃ p outputs, (q "b").plan c {} = .ok (p, outputs) ∧ ∀ o ∈ outputs, p.Writes o) ∧
      (∃ p outputs, (q "a").plan c {} = .ok (p, outputs) ∧ ¬ ∀ o ∈ outputs, p.Writes o) ∧
        ∃ p outputs, (q "a.b").plan c {} = .ok (p, outputs) ∧ ∃ projection ∈ p.projection, ¬ projection.IsTaken := by
  intro c q
  let first : Output := ⟨⟨"a", "a", .integer⟩, .fieldRef "x"⟩
  let second (label : String) : Output := ⟨⟨label, label, .integer⟩, .fieldRef "y"⟩
  let p (label : String) : Pipeline :=
    { collection := "points", projection := some (finalProjection [first, second label]) }
  have hapart : (q "b").plan c {} = .ok (p "b", [first, second "b"]) := by
    simp only [c, q, p, first, second]
    cbv
  have hclash : (q "a").plan c {} = .ok (p "a", [first, second "a"]) := by
    simp only [c, q, p, first, second]
    cbv
  have hinner : (q "a.b").plan c {} = .ok (p "a.b", [first, second "a.b"]) := by
    simp only [c, q, p, first, second]
    cbv
  refine ⟨⟨_, _, hapart, (output_paths_of_plan hapart).2.1.mpr ⟨?_, by simp [p]⟩⟩,
    ⟨_, _, hclash, fun hall => ?_⟩, _, _, hinner, _, rfl, fun htaken => ?_⟩
  · intro o ho o' ho'
    simp only [mem_cons, not_mem_nil, or_false] at ho ho'
    rcases ho with rfl | rfl <;> rcases ho' with rfl | rfl
    · exact fun hne => absurd rfl hne
    · exact fun _ => by decide
    · exact fun _ => by decide
    · exact fun hne => absurd rfl hne
  · have hne : first.expression ≠ (second "a").expression := by simp [first, second, Bson.fieldRef]
    exact ((output_paths_of_plan hclash).2.1.mp hall).1 first (by simp) (second "a") (by simp) hne rfl
  · have hleads : Path.LeadsTo "a" "a.b" := ⟨["b"], by cbv⟩
    have hapart := ((output_paths_of_plan hinner).2.2.1 _ rfl).mp htaken
    exact absurd (hapart "a" (by simp [first]) "a.b" (by simp [second]) hleads) (by decide)

end Select

end Pushdown
