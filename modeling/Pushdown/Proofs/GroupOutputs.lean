import Pushdown.Proofs.Accumulators

/-!
# Outputs of groups

Where a filter tests computed values, the query projects ahead of the match and nothing is projected after grouping.
`early_group_outputs`: each output then `IsReadFrom` the group as it is given out. One that is computed from groups
is refused, unless its name is taken for a path of the group (`IsMistakenIn`).
-/

namespace Pushdown

open List Attempt Expression

theorem ScalarFunction.apply_ok {f : ScalarFunction} {name : String} {guarded : Bool} {start : Option Int64}
    {args : List Bson} {b : Bson} (h : f.apply name guarded start args = .ok b) : ∃ fields, b = .document fields := by
  rw [apply.eq_def] at h
  split at h
  · split at h
    · cases h
      rw [datePartOf]
      split_ifs <;> exact ⟨_, rfl⟩
    · cases h
  · split at h
    · cases h
      exact ⟨_, rfl⟩
    · cases h
  · split at h
    · cases h
      exact ⟨_, rfl⟩
    · cases h
      exact ⟨_, rfl⟩
    · cases h
  · cases h
    exact ⟨_, rfl⟩

section

open Compiling

variable {σ : Type} {c : Context σ} {b : Bson} {s s' : Draft σ} {e : Expression}

theorem Expression.BuiltFrom.exists_fields {guarded : Bool} {bs : List Bson} (h : e.BuiltFrom guarded bs b) :
    ∃ fields, b = .document fields := by
  cases e with
  | column | literal | aggregate => cases h
  | comparison | and | or | not => exact ⟨_, h⟩
  | isNull =>
    obtain ⟨_, -, rfl⟩ := h
    exact ⟨_, rfl⟩
  | isIn input list negated =>
    obtain ⟨_, _, -, rfl⟩ := h
    cases negated <;> exact ⟨_, rfl⟩
  | like input pattern escape negated =>
    obtain ⟨_, _, -, -, rfl⟩ := h
    cases negated <;> exact ⟨_, rfl⟩
  | call =>
    obtain ⟨f, -, happly⟩ := h
    exact ScalarFunction.apply_ok happly

def Draft.ReadsOrComputes (s : Draft σ) (b : Bson) : Prop :=
  (∃ text path, s.registry.groupedPath? text = some path ∧ b = .fieldRef path) ∨ ∃ fields, b = .document fields

theorem readsOrComputes_compileAggregate {text : String} {function : AggregateFunction} {distinct : Bool}
    {wanted : Option String} (arg : Option (Compiling σ Bson))
    (h : compileAggregate text function distinct arg wanted s = (.ok b, s')) : s'.ReadsOrComputes b := by
  rcases compileAggregate_ok h with ⟨rfl, path, hpath, rfl⟩ | ⟨-, -, -, s₁, f, e, -, -, rfl, rfl⟩
  · exact .inl ⟨text, path, hpath, rfl⟩
  · refine .inl ⟨text, _, ?_, rfl⟩
    rw [Draft.accumulated, Registry.groupedPath?_registerGrouped, if_pos rfl]

theorem readsOrComputes_compile (he : ∀ v, e ≠ .literal v) (h : e.compile c .grouped s = (.ok b, s')) :
    s'.ReadsOrComputes b := by
  cases compile_ok h with
  | found hpath => exact .inl ⟨_, _, hpath, rfl⟩
  | literal => exact absurd rfl (he _)
  | aggregate h => exact readsOrComputes_compileAggregate _ h
  | operation _ hb => exact .inr hb.exists_fields

theorem Select.readsOrComputes_compileItem {name : String} (h : compileItem c .grouped name e s = (.ok b, s')) :
    s'.ReadsOrComputes b := by
  cases e with
  | aggregate function arg distinct => exact readsOrComputes_compileAggregate _ h
  | literal v =>
    obtain ⟨b', s₁, -, h⟩ := bind_ok h
    have hwrap := (ofExcept_ok h).1
    rw [Context.wrapLiteral] at hwrap
    split_ifs at hwrap
    cases hwrap
    exact .inr ⟨_, rfl⟩
  | _ => exact readsOrComputes_compile (by simp) h

end

def Output.IsReadFrom (g : Group) (o : Output) : Prop :=
  o.column.path ∈ g.paths ∧ o.expression = .fieldRef o.column.path

/-- Whether an output is computed. It is looked for under its name. -/
def Output.IsComputed (o : Output) : Prop :=
  (∃ fields, o.expression = .document fields) ∧ o.column.path = o.column.name

def Output.IsMistakenIn (g : Group) (o : Output) : Prop :=
  o.IsComputed ∧ (Path.hasPrefix "_id" o.column.name ∨ o.column.name ∈ g.accumulators.map (·.name))

theorem Output.IsComputed.not_isReadFrom {o : Output} (h : o.IsComputed) (g : Group) : ¬ o.IsReadFrom g := by
  obtain ⟨⟨fields, hfields⟩, -⟩ := h
  rintro ⟨-, hread⟩
  cases hfields.symm.trans hread

theorem GroupKeys.hasPrefix_of_mem_paths {keys : GroupKeys} {path : String} (h : path ∈ keys.paths) :
    Path.hasPrefix "_id" path := by
  rw [Path.hasPrefix, isPrefixOf_iff_prefix]
  cases keys with
  | none => cases h
  | single key =>
    obtain rfl := mem_singleton.mp h
    exact prefix_rfl
  | compound keys =>
    obtain ⟨k, -, rfl⟩ := mem_map.mp h
    rw [String.toList_append]
    exact ⟨'.' :: k.1.toList, rfl⟩

theorem Expression.computedFilter_pipeline {σ : Type} {c : Context σ} (hc : c.mode = .pipeline) (e : Expression) :
    computedFilter c .raw e = (do
      let computed ← e.compile c .raw
      let name := "__m" ++ toString (← get).helperFields.length
      modify fun d => { d with helperFields := d.helperFields ++ [(name, computed)] }
      return .comparison (some name) .eq (.boolean true)) := by
  simp only [computedFilter, hc]

namespace Select

variable {o : Output}

theorem outputPath_fieldRef (name path : String) : outputPath .grouped true name (.fieldRef path) = path := by
  show (if ("$" ++ path).toList.head? = some '$' then Path.afterMark ("$" ++ path) else name) = path
  rw [if_pos (by simp), afterMark_fieldRef]

def passes (accumulators : List Accumulator) (o : Output) : Bool :=
  Path.hasPrefix "_id" o.column.path || accumulators.any (·.name == o.column.path)

variable {accumulators : List Accumulator} {outputs : List Output}

theorem checkGroupOutputs_ok (h : checkGroupOutputs accumulators outputs = .ok ()) (ho : o ∈ outputs) :
    passes accumulators o := by
  induction outputs with
  | nil => cases ho
  | cons o' outputs ih =>
    rw [checkGroupOutputs] at h
    split_ifs at h with hpasses
    rcases mem_cons.mp ho with rfl | ho
    · exact hpasses
    · exact ih h ho

theorem checkGroupOutputs_error {before : List Output} (hbefore : ∀ o' ∈ before, passes accumulators o')
    (ho : ¬ passes accumulators o) (after : List Output) :
    checkGroupOutputs accumulators (before ++ o :: after) = .error (.unsupported ("computed output '" ++
      o.column.name ++ "' over grouped values when the filter reads computed values")) := by
  induction before with
  | nil => exact if_neg ho
  | cons o' before ih =>
    obtain ⟨hpasses, hbefore⟩ := forall_mem_cons.mp hbefore
    exact (if_pos hpasses).trans (ih hbefore)

theorem passes_of_isReadFrom {g : Group} (h : o.IsReadFrom g) : passes g.accumulators o := by
  rw [passes, Bool.or_eq_true]
  rcases mem_append.mp h.1 with hkey | haccumulator
  · exact .inl (GroupKeys.hasPrefix_of_mem_paths hkey)
  · obtain ⟨a, ha, hname⟩ := mem_map.mp haccumulator
    exact .inr (any_eq_true.mpr ⟨a, ha, beq_iff_eq.mpr hname⟩)

theorem passes_iff_isMistakenIn {g : Group} (h : o.IsComputed) : passes g.accumulators o ↔ o.IsMistakenIn g := by
  rw [passes, h.2, Output.IsMistakenIn, Bool.or_eq_true]
  simp [h]

namespace Clauses

variable {σ : Type} {c : Context σ} {q : Select} {placement : Placement} {r : Clauses σ} {objects : σ}
  {keys : GroupKeys}

section

variable (h : r.CompiledFrom c placement q { objects }) (hkeys : r.keys = some keys)
  (hearly : r.selected.helperFields ≠ []) (ho : o ∈ r.outputs)

include h hkeys hearly ho

theorem CompiledFrom.isReadFrom_or_isComputed : o.IsReadFrom ⟨keys, r.selected.accumulators⟩ ∨ o.IsComputed := by
  obtain ⟨item, -, s₁, s₂, hkeeps, hcompile, hpath⟩ := exists_left_of_forall₂ (h.items hkeys) ho
  have hnotEmpty : (!r.selected.helperFields.isEmpty) = true := by simpa using hearly
  rw [hnotEmpty] at hpath
  rcases readsOrComputes_compileItem hcompile with ⟨text, path, hfound, hread⟩ | ⟨fields, hfields⟩
  · have hsame : o.column.path = path := by
      rw [hpath, hread, outputPath_fieldRef]
    rw [Output.IsReadFrom, hsame]
    exact .inl ⟨h.mem_paths hkeys (hkeeps.groupedPath? hfound), hread⟩
  · refine .inr ⟨⟨fields, hfields⟩, ?_⟩
    rw [hpath, hfields]
    rfl

theorem CompiledFrom.passes_iff :
    passes r.selected.accumulators o ↔
      o.IsReadFrom ⟨keys, r.selected.accumulators⟩ ∨ o.IsMistakenIn ⟨keys, r.selected.accumulators⟩ := by
  constructor
  · intro hpasses
    exact (h.isReadFrom_or_isComputed hkeys hearly ho).imp id fun hcomputed =>
      (passes_iff_isMistakenIn hcomputed).mp hpasses
  · rintro (hread | hmistaken)
    · exact passes_of_isReadFrom hread
    · exact (passes_iff_isMistakenIn hmistaken.1).mpr hmistaken

end

theorem CompiledFrom.isReadFrom_or_isMistakenIn {p : Pipeline} (h : r.CompiledFrom c placement q { objects })
    (hgives : r.Gives p outputs) (hkeys : r.keys = some keys) (hearly : r.selected.helperFields.isEmpty = false)
    (ho : o ∈ r.outputs) :
    o.IsReadFrom ⟨keys, r.selected.accumulators⟩ ∨ o.IsMistakenIn ⟨keys, r.selected.accumulators⟩ := by
  have hchecked := hgives.checked hearly (by rw [hkeys]; rfl)
  exact (h.passes_iff hkeys (by simpa using hearly) ho).mp (checkGroupOutputs_ok hchecked ho)

theorem finish_of_check_error {e : QueryError} {s : Draft σ} (hkeys : r.keys = some keys)
    (hearly : r.selected.helperFields ≠ []) (h : checkGroupOutputs r.selected.accumulators r.outputs = .error e) :
    (r.finish c placement q s).1 = .error e := by
  have hcheck : (!r.selected.helperFields.isEmpty && r.keys.isSome) = true := by simp [hkeys, hearly]
  rw [finish, if_pos hcheck]
  have herror : (Attempt.ofExcept (checkGroupOutputs r.selected.accumulators r.outputs) : Compiling σ Unit) s =
      (.error e, s) := by
    rw [h]
    rfl
  rw [bind_of_error herror]

end Clauses

theorem plan_of_place {c : Catalog} {options : Options} {q : Select} {placement : Placement}
    (h : c.place q.source = .ok placement) :
    q.plan c options = (compileClauses (placement.context c options) placement q { objects := () }).1 := by
  rw [plan, h]
  rfl

/-- In an accepted query whose groups are given out as they are, each output `IsReadFrom` the group or
`IsMistakenIn` it. The first output that is neither is refused by name. -/
theorem early_group_outputs (c : Catalog) (options : Options) (q : Select) :
    (∀ p outputs g, q.plan c options = .ok (p, outputs) → p.group = some g → p.earlyProjection.isSome →
      p.projection = none ∧ ∀ o ∈ outputs, o.IsReadFrom g ∨ o.IsMistakenIn g) ∧
      ∀ placement (r : Clauses Unit) keys before o after, c.place q.source = .ok placement →
        r.CompiledFrom (placement.context c options) placement q { objects := () } → r.keys = some keys →
        r.selected.helperFields ≠ [] → r.outputs = before ++ o :: after →
        (∀ o' ∈ before, o'.IsReadFrom ⟨keys, r.selected.accumulators⟩ ∨
          o'.IsMistakenIn ⟨keys, r.selected.accumulators⟩) →
        ¬ o.IsReadFrom ⟨keys, r.selected.accumulators⟩ → ¬ o.IsMistakenIn ⟨keys, r.selected.accumulators⟩ →
        q.plan c options = .error (.unsupported ("computed output '" ++ o.column.name ++
          "' over grouped values when the filter reads computed values")) := by
  constructor
  · intro p outputs g hplan hgroup hsome
    obtain ⟨placement, r, -, hr, hgives⟩ := exists_clauses_of_plan hplan
    obtain rfl := hgives.outputs
    have hearly : r.selected.helperFields.isEmpty = false := by
      refine Bool.eq_false_iff.mpr fun hempty => ?_
      rw [hgives.late hempty] at hsome
      cases hsome
    rw [hgives.group] at hgroup
    obtain ⟨keys, hkeys, rfl⟩ := Option.map_eq_some_iff.mp hgroup
    exact ⟨hgives.projection_eq_none hearly, fun o ho => hr.isReadFrom_or_isMistakenIn hgives hkeys hearly ho⟩
  · intro placement r keys before o after hplace hr hkeys hearly houtputs hbefore hread hmistaken
    have hmem {o' : Output} (ho' : o' ∈ before ++ o :: after) : o' ∈ r.outputs := houtputs ▸ ho'
    have hpassed (o' : Output) (ho' : o' ∈ before) : passes r.selected.accumulators o' :=
      (hr.passes_iff hkeys hearly (hmem (mem_append_left _ ho'))).mpr (hbefore o' ho')
    have hrefused : ¬ passes r.selected.accumulators o := fun hpasses =>
      ((hr.passes_iff hkeys hearly (hmem (by simp))).mp hpasses).elim hread hmistaken
    have herror := checkGroupOutputs_error hpassed hrefused after
    rw [← houtputs] at herror
    rw [plan_of_place hplace, hr.compileClauses_eq, Clauses.finish_of_check_error hkeys hearly herror]

/-- A select item may be named like the key or like an aggregate, but not otherwise. -/
theorem early_group_outputs_points :
    let c : Catalog := .ofTables [
      { name := "points", columns := [⟨"id", .integer, false⟩, ⟨"x", .integer, false⟩, ⟨"y", .integer, false⟩]
        primaryKey := ["id"] }]
    let x : Expression := .column ⟨"", "x"⟩
    let q (label : String) : Select :=
      { source := ⟨⟨"points", none⟩, []⟩, filter := some (.comparison .eq x (.column ⟨"", "y"⟩))
        columns := [⟨x, none⟩, ⟨.aggregate .count none false, some "n"⟩, ⟨.isNull x false, some label⟩]
        groupBy := [x] }
    let g : Group := ⟨.single (.fieldRef "x"), [⟨"n", .sum, .int32 1⟩]⟩
    (∀ label ∈ ["_id", "n"], ∃ p outputs, (q label).plan c {} = .ok (p, outputs) ∧ p.group = some g ∧
      p.earlyProjection.isSome ∧ (p.projection = none ∧ ∀ o ∈ outputs, o.IsReadFrom g ∨ o.IsMistakenIn g) ∧
      ∃ o ∈ outputs, o.column.path = label ∧ ¬ o.IsReadFrom g) ∧
      (q "gone").plan c {} = .error (.unsupported
        "computed output 'gone' over grouped values when the filter reads computed values") := by
  intro c x q g
  let placement : Placement := ⟨"points", [⟨"points", "points", [], false⟩], [], []⟩
  let computed : Bson := .opList "$eq" [.opList "$ifNull" [.fieldRef "_id", .null], .null]
  let filtered : Draft Unit :=
    { registry := [("x", .ofExpression (.fieldRef "x")), ("y", .ofExpression (.fieldRef "y"))]
      helperFields := [("__m0", .opList "$eq" [.fieldRef "x", .fieldRef "y"])]
      objects := () }
  let grouped : Draft Unit :=
    { filtered with registry := filtered.registry.registerGrouped "x" (.ofExpression (.fieldRef "x")) "_id" }
  let counted : Draft Unit :=
    (givenOut grouped "x" (.fieldRef "_id") "x").accumulated "COUNT(*)" ⟨"n", .sum, .int32 1⟩
  let outputs (label : String) : List Output :=
    [⟨⟨"x", "_id", .integer⟩, .fieldRef "_id"⟩, ⟨⟨"n", "n", .integer⟩, .fieldRef "n"⟩,
      ⟨⟨label, label, .boolean⟩, computed⟩]
  let r (label : String) : Clauses Unit :=
    { filter := some (.comparison (some "__m0") .eq (.boolean true)), keys := some g.keys, having := none
      outputs := outputs label, filtered, grouped, tested := grouped
      selected := givenOut (givenOut counted "COUNT(*)" (.fieldRef "n") "n") "(x IS NULL)" computed label }
  have hplace (label : String) : c.place (q label).source = .ok placement := by
    simp only [c, q, placement]
    cbv
  have hr (label : String) (hlabel : label = "_id" ∨ label = "n" ∨ label = "gone") :
      (r label).CompiledFrom (placement.context c {}) placement (q label) { objects := () } := by
    refine ⟨⟨[], rfl, ?_⟩, ?_, rfl, ?_⟩
    · have hcomputed := Expression.computedFilter_pipeline (c := placement.context c {}) rfl
        (.comparison .eq x (.column ⟨"", "y"⟩))
      show conditionOf (List.map (whereTerm (placement.context c {})) [.comparison .eq x (.column ⟨"", "y"⟩)])
        { objects := () } = (.ok (some (.comparison (some "__m0") .eq (.boolean true))), filtered)
      simp only [map_cons, map_nil, whereTerm, Expression.filter, Expression.comparisonFilter, hcomputed]
      simp only [c, x, placement, filtered]
      cbv
    · simp only [c, x, q, g, r, placement, filtered, grouped]
      cbv
    · simp only [c, x, q, g, r, placement, filtered, grouped, counted, outputs, computed]
      rcases hlabel with rfl | rfl | rfl <;> cbv
  have hplan (label : String) (hlabel : label = "_id" ∨ label = "n") :
      ∃ p, (q label).plan c {} = .ok (p, outputs label) ∧ p.group = some g ∧ p.earlyProjection.isSome := by
    refine ⟨{ collection := "points", filter := some (.comparison (some "__m0") .eq (.boolean true)), group := some g
              earlyProjection := some ⟨[("__m0", .computed (.opList "$eq" [.fieldRef "x", .fieldRef "y"])),
                ("x", .keep), ("y", .keep)], false⟩ }, ?_, rfl, rfl⟩
    rw [plan_of_place (hplace label), (hr label (by tauto)).compileClauses_eq]
    simp only [c, x, q, g, r, placement, filtered, grouped, counted, outputs, computed]
    rcases hlabel with rfl | rfl <;> cbv
  have hcomputed (label : String) : ¬ Output.IsReadFrom g ⟨⟨label, label, .boolean⟩, computed⟩ :=
    Output.IsComputed.not_isReadFrom ⟨⟨_, rfl⟩, rfl⟩ g
  refine ⟨fun label hlabel => ?_, ?_⟩
  · obtain ⟨p, hp, hgroup, hsome⟩ := hplan label (by simpa using hlabel)
    exact ⟨p, outputs label, hp, hgroup, hsome, (early_group_outputs c {} (q label)).1 p _ g hp hgroup hsome,
      ⟨⟨label, label, .boolean⟩, computed⟩, by simp [outputs], rfl, hcomputed label⟩
  · refine (early_group_outputs c {} (q "gone")).2 placement (r "gone") g.keys ((outputs "gone").take 2) _ []
      (hplace _) (hr _ (by simp)) rfl (by simp [r, givenOut, counted, grouped, filtered, Draft.accumulated]) rfl ?_
      (hcomputed "gone") ?_
    · intro o ho
      simp only [outputs, take_succ_cons, take_zero, mem_cons, not_mem_nil, or_false] at ho
      rcases ho with rfl | rfl
      · exact .inl ⟨by simp [Group.paths, GroupKeys.paths, g], rfl⟩
      · exact .inl ⟨by simp [Group.paths, GroupKeys.paths, g, r, givenOut, counted, Draft.accumulated], rfl⟩
    · rintro ⟨-, hmistaken⟩
      rcases hmistaken with hstart | hname
      · exact absurd hstart (by decide)
      · simp [r, givenOut, counted, grouped, filtered, Draft.accumulated] at hname

end Select

end Pushdown
