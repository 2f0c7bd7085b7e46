import Pushdown.Proofs.FieldTexts
import Pushdown.Proofs.Fingerprint
import Pushdown.Proofs.Grouping
import Pushdown.Proofs.JoinKeys

/-!
# Distinct rows

DISTINCT groups by the select items, unless the query says what to group by or has aggregates. `distinct_rows`:
where all keys are select items (`Selects`), groups with different keys differ in an output column, as long as names
and texts are not mistaken for others (`ClearNames`, `ClearKeys`). A query that groups by more than it selects is
accepted as well, and its rows need not be distinct.
-/

namespace Pushdown

open List Bson Expression

/-! ### Documents with given fields -/

namespace Document

theorem get?_filterMap {α : Type} {fields : List (String × α)} (value : String × α → Option Bson)
    (h : (fields.map Prod.fst).Nodup) {f : String × α} (hf : f ∈ fields) :
    get? (fields.filterMap fun f => (value f).map (f.1, ·)) f.1 = value f := by
  induction fields with
  | nil => cases hf
  | cons g fields ih =>
    rw [map_cons, nodup_cons] at h
    rcases mem_cons.mp hf with rfl | hf
    · cases hvalue : value f with
      | some b => rw [filterMap_cons_some (by rw [hvalue]; rfl), get?_cons, if_pos rfl]
      | none =>
        rw [filterMap_cons_none (by rw [hvalue]; rfl), get?, lookup_eq_none_iff]
        intro entry hentry
        obtain ⟨f', hf', hentry⟩ := mem_filterMap.mp hentry
        obtain ⟨b, -, rfl⟩ := Option.map_eq_some_iff.mp hentry
        have hne : f.1 ≠ f'.1 := fun heq => h.1 (heq ▸ mem_map_of_mem hf')
        exact bne_iff_ne.mpr hne
    · have hne : g.1 ≠ f.1 := fun heq => h.1 (heq ▸ mem_map_of_mem hf)
      cases hvalue : value g with
      | some b => rw [filterMap_cons_some (by rw [hvalue]; rfl), get?_cons, if_neg hne, ih h.2 hf]
      | none => rw [filterMap_cons_none (by rw [hvalue]; rfl), ih h.2 hf]

end Document

/-! ### Computing expressions -/

/-- A way to compute expressions of the store. References are read from the document, and an expression
that reads no field has one value. -/
structure Evaluation where
  value : Document → Bson → Option Bson
  value_fieldRef : ∀ d path, path.toList.head? ≠ some '$' →
    value d (.fieldRef path) = Bson.read? (Path.split path) (.document d)
  value_constant : ∀ e, e.fieldTexts = [] → ∀ d d', value d e = value d' e

namespace Bson

mutual

theorem compute?_eq_of_fieldTexts (root root' : Bson) (e : Bson) (h : e.fieldTexts = []) :
    compute? root e = compute? root' e := by
  cases e with
  | string s =>
    rw [fieldTexts] at h
    split_ifs at h with hs
    rw [compute?, compute?, if_neg hs, if_neg hs]
  | array items =>
    rw [fieldTexts] at h
    rw [compute?, compute?, computeAll_eq_of_fieldTexts root root' items h]
  | document fields =>
    rw [fieldTexts] at h
    rw [compute?, compute?, computeFields?_eq_of_fieldTexts root root' fields h]
  | _ => rfl

theorem computeAll_eq_of_fieldTexts (root root' : Bson) (es : List Bson) (h : fieldTextsOf es = []) :
    computeAll root es = computeAll root' es := by
  cases es with
  | nil => rfl
  | cons e es =>
    rw [fieldTextsOf, append_eq_nil_iff] at h
    rw [computeAll, computeAll, compute?_eq_of_fieldTexts root root' e h.1,
      computeAll_eq_of_fieldTexts root root' es h.2]

theorem computeFields?_eq_of_fieldTexts (root root' : Bson) (fields : List (String × Bson))
    (h : fieldTextsIn fields = []) : computeFields? root fields = computeFields? root' fields := by
  cases fields with
  | nil => rfl
  | cons f fields =>
    obtain ⟨name, e⟩ := f
    rw [fieldTextsIn, append_eq_nil_iff] at h
    by_cases hliteral : name = "$literal"
    · unfold computeFields?
      rw [if_pos hliteral, if_pos hliteral]
    · rw [if_neg hliteral] at h
      have hvalue := compute?_eq_of_fieldTexts root root' e h.1
      have hrest := computeFields?_eq_of_fieldTexts root root' fields h.2
      unfold computeFields?
      rw [if_neg hliteral, if_neg hliteral, hvalue, hrest]
      cases e with
      | array args =>
        rw [fieldTexts] at h
        simp only [computeAll_eq_of_fieldTexts root root' args h.1]
      | _ => simp only [hvalue]

end

end Bson

def Evaluation.ofCompute : Evaluation where
  value d e := Bson.compute? (.document d) e
  value_fieldRef d path _ := by
    rw [Bson.fieldRef, Bson.compute?, if_pos (Expression.isMarked_fieldRef path), Expression.afterMark_fieldRef]
  value_constant e he d d' := Bson.compute?_eq_of_fieldTexts _ _ e he

/-! ### Groups and results -/

def GroupKeys.expressions : GroupKeys → List Bson
  | .none => []
  | .single key => [key]
  | .compound keys => keys.map Prod.snd

/-- The key of a group, for the values of the expressions in one of its documents. -/
def GroupKeys.idOf (value : Bson → Option Bson) : GroupKeys → Bson
  | .none => .null
  | .single key => (value key).getD .null
  | .compound keys => .document ((Document.ofFields keys).filterMap fun f => (value f.2).map (f.1, ·))

/-- Whether `r` is given out for the group of the document `d`. -/
def Group.GivesOut (g : Group) (ev : Evaluation) (d r : Document) : Prop :=
  Document.get? r "_id" = some (g.keys.idOf (ev.value d))

def ProjectedField.valueIn (ev : Evaluation) (d : Document) (f : String × ProjectedField) : Option Bson :=
  match f.2 with
  | .keep => Document.get? d f.1
  | .computed e => ev.value d e

/-- What a projection makes of a document. -/
def Projection.apply (p : Projection) (ev : Evaluation) (d : Document) : Document :=
  (if p.excludeId || p.fields.any (·.1 == "_id") then []
    else (Document.get? d "_id").toList.map fun b => ("_id", b)) ++
    p.fields.filterMap fun f => (ProjectedField.valueIn ev d f).map (f.1, ·)

def Pipeline.resultOf (p : Pipeline) (ev : Evaluation) (r : Document) : Document :=
  match p.projection with
  | some projection => projection.apply ev r
  | none => r

namespace Select

variable {outputs : List Output}

theorem get?_finalProjection (hnames : (outputs.map (·.column.name)).Nodup) {o : Output}
    (ho : o ∈ outputs) (ev : Evaluation) (r : Document) :
    Document.get? ((finalProjection outputs).apply ev r) o.column.name = ev.value r o.expression := by
  have hid : ((finalProjection outputs).excludeId || (finalProjection outputs).fields.any (·.1 == "_id")) = true := by
    simp [finalProjection, any_map, Function.comp_def]
  rw [Projection.apply, if_pos hid, nil_append]
  have hfield : (o.column.name, ProjectedField.computed o.expression) ∈ (finalProjection outputs).fields :=
    mem_map_of_mem ho
  refine Document.get?_filterMap (ProjectedField.valueIn ev r) ?_ hfield
  simpa [finalProjection, Function.comp_def] using hnames

/-! ### Keys in the documents of groups -/

/-- What is found of a key in what its group is given out as. A single key is null where it is missing. -/
def keyValue (ks : List GroupingKey) (value : Bson → Option Bson) (k : GroupingKey) : Option Bson :=
  if ks.length = 1 then some ((value k.expression).getD .null) else value k.expression

variable {ks : List GroupingKey} {value : Bson → Option Bson} {r : Document} {k : GroupingKey}

theorem keysOf_of_length {ks : List GroupingKey} (h : ks.length ≠ 1) :
    keysOf ks = .compound (ks.map fun k => (k.name, k.expression)) := by
  rcases ks with _ | ⟨k, _ | ⟨k', ks⟩⟩
  · rfl
  · exact absurd rfl h
  · rfl

theorem nodup_keyFields (hnames : (ks.map (·.name)).Nodup) :
    ((ks.map fun k => (k.name, k.expression)).map Prod.fst).Nodup := by
  rw [map_map]
  exact hnames

theorem get?_idOf (value : Bson → Option Bson) (hnames : (ks.map (·.name)).Nodup) (hk : k ∈ ks)
    (hlength : ks.length ≠ 1) :
    ∃ fields, (keysOf ks).idOf value = .document fields ∧ Document.get? fields k.name = value k.expression := by
  have hfields := nodup_keyFields hnames
  refine ⟨_, by rw [keysOf_of_length hlength, GroupKeys.idOf], ?_⟩
  rw [Document.ofFields_of_nodup hfields]
  have hfield : (k.name, k.expression) ∈ ks.map fun k => (k.name, k.expression) := mem_map.mpr ⟨k, hk, rfl⟩
  exact Document.get?_filterMap (fun f => value f.2) hfields hfield

theorem split_keyPath (hk : isPlainField k.name) (hlength : ks.length ≠ 1) :
    Path.split (keyPath ks.length k) = ["_id", k.name] := by
  have hdot : '.' ∉ k.name.toList := by
    rw [isPlainField, Bool.and_eq_true] at hk
    simpa using hk.2
  have hpath : keyPath ks.length k = "_id" ++ "." ++ k.name := by
    rw [keyPath, if_neg hlength]
    rfl
  rw [hpath, Path.split_append_dot, Path.split_of_not_mem hdot, Path.split_of_not_mem (by decide)]
  rfl

theorem read?_keyPath (hid : Document.get? r "_id" = some ((keysOf ks).idOf value))
    (hnames : (ks.map (·.name)).Nodup) (hplain : isPlainField k.name) (hk : k ∈ ks) :
    read? (Path.split (keyPath ks.length k)) (.document r) = keyValue ks value k ∧
      Document.atPath? r (keyPath ks.length k) = keyValue ks value k := by
  have hself (b : Bson) : read? [] b = some b := by cases b <;> rfl
  by_cases hlength : ks.length = 1
  · obtain ⟨k', rfl⟩ := length_eq_one_iff.mp hlength
    obtain rfl := mem_singleton.mp hk
    have hsplit : Path.split (keyPath 1 k) = ["_id"] := by
      rw [keyPath, if_pos rfl]
      decide
    rw [keyValue, if_pos hlength, Document.atPath?, length_singleton, hsplit]
    constructor
    · show Bson.readField? "_id" [] r = _
      rw [readField?_eq, hid, Option.bind_some, hself]
      rfl
    · show (Document.get? r "_id").bind (Bson.follow? []) = _
      rw [hid]
      rfl
  · obtain ⟨fields, hfields, hvalue⟩ := get?_idOf value hnames hk hlength
    rw [keyValue, if_neg hlength, Document.atPath?, split_keyPath hplain hlength]
    rw [hfields] at hid
    constructor
    · show Bson.readField? "_id" [k.name] r = _
      rw [readField?_eq, hid, Option.bind_some]
      show readField? k.name [] fields = _
      rw [readField?_eq, hvalue]
      cases value k.expression with
      | none => rfl
      | some b => exact hself b
    · show (Document.get? r "_id").bind (Bson.follow? [k.name]) = _
      rw [hid, Option.bind_some]
      show (Document.get? fields k.name).bind (follow? []) = _
      rw [hvalue]
      cases value k.expression <;> rfl

theorem idOf_eq {value' : Bson → Option Bson} (hnames : (ks.map (·.name)).Nodup)
    (h : ∀ k ∈ ks, keyValue ks value k = keyValue ks value' k) : (keysOf ks).idOf value = (keysOf ks).idOf value' := by
  by_cases hlength : ks.length = 1
  · obtain ⟨k, rfl⟩ := length_eq_one_iff.mp hlength
    have hk := h k (mem_singleton_self _)
    rw [keyValue, keyValue, if_pos hlength, if_pos hlength] at hk
    exact Option.some.inj hk
  · rw [keysOf_of_length hlength, GroupKeys.idOf, GroupKeys.idOf, Document.ofFields_of_nodup (nodup_keyFields hnames)]
    congr 1
    refine filterMap_congr fun f hf => ?_
    obtain ⟨k, hk, rfl⟩ := mem_map.mp hf
    have hvalue := h k hk
    rw [keyValue, keyValue, if_neg hlength, if_neg hlength] at hvalue
    rw [hvalue]

/-! ### Outputs -/

/-- Output columns with different names that are fields of their own. -/
structure ClearNames (outputs : List Output) : Prop where
  nodup : (outputs.map (·.column.name)).Nodup
  plain : ∀ o ∈ outputs, '.' ∉ o.column.name.toList

theorem head_keyPath (count : Nat) (k : GroupingKey) : (keyPath count k).toList.head? ≠ some '$' := by
  rw [keyPath]
  split_ifs <;> simp

theorem atPath?_output {c : Context Unit} {p : Pipeline} {o : Output} {e : Expression}
    {s s' t : Draft Unit} {ev : Evaluation} {d : Document} (hclear : ClearNames outputs) (ho : o ∈ outputs)
    (hcompile : compileItem c .grouped o.column.name e s = (.ok o.expression, s'))
    (hpath : o.column.path = outputPath .grouped (!t.helperFields.isEmpty) o.column.name o.expression)
    (hprojection : p.projection = if t.helperFields.isEmpty then some (finalProjection outputs) else none)
    (he : ∀ v, e ≠ .literal v) (hknown : s.registry.groupedPath? e.sql = some (keyPath ks.length k))
    (hid : Document.get? r "_id" = some ((keysOf ks).idOf (ev.value d)))
    (hnames : (ks.map (·.name)).Nodup) (hplain : isPlainField k.name) (hk : k ∈ ks) :
    Document.atPath? (p.resultOf ev r) o.column.path = keyValue ks (ev.value d) k := by
  obtain ⟨hread, hat⟩ := read?_keyPath hid hnames hplain hk
  rw [compileItem_of_groupedPath? he hknown] at hcompile
  have hexpression : o.expression = .fieldRef (keyPath ks.length k) := (Except.ok.inj (Prod.mk.inj hcompile).1).symm
  rw [Pipeline.resultOf, hprojection, hpath]
  cases t.helperFields.isEmpty with
  | true =>
    show Document.atPath? ((finalProjection outputs).apply ev r) o.column.name = _
    rw [Document.atPath?, Path.split_of_not_mem (hclear.plain o ho)]
    show (Document.get? _ o.column.name).bind (follow? []) = _
    rw [get?_finalProjection hclear.nodup ho, hexpression, ev.value_fieldRef _ _ (head_keyPath _ k), hread]
    cases keyValue ks (ev.value d) k <;> rfl
  | false =>
    have houtput : outputPath .grouped true o.column.name o.expression = keyPath ks.length k := by
      rw [hexpression]
      show (if ("$" ++ keyPath ks.length k).toList.head? = some '$'
        then Path.afterMark ("$" ++ keyPath ks.length k) else o.column.name) = _
      rw [if_pos (by simp), afterMark_fieldRef]
    show Document.atPath? r (outputPath .grouped true o.column.name o.expression) = _
    rw [houtput, hat]

/-! ### Rows of a query -/

/-- Keys that are known by their texts: columns are not named like constants or numbered keys, two keys
have the same text only where they are the same, and constants are not read as fields. -/
structure ClearKeys (q : Select) : Prop where
  columns : ∀ ref, .column ref ∈ q.groupingKeys → ref.isPlain ∧ Path.hasPrefix "_k" ref.column = false
  texts : ∀ k ∈ q.groupingKeys, ∀ k' ∈ q.groupingKeys, k.sql = k'.sql → k = k'
  constants : ∀ v, .literal v ∈ q.groupingKeys → Expression.itemTexts v = []

theorem plan_ok {c : Catalog} {options : Options} {q : Select} {p : Pipeline}
    (h : q.plan c options = .ok (p, outputs)) :
    ∃ placement s', c.place q.source = .ok placement ∧
      compileClauses (placement.context c options) placement q { objects := () } = (.ok (p, outputs), s') := by
  rw [plan] at h
  obtain ⟨placement, hplace, h⟩ := exists_of_bind_ok h
  rcases hrun : compileClauses (placement.context c options) placement q { objects := () } with ⟨result, s'⟩
  have hresult : result = .ok (p, outputs) := (congrArg Prod.fst hrun).symm.trans h
  exact ⟨placement, s', hplace, by rw [hrun, hresult]⟩

def Selects (q : Select) (es : List Expression) : Prop := ∀ e ∈ es, e.sql ∈ q.columns.map (·.expr.sql)

theorem selects_groupingKeys (q : Select) : q.Selects q.groupingKeys ↔ q.Selects q.groupBy := by
  rw [groupingKeys]
  split_ifs with h
  · simp only [Bool.and_eq_true, List.isEmpty_iff] at h
    refine ⟨fun _ e he => ?_, fun _ e he => ?_⟩
    · rw [h.1.1] at he
      cases he
    · obtain ⟨item, hitem, rfl⟩ := mem_map.mp he
      exact mem_map_of_mem (f := fun item : SelectItem => item.expr.sql) hitem
  · exact Iff.rfl

section

variable {c : Context Unit} {q : Select} {p : Pipeline} {s s' : Draft Unit}

theorem value_eq_of_literal (hclear : q.ClearKeys) (hids : c.objects.GivesPlainIds)
    (hcompiled : GroupingKey.CompiledFrom c k.key k) (hk : k.key ∈ q.groupingKeys) {v : Value}
    (hv : v.isReadable) (hsql : v.literal = k.key.sql) (ev : Evaluation) (d d' : Document) :
    ev.value d k.expression = ev.value d' k.expression := by
  obtain ⟨t, t', hcompile⟩ := hcompiled.compiled
  have hcolumn (ref : ColumnRef) (href : k.key = .column ref) : ref.isPlain := (hclear.columns ref (href ▸ hk)).1
  obtain ⟨w, hw⟩ := exists_literal_of_sql hcolumn hcompile hv hsql.symm
  rw [hw] at hcompile hk
  refine ev.value_constant _ ?_ d d'
  rw [fieldTexts_compileLiteral hids hcompile]
  exact hclear.constants w hk

theorem compiledFrom_of_mem (hks : List.Forall₂ (GroupingKey.CompiledFrom c) q.groupingKeys ks) (hk : k ∈ ks) :
    k.key ∈ q.groupingKeys ∧ GroupingKey.CompiledFrom c k.key k := by
  obtain ⟨e, he, hek⟩ := exists_left_of_forall₂ hks hk
  rw [hek.key]
  exact ⟨(of_mem_zip he).1, hek⟩

theorem keyValue_eq_of_sql (hclear : q.ClearKeys)
    (hks : List.Forall₂ (GroupingKey.CompiledFrom c) q.groupingKeys ks) {k' : GroupingKey}
    (hk : k ∈ ks) (hk' : k' ∈ ks) (hsql : k'.key.sql = k.key.sql) (value : Bson → Option Bson) :
    keyValue ks value k' = keyValue ks value k := by
  obtain ⟨hmem, -, -, t₁, t₂, hcompile⟩ := compiledFrom_of_mem hks hk
  obtain ⟨hmem', -, -, t₃, t₄, hcompile'⟩ := compiledFrom_of_mem hks hk'
  rw [hclear.texts _ hmem' _ hmem hsql] at hcompile'
  rw [keyValue, keyValue, settled_compile k.key t₃ t₁ _ _ t₄ t₂ hcompile' hcompile]

theorem idOf_eq_of_outputs {t t₃ t₄ : Draft Unit} (hids : c.objects.GivesPlainIds)
    (hselects : q.Selects q.groupingKeys) (hclear : q.ClearKeys) (hout : ClearNames outputs)
    (hkeys : compileKeys c 0 [] q.groupingKeys s = (.ok ks, t)) (hknown : ∀ k ∈ ks, ∃ k' ∈ ks, k'.key.sql = k.key.sql ∧
      t₃.registry.groupedPath? k.key.sql = some (keyPath ks.length k'))
    (hitems : compileItems c .grouped 0 [] q.columns t₃ = (.ok outputs, t₄))
    (hprojection : p.projection = if t₄.helperFields.isEmpty then some (finalProjection outputs) else none)
    {ev : Evaluation} {d₁ d₂ r₁ r₂ : Document} (h₁ : Document.get? r₁ "_id" = some ((keysOf ks).idOf (ev.value d₁)))
    (h₂ : Document.get? r₂ "_id" = some ((keysOf ks).idOf (ev.value d₂)))
    (hagree : ∀ o ∈ outputs, Document.atPath? (p.resultOf ev r₁) o.column.path =
      Document.atPath? (p.resultOf ev r₂) o.column.path) :
    (keysOf ks).idOf (ev.value d₁) = (keysOf ks).idOf (ev.value d₂) := by
  have hks := compileKeys_ok hkeys
  have hnames := (names_of_compileKeys hkeys fun ref href => (hclear.columns ref href).2).1
  obtain ⟨hfields, houtputs⟩ := compileItems_ok hitems
  rw [hfields] at hprojection
  refine idOf_eq hnames fun k hk => ?_
  obtain ⟨hmem, hcompiled⟩ := compiledFrom_of_mem hks hk
  obtain ⟨item, hitem, hsql⟩ := mem_map.mp (hselects k.key hmem)
  obtain ⟨o, ho, u, u', hkept, hcompile, hpath⟩ := exists_right_of_forall₂ houtputs hitem
  have ho := (of_mem_zip ho).2
  by_cases hliteral : ∃ v, item.expr = .literal v
  · -- A constant is not read from the group, but then the key is constant.
    obtain ⟨v, hv⟩ := hliteral
    rw [hv] at hcompile hsql
    obtain ⟨_, _, hstore, -⟩ := Attempt.bind_ok hcompile
    have hreadable := v.isReadable_of_toStored (Context.toStored_of_store hstore)
    rw [keyValue, keyValue, value_eq_of_literal hclear hids hcompiled hmem hreadable hsql ev d₁ d₂]
  · obtain ⟨k', hk', hsame, hfound⟩ := hknown k hk
    have hitem (v : Value) : item.expr ≠ .literal v := fun hv => hliteral ⟨v, hv⟩
    have hplain := (compiledFrom_of_mem hks hk').2.plain
    have hu : u.registry.groupedPath? item.expr.sql = some (keyPath ks.length k') := by
      rw [hsql]
      exact hkept _ _ hfound
    have hvalue := hagree o ho
    rw [atPath?_output hout ho hcompile hpath hprojection hitem hu h₁ hnames hplain hk',
      atPath?_output hout ho hcompile hpath hprojection hitem hu h₂ hnames hplain hk'] at hvalue
    rw [← keyValue_eq_of_sql hclear hks hk hk' hsame, hvalue, keyValue_eq_of_sql hclear hks hk hk' hsame]

theorem groupingKeys_eq_nil (hdistinct : q.distinct) :
    q.groupingKeys = [] ∧ q.aggregates = false ↔ q.columns = [] ∧ q.groupBy = [] ∧ q.aggregates = false := by
  rw [groupingKeys, hdistinct]
  cases q.aggregates <;> cases q.groupBy <;> simp

theorem expressions_keysOf (ks : List GroupingKey) : (keysOf ks).expressions = ks.map (·.expression) := by
  by_cases hlength : ks.length = 1
  · obtain ⟨k, rfl⟩ := length_eq_one_iff.mp hlength
    rfl
  · rw [keysOf_of_length hlength, GroupKeys.expressions, map_map]
    rfl

end

/-- A query with DISTINCT has a group unless it selects nothing and neither groups nor aggregates. All keys are
select items just when those of GROUP BY are. Then groups with the same values in all output columns are one group,
where names and keys are clear. -/
theorem distinct_rows {c : Catalog} {options : Options} {q : Select} {p : Pipeline} {outputs : List Output}
    (h : q.plan c options = .ok (p, outputs)) (hdistinct : q.distinct) :
    (p.group = none ↔ q.columns = [] ∧ q.groupBy = [] ∧ q.aggregates = false) ∧
      (∃ placement, c.place q.source = .ok placement ∧ ∀ g ∈ p.group,
        List.Forall₂ (fun k b => ∃ s s', k.compile (placement.context c options) .raw s = (.ok b, s'))
          q.groupingKeys g.keys.expressions) ∧
      (q.Selects q.groupingKeys ↔ q.Selects q.groupBy) ∧
      (q.Selects q.groupBy → q.ClearKeys → ClearNames outputs → ∀ g ∈ p.group,
        ∀ (ev : Evaluation) (d₁ d₂ r₁ r₂ : Document), g.GivesOut ev d₁ r₁ → g.GivesOut ev d₂ r₂ →
          (∀ o ∈ outputs, Document.atPath? (p.resultOf ev r₁) o.column.path =
            Document.atPath? (p.resultOf ev r₂) o.column.path) →
          Document.get? r₁ "_id" = Document.get? r₂ "_id") := by
  obtain ⟨placement, s', hplace, hclauses⟩ := plan_ok h
  obtain ⟨keys, s₁, s₂, s₃, s₄, hgroup, hsteps, hitems, hpgroup, hprojection⟩ := compileClauses_ok hclauses
  obtain ⟨ks, t, hks, hcases⟩ := compileGroup_ok hgroup
  have hcompiled := compileKeys_ok hks
  have hids : (placement.context c options).objects.GivesPlainIds := fun content s id s' hput => by cases hput
  rcases hcases with ⟨rfl, rfl⟩ | ⟨hne, rfl, rfl⟩
  · have hnil : q.groupingKeys = [] := forall₂_nil_right_iff.mp hcompiled
    have hkeys (g : Group) (hg : g ∈ p.group) : g.keys = .none := by
      rw [hpgroup] at hg
      split at hg
      · cases hg
        rfl
      · cases hg
    refine ⟨?_, ⟨placement, hplace, fun g hg => ?_⟩, q.selects_groupingKeys, ?_⟩
    · rw [← groupingKeys_eq_nil hdistinct, hpgroup]
      cases q.aggregates <;> simp [hnil]
    · rw [hkeys g hg, hnil]
      exact .nil
    · intro _ _ _ g hg ev d₁ d₂ r₁ r₂ h₁ h₂ _
      rw [Group.GivesOut, hkeys g hg] at h₁ h₂
      exact h₁.trans h₂.symm
  · have hkeys (g : Group) (hg : g ∈ p.group) : g.keys = keysOf ks := by
      rw [hpgroup] at hg
      cases hg
      rfl
    refine ⟨?_, ⟨placement, hplace, fun g hg => ?_⟩, q.selects_groupingKeys, ?_⟩
    · rw [← groupingKeys_eq_nil hdistinct, hpgroup]
      refine iff_of_false (by simp) fun hnil => hne ?_
      rw [hnil.1] at hcompiled
      exact forall₂_nil_left_iff.mp hcompiled
    · rw [hkeys g hg, expressions_keysOf]
      exact forall₂_map_right_iff.mpr (hcompiled.imp fun e k hk => hk.compiled)
    · intro hselects hclear hout g hg ev d₁ d₂ r₁ r₂ h₁ h₂ hagree
      rw [Group.GivesOut, hkeys g hg] at h₁ h₂
      have hknown (k : GroupingKey) (hk : k ∈ ks) : ∃ k' ∈ ks, k'.key.sql = k.key.sql ∧
          s₃.registry.groupedPath? k.key.sql = some (keyPath ks.length k') := by
        rcases groupedPath?_foldl_registerGrouped ks.length ks t.registry k.key.sql with
          ⟨-, hne⟩ | ⟨k', hk', hsql, hfound⟩
        · exact absurd rfl (hne k hk)
        · exact ⟨k', hk', hsql, hsteps.groupedPath? hfound⟩
      have hall := q.selects_groupingKeys.mpr hselects
      rw [h₁, h₂, idOf_eq_of_outputs hids hall hclear hout hks hknown hitems hprojection h₁ h₂ hagree]

/-- Points that differ in what is not selected are told apart by their groups, but not by their rows. -/
theorem distinct_rows_points :
    let c : Catalog := .ofTables [
      { name := "points", columns := [⟨"id", .integer, false⟩, ⟨"x", .integer, false⟩, ⟨"y", .integer, false⟩]
        primaryKey := ["id"] }]
    let x : Expression := .column ⟨"", "x"⟩
    let y : Expression := .column ⟨"", "y"⟩
    let q (items : List Expression) : Select :=
      { distinct := true, columns := items.map (⟨·, none⟩), source := ⟨⟨"points", none⟩, []⟩, groupBy := [x, y] }
    let d₁ : Document := [("x", .int32 1), ("y", .int32 2)]
    let d₂ : Document := [("x", .int32 1), ("y", .int32 3)]
    let ev := Evaluation.ofCompute
    (∃ p outputs g, (q [y, x]).plan c {} = .ok (p, outputs) ∧ g ∈ p.group ∧ (q [y, x]).ClearKeys ∧
      ∀ r₁ r₂, g.GivesOut ev d₁ r₁ → g.GivesOut ev d₂ r₂ → ∃ o ∈ outputs,
        Document.atPath? (p.resultOf ev r₁) o.column.path ≠ Document.atPath? (p.resultOf ev r₂) o.column.path) ∧
      ∃ p outputs g r₁ r₂, (q [x]).plan c {} = .ok (p, outputs) ∧ g ∈ p.group ∧ g.GivesOut ev d₁ r₁ ∧
        g.GivesOut ev d₂ r₂ ∧ Document.get? r₁ "_id" ≠ Document.get? r₂ "_id" ∧ ∀ o ∈ outputs,
          Document.atPath? (p.resultOf ev r₁) o.column.path = Document.atPath? (p.resultOf ev r₂) o.column.path := by
  intro c x y q d₁ d₂ ev
  let keys : GroupKeys := .compound [("x", .fieldRef "x"), ("y", .fieldRef "y")]
  let pipeline (outputs : List Output) : Pipeline :=
    { collection := "points", group := some ⟨keys, []⟩, projection := some (finalProjection outputs) }
  let output (name : String) : Output := ⟨⟨name, name, .integer⟩, .fieldRef ("_id." ++ name)⟩
  have hboth : (q [y, x]).plan c {} = .ok (pipeline [output "y", output "x"], [output "y", output "x"]) := by
    simp only [c, x, y, q, keys, pipeline, output]
    cbv
  have hone : (q [x]).plan c {} = .ok (pipeline [output "x"], [output "x"]) := by
    simp only [c, x, y, q, keys, pipeline, output]
    cbv
  have hid₁ : keys.idOf (ev.value d₁) = .document [("x", .int32 1), ("y", .int32 2)] := by
    simp only [keys, ev, d₁]
    cbv
  have hid₂ : keys.idOf (ev.value d₂) = .document [("x", .int32 1), ("y", .int32 3)] := by
    simp only [keys, ev, d₂]
    cbv
  have hclear : (q [y, x]).ClearKeys := by
    have hkeys : (q [y, x]).groupingKeys = [x, y] := rfl
    refine ⟨fun ref href => ?_, fun k hk k' hk' => ?_, fun v hv => ?_⟩
    · simp only [hkeys, x, y, mem_cons, Expression.column.injEq, not_mem_nil, or_false] at href
      rcases href with rfl | rfl <;> decide
    · simp only [hkeys, mem_cons, not_mem_nil, or_false] at hk hk'
      have hxy : x.sql ≠ y.sql := by decide
      rcases hk with rfl | rfl <;> rcases hk' with rfl | rfl
      · exact fun _ => rfl
      · exact fun h => absurd h hxy
      · exact fun h => absurd h.symm hxy
      · exact fun _ => rfl
    · simp [hkeys, x, y] at hv
  have hout : ClearNames [output "y", output "x"] := ⟨by decide, by decide⟩
  have hselects : (q [y, x]).Selects (q [y, x]).groupBy := by simp [Selects, q]
  refine ⟨⟨_, _, _, hboth, rfl, hclear, fun r₁ r₂ h₁ h₂ => ?_⟩, ?_⟩
  · by_contra hne
    have hagree : ∀ o ∈ [output "y", output "x"], _ := fun o ho => by_contra fun ho' => hne ⟨o, ho, ho'⟩
    have hsame := (distinct_rows hboth rfl).2.2.2 hselects hclear hout _ rfl ev d₁ d₂ r₁ r₂ h₁ h₂ hagree
    rw [Group.GivesOut] at h₁ h₂
    rw [h₁, h₂] at hsame
    have hids : keys.idOf (ev.value d₁) = keys.idOf (ev.value d₂) := Option.some.inj hsame
    rw [hid₁, hid₂] at hids
    simp at hids
  · refine ⟨_, _, _, [("_id", keys.idOf (ev.value d₁))], [("_id", keys.idOf (ev.value d₂))], hone, rfl, rfl, rfl,
      ?_, ?_⟩
    · rw [hid₁, hid₂]
      simp [Document.get?_cons]
    · rw [hid₁, hid₂]
      intro o ho
      obtain rfl := mem_singleton.mp ho
      simp only [pipeline, output, ev]
      cbv

end Select

end Pushdown
