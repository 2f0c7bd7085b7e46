import Pushdown.Proofs.GroupFields
import Pushdown.Proofs.OutputPaths

/-!
# What is read from groups

`reads_after_group`: the condition on groups and the last projection read nothing but the keys and aggregates of the
group (`Group.emitted`), since each value that they test or compute with was looked up in the group when the query
was compiled (`Draft.Finds`). Only a marked text in an array constant could be read as another field
(`HoldsNoArray`).
-/

namespace Pushdown

open List Attempt Expression Condition

namespace Bson

def readPaths (b : Bson) : List String := b.fieldTexts.map Path.afterMark

mutual

def matchedPaths : List (String × Bson) → List String
  | [] => []
  | (key, arg) :: rest => clausePaths key arg ++ matchedPaths rest
termination_by structural q => q

/-- One clause reads the field that it tests, the fields of its expression, or those of its terms. -/
def clausePaths (key : String) : Bson → List String
  | .array args =>
    if !isMarked key then [key]
    else if key = "$expr" then readPaths (.array args)
    else if key = "$and" ∨ key = "$or" ∨ key = "$nor" then matchedPathsOf args
    else []
  | arg => if !isMarked key then [key] else if key = "$expr" then arg.readPaths else []
termination_by structural arg => arg

def matchedPathsOf : List Bson → List String
  | [] => []
  | .document q :: qs => matchedPaths q ++ matchedPathsOf qs
  | _ :: qs => matchedPathsOf qs
termination_by structural qs => qs

end

/-- What a number or a truth value says of a field in a projection: whether it is kept. -/
def flag? : Bson → Option Bool
  | .boolean b => some b
  | .int32 n => some (n != 0)
  | .int64 n => some (n != 0)
  | .double x => some (x != 0)
  | _ => none

/-- The paths of the fields that a projection reads: those that are kept, and those that it computes with. -/
def projectedPaths (d : Document) : List String :=
  d.flatMap fun f => (f.2.flag?.map fun kept => if kept then [f.1] else []).getD f.2.readPaths

theorem matchedPaths_singleton (key : String) (arg : Bson) : matchedPaths [(key, arg)] = clausePaths key arg :=
  append_nil _

theorem clausePaths_field {key : String} (h : isMarked key = false) (arg : Bson) : clausePaths key arg = [key] := by
  cases arg <;> simp [clausePaths, h]

theorem clausePaths_expr (e : Bson) : clausePaths "$expr" e = e.readPaths := by cases e <;> rfl

theorem clausePaths_test {key : String} (h : isMarked key) (hkey : key ∉ ["$expr", "$and", "$or", "$nor"])
    (arg : Bson) : clausePaths key arg = [] := by
  simp only [mem_cons, not_mem_nil, or_false, not_or] at hkey
  cases arg <;> simp [clausePaths, h, hkey]

@[simp] theorem readPaths_fieldRef (path : String) : (fieldRef path).readPaths = [path] := by
  rw [readPaths, fieldTexts_fieldRef, map_singleton, afterMark_fieldRef]

end Bson

variable {path : String} {b : Bson}

namespace Condition

open Bson

mutual

/-- The paths that a condition reads: of the fields that it tests, and of those in its expressions. -/
def reads : Condition → List String
  | .and terms => readsOf terms
  | .or terms => readsOf terms
  | .nor terms => readsOf terms
  | .comparison input _ _ => input.toList
  | .isIn input _ _ => input.toList
  | .regex input _ _ _ => input.toList
  | .elemMatch input _ => [input]
  | .expr e => e.readPaths

def readsOf : List Condition → List String
  | [] => []
  | q :: qs => reads q ++ readsOf qs

end

mutual

theorem reads_negate (q : Condition) : q.negate.reads = q.reads := by
  cases q with
  | and terms | or terms => exact readsOf_negateAll terms
  | expr e =>
    show (opList "$not" [e]).readPaths = e.readPaths
    rw [readPaths, fieldTexts_opList (by decide), fieldTextsOf, fieldTextsOf, append_nil, readPaths]
  | elemMatch input condition => exact append_nil _
  | _ => rfl

theorem readsOf_negateAll (qs : List Condition) : readsOf (negateAll qs) = readsOf qs := by
  cases qs with
  | nil => rfl
  | cons q qs => rw [negateAll, readsOf, readsOf, reads_negate q, readsOf_negateAll qs]

end

theorem reads_of_tested? {q : Condition} (h : q.tested? = some path) : q.reads = [path] := by
  cases q with
  | comparison field op arg | isIn field args negated | regex field pattern options negated =>
    exact congrArg Option.toList h
  | _ => cases h

theorem reads_all {qs : List Condition} {q : Condition} (h : q ∈ all qs) : q.reads = readsOf qs := by
  rcases qs with _ | ⟨q', _ | ⟨q'', qs⟩⟩
  · cases h
  · cases h
    exact (append_nil _).symm
  · cases h
    rfl

theorem matchedPaths_comparisonTest (op : MatchOp) (arg : Bson) : matchedPaths (comparisonTest op arg) = [] := by
  rw [comparisonTest]
  split_ifs
  · rw [matchedPaths_singleton, clausePaths_test (by decide) (by decide)]
  · rw [matchedPaths_singleton]
    cases op <;> exact clausePaths_test (by decide) (by decide) arg

theorem matchedPaths_isInTest (args : List Bson) (negated : Bool) : matchedPaths (isInTest args negated) = [] := by
  rw [isInTest]
  split_ifs <;> rw [matchedPaths_singleton, clausePaths_test (by decide) (by decide)]

theorem matchedPaths_under {input : Option String} {test : Document} (htest : matchedPaths test = [])
    (hinput : ∀ path ∈ input.toList, isMarked path = false) : matchedPaths (under input test) = input.toList := by
  cases input with
  | none => exact htest
  | some field =>
    rw [under, matchedPaths_singleton, clausePaths_field (hinput field (mem_singleton_self _))]
    rfl

mutual

theorem matchedPaths_toDocument (q : Condition) (h : ∀ path ∈ q.reads, isMarked path = false) :
    matchedPaths q.toDocument = q.reads := by
  cases q with
  | and terms | or terms =>
    rcases terms with _ | ⟨q, _ | ⟨q', qs⟩⟩
    · rfl
    · rw [reads, readsOf, readsOf, append_nil] at h ⊢
      exact matchedPaths_toDocument q h
    · exact (matchedPaths_singleton ..).trans (matchedPathsOf_toDocuments (q :: q' :: qs) h)
  | nor terms => exact (matchedPaths_singleton ..).trans (matchedPathsOf_toDocuments terms h)
  | comparison input op arg => exact matchedPaths_under (matchedPaths_comparisonTest op arg) h
  | isIn input args negated => exact matchedPaths_under (matchedPaths_isInTest args negated) h
  | regex input pattern options negated => exact matchedPaths_under (by cases negated <;> rfl) h
  | elemMatch input condition =>
    exact (matchedPaths_singleton ..).trans (clausePaths_field (h input (mem_singleton_self _)) _)
  | expr e => exact (matchedPaths_singleton ..).trans (clausePaths_expr e)

theorem matchedPathsOf_toDocuments (qs : List Condition) (h : ∀ path ∈ readsOf qs, isMarked path = false) :
    matchedPathsOf (toDocuments qs) = readsOf qs := by
  cases qs with
  | nil => rfl
  | cons q qs =>
    show matchedPaths q.toDocument ++ matchedPathsOf (toDocuments qs) = readsOf (q :: qs)
    rw [readsOf, matchedPaths_toDocument q, matchedPathsOf_toDocuments qs]
    · exact fun path hpath => h path (mem_append_right _ hpath)
    · exact fun path hpath => h path (mem_append_left _ hpath)

end

end Condition

def Expression.HoldsNoArray (e : Expression) : Prop := ∀ items, .literal (.array items) ∉ e.parts

namespace Expression.HoldsNoArray

variable {e e' : Expression}

theorem inner (h : e.HoldsNoArray) (he' : e' ∈ e.inner) : e'.HoldsNoArray :=
  fun items hmem => h items (mem_parts.mpr (.inr ⟨e', he', hmem⟩))

end Expression.HoldsNoArray

def Draft.Finds {σ : Type} (s : Draft σ) (paths : List String) : Prop :=
  ∀ path ∈ paths, ∃ text, s.registry.groupedPath? text = some path

namespace Draft.Finds

variable {σ : Type} {s s' : Draft σ} {paths paths' : List String}

theorem mono (h : s.Finds paths) (hkeeps : s.Keeps s') : s'.Finds paths := by
  intro path hpath
  obtain ⟨text, hfound⟩ := h path hpath
  exact ⟨text, hkeeps.groupedPath? hfound⟩

theorem nil : s.Finds [] := fun _ hpath => by cases hpath

theorem singleton {text : String} (h : s.registry.groupedPath? text = some path) : s.Finds [path] :=
  forall_mem_singleton.mpr ⟨text, h⟩

theorem accumulated (s : Draft σ) (text : String) (a : Accumulator) : (s.accumulated text a).Finds [a.name] := by
  have hfound : (s.accumulated text a).registry.groupedPath? text = some a.name := by
    rw [Draft.accumulated, Registry.groupedPath?_registerGrouped, if_pos rfl]
  exact singleton hfound

theorem append (h : s.Finds paths) (h' : s.Finds paths') : s.Finds (paths ++ paths') :=
  forall_mem_append.mpr ⟨h, h'⟩

theorem of_texts {e : Expression} (he : e.HoldsNoArray)
    (h : ∀ t ∈ b.fieldTexts, Expression.GroupedText s.registry e.parts t) : s.Finds b.readPaths := by
  intro path hpath
  obtain ⟨t, ht, rfl⟩ := mem_map.mp hpath
  rcases h t ht with ⟨part, -, path, hfound, rfl⟩ | ⟨items, hitems, -⟩
  · exact ⟨part.sql, hfound.trans (congrArg some (afterMark_fieldRef path).symm)⟩
  · exact absurd hitems (he items)

end Draft.Finds

namespace Expression

open Compiling

variable {σ : Type} {c : Context σ} {e : Expression}

theorem finds_compile (hids : c.objects.GivesPlainIds) (he : e.HoldsNoArray) {s s' : Draft σ}
    (h : e.compile c .grouped s = (.ok b, s')) : s'.Finds b.readPaths :=
  .of_texts he (grounded_compile hids e h).texts

theorem ofGroupTests_finds (hids : c.objects.GivesPlainIds) :
    OfGroupTests c fun e q s => e.HoldsNoArray → s.Finds q.reads where
  mono h hkeeps he := (h he).mono hkeeps
  field _ hpath htested _ := by
    rw [reads_of_tested? htested]
    exact .singleton hpath
  computed h he := finds_compile hids he h
  connective {es qs s} h := by
    have hqs (hes : ∀ e ∈ es, e.HoldsNoArray) : s.Finds (readsOf qs) := by
      induction h with
      | nil => exact .nil
      | cons hq _ ih =>
        obtain ⟨he, hes⟩ := forall_mem_cons.mp hes
        exact (hq he).append (ih hes)
    exact ⟨fun he => hqs fun _ => he.inner, fun he => hqs fun _ => he.inner⟩
  negation h := by
    refine ⟨fun he => ?_, fun he => h ((he.inner (mem_singleton_self _)).inner (mem_singleton_self _))⟩
    rw [reads_negate]
    exact h (he.inner (mem_singleton_self _))

end Expression

namespace Select

open Compiling

variable {σ : Type} {c : Context σ} {q : Select} {s s' : Draft σ}

theorem finds_compileHaving (hids : c.objects.GivesPlainIds) (hq : ∀ e ∈ q.having, e.HoldsNoArray)
    {having : Option Condition} (h : compileHaving c q s = (.ok having, s')) :
    ∀ cond ∈ having, s'.Finds cond.reads := by
  intro cond hcond
  cases hhaving : q.having with
  | none =>
    rw [compileHaving, hhaving] at h
    obtain ⟨rfl, -⟩ := pure_ok h
    cases hcond
  | some e =>
    rw [compileHaving, hhaving] at h
    obtain ⟨terms, hterms, rfl⟩ := bind_pure_ok h
    rw [reads_all hcond]
    have hfinds := ofGroupTests_finds hids
    refine (hfinds.connective (hfinds.all hterms)).1 fun items hitems => ?_
    rcases mem_parts.mp hitems with heq | ⟨term, hterm, hitems⟩
    · cases heq
    · exact forall_conjuncts (fun _ h _ => h.inner) e (hq e hhaving) term hterm items hitems

theorem finds_compileItem (hids : c.objects.GivesPlainIds) {e : Expression} (he : e.HoldsNoArray) {name : String}
    (h : compileItem c .grouped name e s = (.ok b, s')) : s'.Finds b.readPaths := by
  cases e with
  | aggregate function arg distinct =>
    rcases compileAggregate_ok h with ⟨rfl, path, hpath, rfl⟩ | ⟨-, -, -, s₁, f, e, -, -, rfl, rfl⟩
    · rw [Bson.readPaths_fieldRef]
      exact .singleton hpath
    · rw [Bson.readPaths_fieldRef]
      exact .accumulated s₁ _ _
  | literal v =>
    obtain ⟨b', s₁, -, h⟩ := bind_ok h
    rw [wrapLiteral_ok (ofExcept_ok h).1, Bson.readPaths, Bson.fieldTexts_literal]
    exact .nil
  | _ => exact finds_compile hids he h

end Select

/-- Where the document of a group gives out its keys and its aggregates. -/
def Group.emitted (g : Group) : List String :=
  (match g.keys with
    | .none => []
    | .single _ => ["_id"]
    | .compound keys => (Document.ofFields keys).map fun k => "_id." ++ k.1) ++
    (g.toDocument.map Prod.fst).filter (· ≠ "_id")

/-- The paths that are read after grouping, by the condition on groups and by the last projection. -/
def Pipeline.readsAfterGroup (p : Pipeline) : List String :=
  (p.having.toList.flatMap fun having => Bson.matchedPaths having.toDocument) ++
    p.projection.toList.flatMap fun projection => Bson.projectedPaths projection.toDocument

namespace Group

variable {g : Group}

theorem mem_emitted (hnames : ∀ a ∈ g.accumulators, a.name ≠ "_id") (h : path ∈ g.paths) : path ∈ g.emitted := by
  rw [emitted, mem_append]
  rcases mem_append.mp h with hkey | haccumulator
  · refine .inl ?_
    cases hkeys : g.keys with
    | none =>
      rw [hkeys] at hkey
      cases hkey
    | single key =>
      rw [hkeys] at hkey
      exact hkey
    | compound keys =>
      rw [hkeys] at hkey
      obtain ⟨k, hk, rfl⟩ := mem_map.mp hkey
      obtain ⟨k', hk', hname⟩ := mem_map.mp (Document.mem_map_fst_ofFields.mpr (mem_map_of_mem hk))
      exact mem_map.mpr ⟨k', hk', by rw [hname]⟩
  · obtain ⟨a, ha, rfl⟩ := mem_map.mp haccumulator
    refine .inr (mem_filter.mpr ⟨?_, decide_eq_true (hnames a ha)⟩)
    rw [toDocument_eq, Document.mem_map_fst_ofFields, fields, map_cons, map_map]
    exact mem_cons_of_mem _ haccumulator

theorem isMarked_of_mem_paths {wanted : String → Prop} (hnamed : Draft.Named wanted g.accumulators)
    (h : path ∈ g.paths) : isMarked path = false := by
  rcases mem_append.mp h with hkey | haccumulator
  · have hstart := GroupKeys.hasPrefix_of_mem_paths hkey
    rw [Path.hasPrefix, isPrefixOf_iff_prefix] at hstart
    obtain ⟨rest, hrest⟩ := hstart
    rw [isMarked, ← hrest]
    rfl
  · obtain ⟨a, ha, rfl⟩ := mem_map.mp haccumulator
    obtain ⟨i, hi⟩ := getElem?_of_mem ha
    rcases hnamed i a hi with hname | ⟨-, hplain, -⟩
    · simp [isMarked, hname]
    · simp only [isPlainField, Bool.and_eq_true, bne_iff_ne] at hplain
      simpa [isMarked] using hplain.1.2

end Group

namespace Select

/-- The last projection reads what its outputs read, where none of them is a number or a truth value. -/
theorem mem_projectedPaths {outputs : List Output} (houtputs : ∀ o ∈ outputs, o.expression.flag? = none)
    (h : path ∈ Bson.projectedPaths (finalProjection outputs).toDocument) :
    ∃ o ∈ outputs, path ∈ o.expression.readPaths := by
  obtain ⟨f, hf, hpath⟩ := mem_flatMap.mp h
  rw [Projection.toDocument_eq] at hf
  rcases mem_append.mp (Document.mem_of_mem_ofFields hf) with hid | hf
  · split_ifs at hid
    · obtain rfl := mem_singleton.mp hid
      cases hpath
    · cases hid
  · obtain ⟨f', hf', rfl⟩ := mem_map.mp hf
    obtain ⟨o, ho, rfl⟩ := mem_map.mp hf'
    have hflag : (ProjectedField.computed o.expression).toBson.flag? = none := houtputs o ho
    rw [hflag] at hpath
    exact ⟨o, ho, hpath⟩

theorem flag?_of_readsOrComputes {σ : Type} {s : Draft σ} (h : s.ReadsOrComputes b) : b.flag? = none := by
  rcases h with ⟨text, path, -, rfl⟩ | ⟨fields, rfl⟩ <;> rfl

theorem reads_after_group {c : Catalog} {options : Options} {q : Select} {p : Pipeline} {outputs : List Output}
    {g : Group} (hplan : q.plan c options = .ok (p, outputs)) (hgroup : p.group = some g)
    (hhaving : ∀ e ∈ q.having, e.HoldsNoArray) (hitems : ∀ item ∈ q.columns, item.expr.HoldsNoArray) :
    p.readsAfterGroup ⊆ g.emitted := by
  obtain ⟨placement, r, -, hr, hgives⟩ := exists_clauses_of_plan hplan
  rw [hgives.group] at hgroup
  obtain ⟨keys, hkeys, rfl⟩ := Option.map_eq_some_iff.mp hgroup
  have hids : (placement.context c options).objects.GivesPlainIds := fun content s id s' hput => by cases hput
  have hnamed := (hr.accounted hkeys).named
  have hfound {path : String} (h : ∃ text, r.selected.registry.groupedPath? text = some path) :
      path ∈ (Group.mk keys r.selected.accumulators).paths := by
    obtain ⟨text, htext⟩ := h
    exact hr.mem_paths hkeys htext
  intro path hpath
  refine Group.mem_emitted (fun a ha => hnamed.name_ne_id ha) (hfound ?_)
  rcases mem_append.mp hpath with hpath | hpath
  · obtain ⟨having, hmem, hpath⟩ := mem_flatMap.mp hpath
    rw [hgives.having, Option.mem_toList] at hmem
    have hkeeps := (traces_compileItems Draft.isTrace_keeps Draft.keeps_label (Expression.accumulates_keeps _ none)
      (hr.outputs_of_keys hkeys) fun _ _ _ => Expression.accumulates_keeps _ _).1
    have hreads := (finds_compileHaving hids hhaving hr.having having hmem).mono hkeeps
    -- The document is read as the condition is, since no path of the group is marked.
    rw [Condition.matchedPaths_toDocument having fun path hpath =>
      Group.isMarked_of_mem_paths hnamed (hfound (hreads path hpath))] at hpath
    exact hreads path hpath
  · obtain ⟨projection, hmem, hpath⟩ := mem_flatMap.mp hpath
    rw [hgives.projection, Option.mem_toList] at hmem
    split_ifs at hmem
    obtain rfl := Option.mem_some_iff.mp hmem
    have hcompiled {o : Output} (ho : o ∈ r.outputs) :
        o.expression.flag? = none ∧ r.selected.Finds o.expression.readPaths := by
      obtain ⟨item, hitem, s₁, s₂, hkeeps, hcompile, -⟩ := exists_left_of_forall₂ (hr.items hkeys) ho
      exact ⟨flag?_of_readsOrComputes (readsOrComputes_compileItem hcompile),
        (finds_compileItem hids (hitems item (of_mem_zip hitem).1) hcompile).mono hkeeps⟩
    obtain ⟨o, ho, hpath⟩ := mem_projectedPaths (fun o ho => (hcompiled ho).1) hpath
    exact (hcompiled ho).2 path hpath

/-- Keys and aggregates are tested, compared with each other and computed with. -/
theorem reads_after_group_points :
    let c : Catalog := .ofTables [
      { name := "points", columns := [⟨"id", .integer, false⟩, ⟨"x", .integer, false⟩, ⟨"y", .integer, false⟩]
        primaryKey := ["id"] }]
    let x : Expression := .column ⟨"", "x"⟩
    let y : Expression := .column ⟨"", "y"⟩
    let count : Expression := .aggregate .count none false
    let q : Select :=
      { source := ⟨⟨"points", none⟩, []⟩, groupBy := [x, y]
        having := some (.and [.comparison .gt count (.literal (.integer 1)), .not (.comparison .eq x count)])
        columns := [⟨.isNull y false, some "open"⟩, ⟨.aggregate .max (some x) false, some "top"⟩] }
    ∃ p outputs g, q.plan c {} = .ok (p, outputs) ∧ p.group = some g ∧
      p.readsAfterGroup = ["agg0", "_id.x", "agg0", "_id.y", "top"] ∧ p.readsAfterGroup ⊆ g.emitted ∧
      g.emitted = ["_id.x", "_id.y", "agg0", "top"] := by
  intro c x y count q
  let g : Group :=
    ⟨.compound [("x", .fieldRef "x"), ("y", .fieldRef "y")], [⟨"agg0", .sum, .int32 1⟩, ⟨"top", .max, .fieldRef "x"⟩]⟩
  let outputs : List Output :=
    [⟨⟨"open", "open", .boolean⟩, .opList "$eq" [.opList "$ifNull" [.fieldRef "_id.y", .null], .null]⟩,
      ⟨⟨"top", "top", .integer⟩, .fieldRef "top"⟩]
  let p : Pipeline :=
    { collection := "points", group := some g, projection := some (finalProjection outputs)
      having := some (.and [.comparison (some "agg0") .gt (.int32 1),
        .expr (.opList "$not" [.opList "$eq" [.fieldRef "_id.x", .fieldRef "agg0"]])]) }
  have hplan : q.plan c {} = .ok (p, outputs) := by
    simp only [c, x, y, count, q, g, outputs, p]
    cbv
  refine ⟨p, outputs, g, hplan, rfl, ?_, reads_after_group hplan rfl ?_ ?_, ?_⟩
  · decide
  · intro e he items hmem
    cases he
    simp [x, count, Expression.parts, Expression.partsOf] at hmem
  · intro item hitem items hmem
    simp only [mem_cons, not_mem_nil, or_false, q] at hitem
    rcases hitem with rfl | rfl <;> simp [x, y, Expression.parts] at hmem
  · decide

end Select

end Pushdown
