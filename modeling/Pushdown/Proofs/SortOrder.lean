import Pushdown.Proofs.Accumulators
import Pushdown.Proofs.ColumnLocations
import Pushdown.Proofs.StoreOrder
import Pushdown.Proofs.Update

/-!
# The order of sorted results

The items of ORDER BY become keys, each with the path of an output (`sortTarget?`), and the keys become a document.
A document has each of its paths once, in the place of the first key and with the direction of the last one;
`sort_keeps_priorities_iff` says when it sorts rows as the keys do (`lexOrder`).
-/

namespace Pushdown

open List Attempt Draft Registry

namespace SortKey

/-- The order of two rows by one key, each row given by what it has at a path. -/
def order (k : SortKey) (a b : String → Bson) : Ordering :=
  if k.ascending then (a k.path).order (b k.path) else ((a k.path).order (b k.path)).swap

/-- The order by several keys, of which the first counts first. -/
def lexOrder : List SortKey → (String → Bson) → (String → Bson) → Ordering
  | [], _, _ => .eq
  | k :: keys, a, b => (k.order a b).then (lexOrder keys a b)

def ofField (f : String × Bson) : SortKey :=
  ⟨f.1, match f.2 with
    | .int32 n => 0 ≤ n
    | _ => true⟩

/-- The key for a path that counts in a list. -/
def at? (keys : List SortKey) (path : String) : Option SortKey := keys.find? (·.path == path)

variable {keys kept : List SortKey} {k : SortKey} {path : String} {a b : String → Bson}

theorem order_eq_iff : k.order a b = .eq ↔ (a k.path).order (b k.path) = .eq := by
  rw [order]
  split <;> simp

theorem order_of_mem (hmem : k.path ∈ keys.map (·.path)) (h : lexOrder keys a b = .eq) : k.order a b = .eq := by
  induction keys with
  | nil => cases hmem
  | cons k' keys ih =>
    rw [lexOrder, Ordering.then_eq_eq] at h
    rcases mem_cons.mp hmem with hpath | hmem
    · rw [order_eq_iff, hpath, ← order_eq_iff]
      exact h.1
    · exact ih hmem h.2

theorem at?_cons : at? (k :: keys) path = if k.path = path then some k else at? keys path := by
  by_cases h : k.path = path
  · rw [at?, find?_cons_of_pos (by simpa using h), if_pos h]
  · rw [at?, find?_cons_of_neg (by simpa using h), if_neg h, at?]

theorem path_of_at? (h : at? keys path = some k) : k.path = path := by
  simpa using find?_some h

theorem at?_isSome (h : path ∈ keys.map (·.path)) : ∃ k, at? keys path = some k := by
  obtain ⟨k, hk, rfl⟩ := mem_map.mp h
  exact Option.isSome_iff_exists.mp (find?_isSome.mpr ⟨k, hk, by simp⟩)

def keep (kept : List SortKey) (k : SortKey) : List SortKey :=
  if k.path ∈ kept.map (·.path) then kept else kept ++ [k]

theorem lexOrder_append : lexOrder (kept ++ keys) a b = (lexOrder kept a b).then (lexOrder keys a b) := by
  induction kept with
  | nil => rfl
  | cons k kept ih => rw [cons_append, lexOrder, lexOrder, ih, Ordering.then_assoc]

theorem lexOrder_foldl_keep : lexOrder (keys.foldl keep kept) a b =
    (lexOrder kept a b).then (lexOrder keys a b) := by
  induction keys generalizing kept with
  | nil => cases h : lexOrder kept a b <;> simp [lexOrder, h]
  | cons k keys ih =>
    rw [foldl_cons, ih, keep]
    split
    · rename_i hmem
      cases h : lexOrder kept a b with
      | lt | gt => rfl
      | eq => rw [lexOrder, order_of_mem hmem h]; rfl
    · rw [lexOrder_append, Ordering.then_assoc]
      simp [lexOrder]

theorem at?_append : at? (kept ++ keys) path = (at? kept path).or (at? keys path) := find?_append ..

theorem at?_foldl_keep : at? (keys.foldl keep kept) path = (at? kept path).or (at? keys path) := by
  induction keys generalizing kept with
  | nil => simp [at?]
  | cons k keys ih =>
    rw [foldl_cons, ih, keep, at?_cons]
    split
    · rename_i hmem
      by_cases hpath : k.path = path
      · obtain ⟨found, hfound⟩ := at?_isSome (hpath ▸ hmem)
        simp [hfound]
      · rw [if_neg hpath]
    · rw [at?_append, Option.or_assoc, at?_cons]
      by_cases hpath : k.path = path <;> simp [hpath, at?]

theorem eq_of_at? {keys keys' : List SortKey} (hnodup : (keys.map (·.path)).Nodup)
    (hpaths : keys.map (·.path) = keys'.map (·.path)) (h : ∀ path, at? keys path = at? keys' path) : keys = keys' := by
  induction keys generalizing keys' with
  | nil => exact (map_eq_nil_iff.mp hpaths.symm).symm
  | cons k keys ih =>
    cases keys' with
    | nil => cases hpaths
    | cons k' keys' =>
      obtain ⟨hpath, hrest⟩ := List.cons.inj hpaths
      obtain ⟨hnew, hnodup⟩ := nodup_cons.mp hnodup
      have hk := h k.path
      rw [at?_cons, at?_cons, if_pos rfl, if_pos hpath.symm, Option.some.injEq] at hk
      subst hk
      refine congrArg (k :: ·) (ih hnodup hrest fun path => ?_)
      by_cases hp : k.path = path
      · have hnone {keys : List SortKey} (hnot : k.path ∉ keys.map (·.path)) : at? keys path = none := by
          rw [← hp, at?, find?_eq_none]
          exact fun x hx heq => hnot (mem_map.mpr ⟨x, hx, by simpa using heq⟩)
        rw [hnone hnew, hnone (hrest ▸ hnew)]
      · have hrest := h path
        rwa [at?_cons, at?_cons, if_neg hp, if_neg hp] at hrest

def toField (k : SortKey) : String × Bson := (k.path, .int32 (if k.ascending then 1 else -1))

theorem ofField_toField (k : SortKey) : ofField k.toField = k := by
  obtain ⟨path, ascending⟩ := k
  cases ascending <;> rfl

theorem map_fst_foldl_insert {d : Document} (h : d.map Prod.fst = kept.map (·.path)) :
    ((keys.map toField).foldl (fun d f => d.insert f.1 f.2) d).map Prod.fst = (keys.foldl keep kept).map (·.path) := by
  induction keys generalizing d kept with
  | nil => exact h
  | cons k keys ih =>
    refine ih ?_
    rw [Document.map_fst_insert, h, keep, show k.toField.1 = k.path from rfl]
    split_ifs <;> simp

theorem at?_ofFields (path : String) : at? ((toDocument keys).map ofField) path = at? keys.reverse path := by
  have hread (d : Document) : at? (d.map ofField) path = (d.get? path).map fun v => ofField (path, v) := by
    induction d with
    | nil => rfl
    | cons f d ih =>
      rw [map_cons, at?_cons, ih, Document.get?_cons]
      show (if f.1 = path then _ else _) = _
      split
      · rename_i hpath
        rw [← hpath]
        rfl
      · rfl
  have hwritten (keys : List SortKey) :
      Document.get? (keys.map toField) path = (at? keys path).map (toField · |>.2) := by
    induction keys with
    | nil => rfl
    | cons k keys ih =>
      rw [map_cons, at?_cons, ← Prod.mk.eta (p := k.toField), Document.get?_cons, ih]
      show (if k.path = path then _ else _) = _
      split <;> rfl
  rw [hread, show toDocument keys = Document.ofFields (keys.map toField) from rfl, Document.get?_ofFields,
    ← map_reverse, hwritten]
  cases hfound : at? keys.reverse path with
  | none => rfl
  | some k =>
    obtain rfl := path_of_at? hfound
    exact congrArg some (ofField_toField k)

/-- Rows that differ at one path only. -/
def lower (path : String) (p : String) : Bson := if p = path then .int32 0 else .null

def upper (path : String) (p : String) : Bson := if p = path then .int32 1 else .null

theorem lexOrder_lower_upper : lexOrder keys (lower path) (upper path) =
    match at? keys path with
    | some k => if k.ascending then .lt else .gt
    | none => .eq := by
  have hless : (Bson.int32 0).order (.int32 1) = .lt := by decide
  have hsame : Bson.null.order .null = .eq := by decide
  induction keys with
  | nil => rfl
  | cons k keys ih =>
    rw [lexOrder, at?_cons, ih, order]
    by_cases hpath : k.path = path
    · simp only [lower, upper, hpath, if_true, hless]
      cases k.ascending <;> rfl
    · simp only [lower, upper, hpath, if_false, hsame]
      cases k.ascending <;> rfl

/-- A document orders rows as the keys that it is made of just when the first and the last key for each path
have the same direction. -/
theorem lexOrder_toDocument_iff :
    (∀ a b, lexOrder ((toDocument keys).map ofField) a b = lexOrder keys a b) ↔
      ∀ path, at? keys path = at? keys.reverse path := by
  constructor
  · intro h path
    have hrows := h (lower path) (upper path)
    rw [lexOrder_lower_upper, lexOrder_lower_upper, at?_ofFields] at hrows
    cases hfirst : at? keys path with
    | none =>
      cases hlast : at? keys.reverse path with
      | none => rfl
      | some k => rw [hfirst, hlast] at hrows; cases hk : k.ascending <;> simp [hk] at hrows
    | some k =>
      cases hlast : at? keys.reverse path with
      | none => rw [hfirst, hlast] at hrows; cases hk : k.ascending <;> simp [hk] at hrows
      | some k' =>
        rw [hfirst, hlast] at hrows
        have hpath := (path_of_at? hfirst).trans (path_of_at? hlast).symm
        obtain ⟨p, ascending⟩ := k
        obtain ⟨p', ascending'⟩ := k'
        obtain rfl : p = p' := hpath
        cases ascending <;> cases ascending' <;> simp at hrows ⊢
  · intro h a b
    have hpaths : ((toDocument keys).map ofField).map (·.path) = (keys.foldl keep []).map (·.path) := by
      rw [map_map]
      exact map_fst_foldl_insert rfl
    have hnodup : (((toDocument keys).map ofField).map (·.path)).Nodup := by
      rw [map_map]
      exact Document.nodup_ofFields _
    have heq := eq_of_at? hnodup hpaths fun path => by rw [at?_ofFields, ← h path, at?_foldl_keep]; rfl
    rw [heq, lexOrder_foldl_keep]
    rfl

end SortKey

namespace Registry

/-- The first name under which the value with a text is given out. -/
def label? (r : Registry) (text : String) : Option String := (r.get? text).bind (·.labels.head?)

variable {r : Registry} {d : ColumnDetail} {text label t : String}

theorem label?_register (hd : d.labels = []) : (r.register text d).label? t = r.label? t := by
  rw [label?, label?, get?_register]
  split_ifs with h
  · rw [h.1, h.2]
    simp [hd]
  · rfl

theorem label?_registerGrouped {path : String} (hd : d.labels = []) :
    (r.registerGrouped text d path).label? t = r.label? t := by
  have hregister : (r.register text d).label? t = r.label? t := label?_register hd
  rw [← hregister, registerGrouped, label?, get?_modify, label?]
  split_ifs
  · cases (r.register text d).get? t <;> rfl
  · rfl

theorem label?_addLabel (h : r.get? text ≠ none) :
    (r.addLabel text label).label? t = (r.label? t).or (if t = text then some label else none) := by
  have hlabel (d : ColumnDetail) : (d.withLabel label).labels.head? = d.labels.head?.or (some label) := by
    rw [ColumnDetail.withLabel]
    split_ifs with hname
    · cases hlabels : d.labels with
      | nil => rw [hlabels] at hname; cases hname
      | cons first rest => rfl
    · cases d.labels <;> rfl
  rw [addLabel, label?, get?_modify, label?]
  split_ifs with ht
  · subst ht
    obtain ⟨d, hd⟩ := Option.ne_none_iff_exists'.mp h
    simp [hd, hlabel]
  · simp

end Registry

namespace Draft

variable {σ : Type}

def SameLabels (s s' : Draft σ) : Prop := ∀ text, s'.registry.label? text = s.registry.label? text

theorem isTrace_sameLabels : IsTrace (SameLabels (σ := σ)) where
  refl _ _ := rfl
  trans h h' text := (h' text).trans (h text)
  store _ _ _ := rfl
  register _ _ _ _ := Registry.label?_register rfl

theorem accumulates_sameLabels (c : Context σ) (wanted : Option String) :
    Expression.Accumulates c wanted SameLabels := fun _ _ _ _ _ _ _ => Registry.label?_registerGrouped rfl

theorem isFilterTrace_sameLabels (c : Context σ) (scope : Scope) : Expression.IsFilterTrace c scope SameLabels where
  toIsTrace := isTrace_sameLabels
  accumulate _ := accumulates_sameLabels c none
  compute _ _ _ _ := rfl

end Draft

namespace Select

open Compiling

variable {σ : Type} {c : Context σ} {q : Select} {s s' : Draft σ} {outputs : List Output}

theorem traces_compileGroup (c : Context σ) (q : Select) : Traces Draft.SameLabels (compileGroup c q) := by
  have hkeys (ks : List GroupingKey) (n : Nat) (r : Registry) (text : String) :
      (ks.foldl (fun r k => r.registerGrouped k.key.sql (.ofExpression k.expression)
        (if n = 1 then "_id" else "_id." ++ k.name)) r).label? text = r.label? text := by
    induction ks generalizing r with
    | nil => rfl
    | cons k ks ih => exact (ih _).trans (Registry.label?_registerGrouped rfl)
  refine isTrace_sameLabels.partwise.bind (traces_compileKeys isTrace_sameLabels _ _ _) fun ks => ?_
  rcases ks with _ | ⟨k, _ | ⟨k', ks⟩⟩
  · exact isTrace_sameLabels.partwise.pure _
  · intro s keys s' h
    cases h
    exact hkeys _ _ _
  · intro s keys s' h
    cases h
    exact hkeys _ _ _

def outputOf? (items : List SelectItem) (outputs : List Output) (text : String) : Option Output :=
  ((items.zip outputs).find? (·.1.expr.sql == text)).map (·.2)

theorem label?_of_compileItems {scope : Scope} {position : Nat} {used : List String} {items : List SelectItem}
    (h : compileItems c scope position used items s = (.ok outputs, s')) (text : String) :
    s'.registry.label? text = (s.registry.label? text).or ((outputOf? items outputs text).map (·.column.name)) := by
  induction items generalizing position used outputs s with
  | nil =>
    obtain ⟨rfl, rfl⟩ := pure_ok h
    exact Option.or_none.symm
  | cons item items ih =>
    obtain ⟨b, type, s₁, rest, hb, hrest, rfl⟩ := compileItems_cons_ok h
    have hitem := traces_compileItem isTrace_sameLabels (fun _ => accumulates_sameLabels c none)
      (fun _ _ => accumulates_sameLabels c _) s b s₁ hb
    have hknown : (s₁.registry.register item.expr.sql (.ofExpression b)).get? item.expr.sql ≠ none := by
      rw [Registry.get?_register]
      split_ifs with hnew
      · simp
      · exact fun hnone => hnew ⟨rfl, hnone⟩
    rw [ih hrest, givenOut, Registry.label?_addLabel hknown, Registry.label?_register rfl, hitem, Option.or_assoc]
    congr 1
    by_cases htext : text = item.expr.sql
    · simp [outputOf?, htext]
    · rw [if_neg htext, outputOf?, outputOf?, zip_cons_cons,
        find?_cons_of_neg (by simpa using Ne.symm htext), Option.none_or]

namespace Clauses

variable {placement : Placement} {r : Clauses σ} {objects : σ} {p : Pipeline}

theorem CompiledFrom.label?_eq (h : r.CompiledFrom c placement q { objects }) (text : String) :
    r.selected.registry.label? text = (outputOf? q.columns r.outputs text).map (·.column.name) := by
  obtain ⟨terms, -, hfilter⟩ := h.filter
  have hfiltered := traces_where (isFilterTrace_sameLabels c .raw) _ _ _ _ hfilter text
  have hgrouped := traces_compileGroup c q _ _ _ h.keys text
  have htested := traces_compileHaving (isFilterTrace_sameLabels c .grouped) q _ _ _ h.having text
  rw [label?_of_compileItems h.outputs, htested, hgrouped, hfiltered]
  rfl

theorem sort_of_finish (h : r.finish c placement q r.selected = (.ok (p, outputs), s')) :
    sortKeys r.selected.registry r.outputs q.orderBy = .ok p.sort := by
  have hrest {t : Draft σ} (h : compileRest c placement q r.filter r.having r.keys r.outputs r.selected t =
      (.ok (p, outputs), s')) : sortKeys r.selected.registry r.outputs q.orderBy = .ok p.sort := by
    rw [compileRest] at h
    obtain ⟨sort, t₁, hsort, h⟩ := bind_ok h
    obtain ⟨skip, t₂, -, h⟩ := bind_ok h
    obtain ⟨limit, t₃, -, h⟩ := bind_ok h
    extract_lets rest at h
    split at h
    all_goals
      obtain ⟨projection, t₄, -, h⟩ := bind_ok h
      obtain ⟨top, t₅, -, h⟩ := bind_ok h
      cases (pure_ok h).1
      exact (ofExcept_ok hsort).1
  rw [finish] at h
  split at h
  · obtain ⟨_, t, -, h⟩ := bind_ok h
    exact hrest h
  · exact hrest h

end Clauses

/-- The output that an ORDER BY expression stands for: that of the first select item with its text, or else the
first one whose name it is. -/
def sortTarget? (q : Select) (outputs : List Output) (e : Expression) : Option Output :=
  (outputOf? q.columns outputs e.sql).or
    (match e with
      | .column ref =>
        if ref.table.isEmpty then outputs.find? fun o => Text.same o.column.name ref.column else none
      | _ => none)

theorem sortedOutput?_eq {r : Registry} (hapart : Text.Apart (outputs.map (·.column.name))) {e : Expression}
    (h : r.label? e.sql = (outputOf? q.columns outputs e.sql).map (·.column.name)) :
    sortedOutput? r outputs e = q.sortTarget? outputs e := by
  unfold sortTarget? sortedOutput?
  simp only [show ((r.get? e.sql).bind fun d => d.labels.head?) = r.label? e.sql from rfl, h]
  cases hfound : outputOf? q.columns outputs e.sql with
  | some o =>
    obtain ⟨pair, hpair, rfl⟩ := Option.map_eq_some_iff.mp hfound
    have hmem := (of_mem_zip (mem_of_find?_eq_some hpair)).2
    simp [find?_of_apart hapart hmem (Text.same_refl _)]
  | none =>
    cases e with
    | column ref =>
      by_cases href : ref.table.isEmpty
      · simp only [href, if_true, Option.map_none, Option.toList_none, Option.toList_some, nil_append,
          findSome?_cons, findSome?_nil, Option.none_or]
        cases outputs.find? _ <;> rfl
      · simp [href]
    | _ => rfl

/-- The keys of an accepted query are the paths of its `sortTarget?`s, with their directions, where no two output
names are the same. Rows are sorted by the keys, first key first, just when the first and the last key for each path
have the same direction. -/
theorem sort_keeps_priorities_iff {c : Catalog} {options : Options} {q : Select} {p : Pipeline} {outputs : List Output}
    (h : q.plan c options = .ok (p, outputs)) :
    (Text.Apart (outputs.map (·.column.name)) →
      List.Forall₂ (fun item key => ∃ o, q.sortTarget? outputs item.expr = some o ∧
        key = ⟨o.column.path, item.ascending⟩) q.orderBy p.sort) ∧
      (p.sort ≠ [] → [("$sort", .document (SortKey.toDocument p.sort))] ∈ p.stages) ∧
      ((∀ a b, SortKey.lexOrder ((SortKey.toDocument p.sort).map SortKey.ofField) a b = SortKey.lexOrder p.sort a b) ↔
        ∀ path, SortKey.at? p.sort path = SortKey.at? p.sort.reverse path) := by
  refine ⟨fun hapart => ?_, fun hsort => ?_, SortKey.lexOrder_toDocument_iff⟩
  · obtain ⟨placement, s', hplace, hclauses⟩ := plan_ok h
    obtain ⟨r, hr, hfinish⟩ := Clauses.exists_of_compileClauses hclauses
    obtain rfl := (Clauses.gives_of_finish hfinish).outputs
    refine (mapM_ok_iff.mp (Clauses.sort_of_finish hfinish)).imp fun item key hkey => ?_
    rw [sortedOutput?_eq hapart (hr.label?_eq _)] at hkey
    split at hkey
    · rename_i o ho
      cases hkey
      exact ⟨o, ho, rfl⟩
    · cases hkey
  · have hempty : p.sort.isEmpty = false := by simpa using hsort
    simp [Pipeline.stages, hempty]

/-- `ORDER BY x, y, x DESC` sorts by `x` downwards. -/
theorem sort_keeps_priorities_points :
    let c : Catalog := .ofTables [
      { name := "points", columns := [⟨"id", .integer, false⟩, ⟨"x", .integer, false⟩, ⟨"y", .integer, false⟩]
        primaryKey := ["id"] }]
    let q : Select :=
      { source := ⟨⟨"points", none⟩, []⟩, columns := [⟨.column ⟨"", "x"⟩, none⟩, ⟨.column ⟨"", "y"⟩, some "height"⟩]
        orderBy := [⟨.column ⟨"", "x"⟩, true⟩, ⟨.column ⟨"", "height"⟩, true⟩, ⟨.column ⟨"", "x"⟩, false⟩] }
    ∃ p outputs, q.plan c {} = .ok (p, outputs) ∧ Text.Apart (outputs.map (·.column.name)) ∧
      p.sort = [⟨"x", true⟩, ⟨"height", true⟩, ⟨"x", false⟩] ∧
      ¬ ∀ a b, SortKey.lexOrder ((SortKey.toDocument p.sort).map SortKey.ofField) a b =
        SortKey.lexOrder p.sort a b := by
  intro c q
  let outputs : List Output := [⟨⟨"x", "x", .integer⟩, .fieldRef "x"⟩, ⟨⟨"height", "height", .integer⟩, .fieldRef "y"⟩]
  let p : Pipeline :=
    { collection := "points", projection := some (finalProjection outputs)
      sort := [⟨"x", true⟩, ⟨"height", true⟩, ⟨"x", false⟩] }
  have hplan : q.plan c {} = .ok (p, outputs) := by
    simp only [c, q, p, outputs]
    cbv
  refine ⟨p, outputs, hplan, by decide +kernel, rfl, fun hall => ?_⟩
  have hx := (sort_keeps_priorities_iff hplan).2.2.mp hall "x"
  revert hx
  decide

end Select

end Pushdown
