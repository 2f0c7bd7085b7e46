import Pushdown.Proofs.ColumnLocations
import Pushdown.Proofs.FieldTests
import Pushdown.Proofs.NestedWrite
import Pushdown.Proofs.PlannedWrites

/-!
# Deletes by one update

A delete of merged rows is one update when its condition reads nothing but the row (`fastDelete`).
`removes_of_pull`: the elements that the update removes are the rows that a delete in two phases takes out with the
filter `inStore`, in which tests for NULL stand for tests against NULL: the store compares NULL as any other value.
-/

namespace Pushdown

open List Expression Condition NestedWrite

variable {e : Expression} {es : List Expression} {l : Layout} {q : Option Condition} {qs : List Condition}
  {ref : ColumnRef} {column : NestedColumn} {r : Row}

namespace WriteContext

variable {σ : Type} {c : WriteContext σ} {delete : Delete} {s s' : σ}

def rowContext (c : WriteContext σ) (l : Layout) (mode : Mode) : Context σ where
  catalog := c.catalog
  top := l.collection
  objects := c.objects
  options := c.options
  sources := [{ name := l.table, table := l.table, hops := l.hops, optional := false }]
  mode := mode

def Becomes (c : Context σ) (e : Expression) (q : Condition) : Prop :=
  e.containsAggregate = false ∧ ∃ s s' : Draft σ, e.filter c .raw s = (.ok q, s')

def plainFilter (c : Context σ) (e : Expression) : Compiling σ Condition :=
  if e.containsAggregate then throw (.aggregateNotAllowed e.sql) else e.filter c .raw

theorem becomes_of_all {c : Context σ} {d d' : Draft σ} (h : Attempt.all (es.map (plainFilter c)) d = (.ok qs, d')) :
    List.Forall₂ (Becomes c) es qs := by
  induction es generalizing qs d with
  | nil => cases h; exact .nil
  | cons e es ih =>
    obtain ⟨q, rest, d₁, hq, hrest, rfl⟩ := Attempt.both_ok h
    refine .cons ?_ (ih hrest)
    rw [plainFilter] at hq
    split at hq
    · cases hq
    · exact ⟨Bool.eq_false_of_not_eq_true ‹_›, d, d₁, hq⟩

variable {mode : Mode}

theorem condition_ok (h : c.condition l (some e) mode s = (.ok q, s')) :
    ∃ qs, List.Forall₂ (Becomes (c.rowContext l mode)) e.conjuncts qs ∧ q = Condition.all qs := by
  obtain ⟨qs, hqs, rfl⟩ := Attempt.bind_pure_ok h
  have hcompiled : (Attempt.all (e.conjuncts.map (plainFilter (c.rowContext l mode)))
      { objects := s }).1.mapError WriteError.query = .ok qs := congrArg Prod.fst hqs
  exact ⟨qs, becomes_of_all (Prod.ext (ok_of_mapError hcompiled) rfl), rfl⟩

theorem sourceOf_ok {source : Source} (h : (c.rowContext l mode).sourceOf ref = .ok source) :
    source = { name := l.table, table := l.table, hops := l.hops, optional := false } ∧
      (ref.table.isEmpty ∨ Text.same l.table ref.table) := by
  rw [Context.sourceOf] at h
  split at h
  · split at h
    · rename_i found hfound
      cases h
      have hsame := find?_some hfound
      have hmem := mem_of_find?_eq_some hfound
      obtain rfl := mem_singleton.mp hmem
      exact ⟨rfl, .inr hsame⟩
    · cases h
  · rename_i hempty
    refine ⟨?_, .inl (by simpa using hempty)⟩
    obtain ⟨found, hfound, h⟩ := exists_of_bind_ok h
    cases hhas : (c.rowContext l mode).hasColumn ref.column
        { name := l.table, table := l.table, hops := l.hops, optional := false } with
    | error e =>
      simp only [rowContext, List.filterM, List.filterAuxM] at hfound hhas
      rw [hhas] at hfound
      cases hfound
    | ok b =>
      simp only [rowContext, List.filterM, List.filterAuxM] at hfound hhas
      rw [hhas] at hfound
      cases b <;> cases hfound <;> cases h
      rfl

theorem resolve_ok {found : ResolvedColumn} (h : (c.rowContext l mode).resolve ref = .ok found) :
    ∃ table column location, (ref.table.isEmpty ∨ Text.same l.table ref.table) ∧
      c.catalog.table l.table = .ok table ∧ table.column? ref.column = some column ∧
      c.catalog.locate l.collection l.hops ref.column = .ok location ∧
      (mode = .element → location.depth = l.hops.length ∧ found = ⟨location.field, column.type⟩) := by
  rw [Context.resolve] at h
  obtain ⟨source, hsource, h⟩ := exists_of_bind_ok h
  obtain ⟨rfl, hname⟩ := sourceOf_ok hsource
  obtain ⟨table, htable, h⟩ := exists_of_bind_ok h
  split at h
  · cases h
  · rename_i column hcolumn
    obtain ⟨location, hlocation, h⟩ := exists_of_bind_ok h
    refine ⟨table, column, location, hname, ok_of_mapError htable, hcolumn, ok_of_mapError hlocation, ?_⟩
    rintro rfl
    by_cases hdepth : location.depth = l.hops.length
    · simp only [rowContext, hdepth, if_true] at h
      cases h
      exact ⟨hdepth, rfl⟩
    · simp only [rowContext, hdepth, if_false] at h
      cases h

theorem nestedColumn_ok {column : Column} {nested : NestedColumn} (h : c.nestedColumn l column = .ok nested) :
    ∃ location, c.catalog.locate l.collection l.hops column.name = .ok location ∧
      nested = ⟨column.name, location, column.type⟩ := by
  obtain ⟨location, hlocation, h⟩ := exists_of_bind_ok h
  cases h
  exact ⟨location, ok_of_mapError hlocation, rfl⟩

theorem find?_nestedColumn {columns : List Column} {nested : List NestedColumn}
    (h : columns.mapM (c.nestedColumn l) = .ok nested) {name : String} {column : Column}
    (hfind : columns.find? (fun x => Text.same x.name name) = some column) :
    ∃ location, c.catalog.locate l.collection l.hops column.name = .ok location ∧
      nested.find? (fun x => Text.same x.name name) = some ⟨column.name, location, column.type⟩ := by
  induction columns generalizing nested with
  | nil => cases hfind
  | cons x columns ih =>
    rw [mapM_cons] at h
    obtain ⟨first, hfirst, h⟩ := exists_of_bind_ok h
    obtain ⟨rest, hrest, h⟩ := exists_of_bind_ok h
    cases h
    obtain ⟨location, hlocation, rfl⟩ := nestedColumn_ok hfirst
    rw [find?_cons] at hfind ⊢
    cases hsame : Text.same x.name name with
    | true =>
      rw [hsame] at hfind
      cases hfind
      exact ⟨location, hlocation, rfl⟩
    | false =>
      rw [hsame] at hfind
      exact ih hrest hfind

end WriteContext

/-- A stored value of the type: what storing a value of the type gives, and what is read as it. -/
def SqlType.Holds (fetch : String → Except StoreError (List UInt8)) (t : SqlType) (b : Bson) : Prop :=
  ∃ v : Value, v.type? = some t ∧ v.Stored b ∧ Value.ofStored fetch t b = .ok v

namespace NestedWrite

variable {w : NestedWrite} {fetch : String → Except StoreError (List UInt8)}

/-- The row itself holds one value of the column's type, or none. -/
structure HoldsOwn (fetch : String → Except StoreError (List UInt8)) (r : Row)
    (column : NestedColumn) : Prop where
  named : isMarked column.location.field = false
  single : Bson.isSingle (Path.split column.location.field) (.document r.row)
  typed : ∀ b, Document.atPath? r.row column.location.field = some b → b.isNullish = false → column.type.Holds fetch b

theorem length_steps_of_mem_walk {hops : List Hop} {r row : Row} (h : row ∈ r.walk hops) :
    row.steps.length = r.steps.length + hops.length := by
  obtain ⟨steps, -, hsteps, hlength⟩ := Row.exists_steps_of_mem_walk h
  rw [hsteps, length_append, hlength]

theorem valueAt?_of_depth {depth : Nat} (h : depth = r.steps.length) (field : String) :
    r.valueAt? depth field = Document.atPath? r.row field := by
  rw [Row.valueAt?, if_pos (Nat.le_of_eq h), Row.ancestor, h, take_length]

theorem isNull_of_type? {v : Value} {t : SqlType} (h : v.type? = some t) : v.isNull = false := by
  cases v with
  | null => cases h
  | _ => rfl

theorem ofStored_of_isNullish {t : SqlType} {b : Bson} (h : b.isNullish) : Value.ofStored fetch t b = .ok .null := by
  cases b with
  | null | undefined => cases t <;> rfl
  | _ => cases h

theorem columnValue_keeps (hname : ref.table.isEmpty ∨ Text.same ref.table w.table)
    (hfind : w.columns.find? (fun x => Text.same x.name ref.column) = some column) (h : HoldsOwn fetch r column)
    (hdepth : column.location.depth = r.steps.length) :
    ∃ x, w.columnValue fetch r ref = .ok x ∧ x.Keeps (Document.atPath? r.row column.location.field) := by
  have hqualified : ¬(!ref.table.isEmpty && !Text.same ref.table w.table) = true := by
    rcases hname with hname | hname <;> simp [hname]
  rw [columnValue, if_neg hqualified, hfind]
  simp only [valueAt?_of_depth hdepth]
  cases hb : Document.atPath? r.row column.location.field with
  | none => exact ⟨.null, rfl, .inl ⟨rfl, rfl⟩⟩
  | some b =>
    cases hnull : b.isNullish with
    | true =>
      simp only [ofStored_of_isNullish hnull]
      exact ⟨.null, rfl, .inl ⟨rfl, hnull⟩⟩
    | false =>
      obtain ⟨v, htype, hstored, hread⟩ := h.typed b hb hnull
      simp only [hread]
      exact ⟨v, rfl, .inr ⟨b, rfl, isNull_of_type? htype, hstored⟩⟩

/-- What a row has to satisfy for the store to decide a filter on it: the columns that are tested hold
values of their types, and are compared with values of their kind. -/
structure Fits (w : NestedWrite) (fetch : String → Except StoreError (List UInt8)) (e : Expression)
    (r : Row) : Prop where
  holds : ∀ ref ∈ e.columns, ∀ column ∈ w.columns, Text.same column.name ref.column → HoldsOwn fetch r column
  kindred : ∀ t ∈ e.tests, t.isKindred (w.columnValue fetch r)

def inStore (w : NestedWrite) : NestedWrite :=
  { w with filter := w.filter.map (·.mapTests Expression.storedTest) }

/-- The documents follow the layout: each can be addressed, and holds rows where rows belong, which
the store can decide the filter on. -/
structure Follow (w : NestedWrite) (fetch : String → Except StoreError (List UInt8))
    (documents : List Document) : Prop where
  addressed : ∀ d ∈ documents, (Document.get? d "_id").isSome
  regular : ∀ d ∈ documents, Row.regular w.hops (Row.ofTop w.collection d)
  fits : ∀ d ∈ documents, ∀ r ∈ w.rowsOf d, ∀ e ∈ w.filter, w.Fits fetch e r

def pulled (w : NestedWrite) (search : Search) (condition : Document) (d : Document) : Option Document :=
  Row.edited (fun r => if Bson.satisfies search condition (.document r.row) then none else some r.row)
    w.hops (Row.ofTop w.collection d)

/-- A delete in two phases takes out the rows that satisfy a condition of the store, and no others. -/
structure Removes (w : NestedWrite) (fetch : String → Except StoreError (List UInt8))
    (search : Search) (condition : Document) (documents : List Document) : Prop where
  chosen : ∀ d ∈ documents, ∀ r ∈ w.rowsOf d,
    w.selects fetch r = .ok (Bson.satisfies search condition (.document r.row))
  completed : ∃ done mutation, w.complete fetch [] documents = .ok done ∧
    done.affected = (documents.flatMap w.rowsOf).countP (fun r => Bson.satisfies search condition (.document r.row)) ∧
    done.updates = documents.filterMap mutation ∧
    ∀ d ∈ documents, ∃ d', w.pulled search condition d = some d' ∧ after d (mutation d) = some d'

theorem removes_of_selects (haction : w.action = .delete) (hne : w.hops ≠ [])
    (hh : ∀ hop ∈ w.hops, Path.IsName hop.field) {documents : List Document}
    (hid : ∀ d ∈ documents, (Document.get? d "_id").isSome)
    (hd : ∀ d ∈ documents, Row.regular w.hops (Row.ofTop w.collection d)) {search : Search} {condition : Document}
    (h : ∀ d ∈ documents, ∀ r ∈ w.rowsOf d,
      w.selects fetch r = .ok (Bson.satisfies search condition (.document r.row))) :
    w.Removes fetch search condition documents := by
  have hchooses : ∀ d ∈ documents, ∀ r ∈ w.rowsOf d,
      w.chooses fetch r = Bson.satisfies search condition (.document r.row) := by
    intro d hmem r hr
    rw [chooses, h d hmem r hr]
  have hw : w.WellNamed [] := ⟨hne, hh, fun fields hfields => by rw [haction] at hfields; cases hfields⟩
  refine ⟨h, _, _, complete_eq hid fun d hmem r hr => ⟨_, h d hmem r hr⟩, ?_, rfl, ?_⟩
  · refine countP_congr fun r hr => ?_
    obtain ⟨d, hmem, hr⟩ := mem_flatMap.mp hr
    rw [hchooses d hmem r hr]
  · intro d hmem
    obtain ⟨d', hrewritten, hafter⟩ := (carries_mutationOf hw (hid d hmem) (hd d hmem)).result
    refine ⟨d', ?_, hafter⟩
    rw [← hrewritten]
    refine Row.edited_congr fun r hr => ?_
    rw [rewrite, haction, hchooses d hmem r hr]

end NestedWrite

namespace Expression

theorem fieldTest_of_element {σ : Type} {c : Context σ} (hmode : c.mode = .element) {t : Expression}
    (ht : t.isTest) {q : Condition} {s s' : Draft σ} (h : t.filter c .raw s = (.ok q, s')) : FieldTest c t q := by
  rcases filter_cases ht h with hfield | ⟨-, s₁, hcomputed⟩
  · exact hfield
  · rcases computedFilter_cases hcomputed with ⟨hpipeline, -⟩ | ⟨hstandalone, -⟩
    · rw [hmode] at hpipeline; cases hpipeline
    · rw [hmode] at hstandalone; cases hstandalone

end Expression

namespace WriteContext

variable {σ : Type} {c : Context σ} {search : Search} {d : Document}
  {column : ColumnRef → Except WriteError Value}

theorem satisfies_all (qs : List Condition) :
    Bson.satisfies search (((Condition.all qs).map toDocument).getD []) (.document d) =
      qs.all fun q => q.accepts search d := by
  rcases qs with _ | ⟨q, _ | ⟨r, qs⟩⟩
  · rfl
  · exact (Bool.and_true _).symm
  · exact accepts_and _

theorem compiles_of_becomes (h : List.Forall₂ (Becomes c) es qs) : ∀ e ∈ es, Expression.Compiles c e := by
  induction h with
  | nil => exact fun _ he => nomatch he
  | @cons e q es qs hq hqs ih =>
    intro e' he
    rcases mem_cons.mp he with rfl | he
    · exact ⟨q, hq.2⟩
    · exact ih e' he

theorem all_accepts_of_becomes {truth : Expression → Option Bool} (h : List.Forall₂ (Becomes c) es qs)
    (htests : ∀ e ∈ es, ∀ t ∈ e.tests, ∀ helpers, Expression.Decided c search d helpers t (truth t)) :
    (qs.all fun q => q.accepts search d) = es.all fun e => e.truthBy truth == some true := by
  induction h with
  | nil => rfl
  | @cons e q es qs hq hqs ih =>
    obtain ⟨-, s, s', hq⟩ := hq
    have hdecides : q.Decides search d (e.truthBy truth) :=
      decides_filter e hq (prefix_refl _) fun t ht => htests e (mem_cons_self ..) t ht s'.helperFields
    rw [all_cons, all_cons, hdecides.yes, ih fun e' he => htests e' (mem_cons_of_mem _ he)]

/-- Where the conditions of a filter are made for elements, all of them accept an element when the
filter that the store decides accepts the row. -/
theorem accepts_stored (hmode : c.mode = .element) (hsearch : Expression.FindsPatterns search)
    (hrow : ∀ ref ∈ e.columns, Expression.HoldsColumn c d column ref) (hkindred : ∀ t ∈ e.tests, t.isKindred column)
    (h : List.Forall₂ (Becomes c) e.conjuncts qs) :
    (e.mapTests storedTest).accepts column = .ok (qs.all fun q => q.accepts search d) := by
  have hdecides {t : Expression} (ht : t ∈ e.tests) {q : Condition} {s s' : Draft σ}
      (hq : t.filter c .raw s = (.ok q, s')) :
      Expression.HasTruth column t.storedTest (t.storedTest.truthOf column) ∧
        q.Decides search d (t.storedTest.truthOf column) := by
    have hfield := fieldTest_of_element hmode (e.isTest_of_mem_tests t ht) hq
    obtain ⟨truth, htruth, hdecides⟩ := decides_fieldTest hsearch hfield
      (fun ref href => hrow ref (mem_columns_tests.mpr ⟨t, ht, href⟩)) (hkindred t ht)
    rw [truthOf_of_hasTruth htruth]
    exact ⟨htruth, hdecides⟩
  have hmem {e' t : Expression} (he : e' ∈ e.conjuncts) (ht : t ∈ e'.tests) : t ∈ e.tests := by
    rw [← e.tests_conjuncts]
    exact mem_flatMap.mpr ⟨e', he, ht⟩
  have hcompiles : ∀ t ∈ e.tests, Expression.Compiles c t := by
    intro t ht
    rw [← e.tests_conjuncts] at ht
    obtain ⟨e', he, ht⟩ := mem_flatMap.mp ht
    exact e'.compiles_tests (compiles_of_becomes h e' he) t ht
  have htruth : Expression.HasTruth column (e.mapTests storedTest)
      (e.truthBy fun t => t.storedTest.truthOf column) := by
    refine hasTruth_mapTests e fun t ht => ?_
    obtain ⟨q, s, s', hq⟩ := hcompiles t ht
    exact (hdecides ht hq).1
  rw [accepts_of_hasTruth htruth, ← all_conjuncts, ← all_accepts_of_becomes h]
  intro e' he t ht helpers q s s' hq _
  exact (hdecides (hmem he ht) hq).2

end WriteContext

namespace WriteContext

variable {σ : Type} {c : WriteContext σ} {search : Search}

def withoutFastPath (c : WriteContext σ) : WriteContext σ :=
  { c with options := { c.options with pullFastPath := false } }

/-- A delete that is planned both as one update and in two phases. -/
structure PlannedTwice (c : WriteContext σ) (delete : Delete) (p : PullPlan) (w : NestedWrite) : Prop where
  pulled : ∃ s s', c.planDelete delete s = (.ok (.pull p), s')
  nested : ∃ s s', c.withoutFastPath.planDelete delete s = (.ok (.nested w), s')

variable {w : NestedWrite} {fetch : String → Except StoreError (List UInt8)}

theorem PlannedTwice.common {delete : Delete} {p : PullPlan} (h : c.PlannedTwice delete p w)
    (hc : c.catalog.WellKeyed) :
    ∃ (l : Layout) (table : Table) (q : Option Condition) (s s' : σ),
      c.condition l w.filter .element s = (.ok q, s') ∧
      p.mutation.update = [("$pull", .document
        [(Hop.allPositions w.hops, .document ((q.map toDocument).getD []))])] ∧
      l.table = table.name ∧ c.catalog.table l.table = .ok table ∧
      table.columns.mapM (c.nestedColumn l) = .ok w.columns ∧ w.table = table.name ∧
      w.hops = l.hops ∧ w.action = .delete ∧ w.hops ≠ [] := by
  obtain ⟨s, s', hpull⟩ := h.pulled
  obtain ⟨t, t', hnested⟩ := h.nested
  obtain ⟨table, l, htable, hl, hcases⟩ := planDelete_ok hpull
  obtain ⟨table', l', htable', hl', hcases'⟩ := planDelete_ok hnested
  obtain rfl : table = table' := Except.ok.inj (htable.symm.trans htable')
  obtain rfl : l = l' := Except.ok.inj (hl.symm.trans hl')
  rcases hcases with ⟨_, _, _, -, -, hplan⟩ | ⟨s₁, -, h₁⟩ | ⟨q, s₁, pulled, -, harray, hq, h₁, hplan⟩
  · cases hplan
  · obtain ⟨_, _, -, -, hplan⟩ := nested_ok h₁
    cases hplan
  · cases hplan
    rcases hcases' with ⟨_, _, _, -, -, hplan⟩ | ⟨t₁, -, h₂⟩ | ⟨_, _, _, -, -, -, -, hplan⟩
    · cases hplan
    · obtain ⟨own, columns, hown, hcolumns, hplan⟩ := nested_ok h₂
      cases hplan
      obtain ⟨named, hnamed, hname⟩ := Catalog.layout_table hl
      obtain rfl : named = table := Except.ok.inj (hnamed.symm.trans (Catalog.table_name hc htable))
      obtain rfl : own = named := by
        rw [hname] at hown
        exact Except.ok.inj (hown.symm.trans hnamed)
      obtain ⟨full, -, rfl⟩ := Attempt.bind_pure_ok h₁
      refine ⟨l, own, q, s, s₁, hq, rfl, hname, hown, hcolumns, rfl, rfl, rfl, fun hnil => ?_⟩
      have hnil : l.hops = [] := hnil
      rw [hnil] at harray
      cases harray
    · cases hplan

theorem holdsColumn_of_fits {table : Table} (hname : l.table = table.name)
    (htable : c.catalog.table l.table = .ok table) (hcolumns : table.columns.mapM (c.nestedColumn l) = .ok w.columns)
    (hw : w.table = table.name) (hsteps : r.steps.length = l.hops.length) (h : w.Fits fetch e r) :
    ∀ ref ∈ e.columns, Expression.HoldsColumn (c.rowContext l .element) r.row (w.columnValue fetch r) ref := by
  intro ref href found hfound
  obtain ⟨table', column, location, hqualified, htable', hcolumn, hlocation, helement⟩ := resolve_ok hfound
  obtain ⟨hdepth, rfl⟩ := helement rfl
  obtain rfl : table = table' := Except.ok.inj (htable.symm.trans htable')
  obtain ⟨location', hlocation', hfind⟩ := find?_nestedColumn hcolumns hcolumn
  have hsame : Text.same column.name ref.column :=
    find?_some (p := fun x : NestedColumn => Text.same x.name ref.column) hfind
  obtain rfl : location = location' := by
    rw [Text.same_comm] at hsame
    exact Except.ok.inj ((Catalog.locate_same hsame hlocation).symm.trans hlocation')
  have hholds := h.holds ref href _ (mem_of_find?_eq_some hfind) hsame
  rw [hname, ← hw, Text.same_comm] at hqualified
  obtain ⟨x, hx, hkeeps⟩ := columnValue_keeps hqualified hfind hholds (hdepth.trans hsteps.symm)
  exact ⟨x, _, hx, ⟨hholds.named, hholds.single, rfl⟩, hkeeps⟩

theorem selects_inStore {table : Table} {s s' : σ} (hsearch : Expression.FindsPatterns search)
    (hname : l.table = table.name) (htable : c.catalog.table l.table = .ok table)
    (hcolumns : table.columns.mapM (c.nestedColumn l) = .ok w.columns) (hw : w.table = table.name)
    (hsteps : r.steps.length = l.hops.length) (hq : c.condition l w.filter .element s = (.ok q, s'))
    (h : ∀ e ∈ w.filter, w.Fits fetch e r) :
    w.inStore.selects fetch r =
      .ok (Bson.satisfies search ((q.map toDocument).getD []) (.document r.row)) := by
  rw [selects, inStore]
  cases hfilter : w.filter with
  | none =>
    rw [hfilter] at hq
    cases hq
    rfl
  | some e =>
    rw [hfilter] at hq
    have hfits := h e hfilter
    obtain ⟨qs, hqs, rfl⟩ := condition_ok hq
    rw [satisfies_all]
    have hrow := holdsColumn_of_fits hname htable hcolumns hw hsteps hfits
    exact accepts_stored rfl hsearch hrow hfits.kindred hqs

theorem inStore_eq_self (h : ∀ e ∈ w.filter, ∀ t ∈ e.tests, t.testsNull = false) : w.inStore = w := by
  have hfilter : w.filter.map (·.mapTests storedTest) = w.filter := by
    cases hw : w.filter with
    | none => rfl
    | some e =>
      rw [Option.map_some, mapTests_eq_self e fun t ht => storedTest_eq_self (h e hw t ht)]
  rw [inStore, hfilter]

/-- Of documents that `Follow` the layout, the update of a delete that is `PlannedTwice` removes the rows that the
delete in two phases takes out with the filter `inStore`. Without tests against NULL this is the filter of the
delete. -/
theorem removes_of_pull (hc : c.catalog.WellKeyed) (hsearch : Expression.FindsPatterns search)
    {delete : Delete} {p : PullPlan} {w : NestedWrite} (h : c.PlannedTwice delete p w)
    (hh : ∀ hop ∈ w.hops, Path.IsName hop.field) :
    ∃ condition, p.mutation.update =
        [("$pull", .document [(Hop.allPositions w.hops, .document condition)])] ∧
      ∀ fetch documents, w.Follow fetch documents →
        w.inStore.Removes fetch search condition documents ∧
        ((∀ e ∈ w.filter, ∀ t ∈ e.tests, t.testsNull = false) →
          w.Removes fetch search condition documents) := by
  obtain ⟨l, table, q, s, s', hq, hupdate, hname, htable, hcolumns, hw, hhops, haction, hne⟩ :=
    h.common hc
  refine ⟨_, hupdate, fun fetch documents hfollow => ?_⟩
  have hremoves : w.inStore.Removes fetch search ((q.map Condition.toDocument).getD []) documents := by
    refine NestedWrite.removes_of_selects (w := w.inStore) haction hne hh hfollow.addressed
      hfollow.regular fun d hd r hr => ?_
    have hsteps : r.steps.length = l.hops.length := by
      rw [NestedWrite.length_steps_of_mem_walk hr, ← hhops]
      exact Nat.zero_add _
    exact selects_inStore hsearch hname htable hcolumns hw hsteps hq (hfollow.fits d hd r hr)
  refine ⟨hremoves, fun hnull => ?_⟩
  rwa [inStore_eq_self hnull] at hremoves

def orders : WriteContext Unit where
  catalog := .ofTables
    [{ name := "orders", columns := [⟨"id", .integer, false⟩], primaryKey := ["id"] },
     { name := "items"
       columns := [⟨"no", .integer, false⟩, ⟨"order_id", .integer, false⟩, ⟨"sku", .string, false⟩,
         ⟨"note", .string, false⟩]
       primaryKey := ["no"]
       foreignKeys := [⟨"items_order", ["order_id"], "orders", ["id"]⟩]
       properties := { mergeInto := some "orders" } }]
  objects := .unavailable

/-- A delete of the items with a note, among those whose name starts with a letter. -/
def withNote (note : Value) : Delete where
  table := "items"
  filter := some (.and [.comparison .eq (.column ⟨"", "note"⟩) (.literal note),
    .like (.column ⟨"", "sku"⟩) (.literal (.string "a%")) none false])

def noteCondition (path : String) (note : Bson) : Document :=
  [("$and", .array
    [.document [(path ++ "note", .document [("$eq", note)])],
      .document [(path ++ "sku", .document [("$regex", .string "^a"), ("$options", .string "s")])]])]

def notePull (note : Bson) : PullPlan where
  table := "items"
  countQuery :=
    { collection := "orders"
      pipeline := [[("$unwind", .string "$items")], [("$match", .document (noteCondition "items." note))],
        [("$count", .string "n")]] }
  mutation :=
    { collection := "orders"
      filter := [("items", .document [("$elemMatch", .document (noteCondition "" note))])]
      update := [("$pull", .document [("items", .document (noteCondition "" note))])] }

def noteDelete (note : Value) : NestedWrite where
  table := "items"
  collection := "orders"
  hops := [⟨.merge, { name := "items_order", parent := "orders", child := "items"
                      columns := ["order_id"], referencedColumns := ["id"], association := .many }⟩]
  read := { collection := "orders"
            pipeline := [[("$match", .document [("items", .document [("$exists", .boolean true)])])],
              [("$project", .document [("_id", .int32 1), ("items", .int32 1)])]] }
  filter := (withNote note).filter
  columns := [⟨"no", ⟨1, "_id"⟩, .integer⟩, ⟨"order_id", ⟨0, "_id"⟩, .integer⟩, ⟨"sku", ⟨1, "sku"⟩, .string⟩,
    ⟨"note", ⟨1, "note"⟩, .string⟩]
  action := .delete
  copies := []

def storedOrder : Document :=
  [("_id", .int32 1), ("items", .array
    [.document [("_id", .int32 1), ("sku", .string "a1"), ("note", .string "x")],
      .document [("_id", .int32 2), ("sku", .string "a2")],
      .document [("_id", .int32 3), ("sku", .string "b"), ("note", .null)]])]

def holdsText (r : Row) (column : NestedColumn) : Bool :=
  !isMarked column.location.field &&
    Bson.isSingle (Path.split column.location.field) (.document r.row) &&
    column.type == .string &&
    match Document.atPath? r.row column.location.field with
    | some (.string _) => true
    | b => Bson.isAbsent b

theorem holdsOwn_of_holdsText (h : holdsText r column) : NestedWrite.HoldsOwn fetch r column := by
  simp only [holdsText, Bool.and_eq_true, Bool.not_eq_true', beq_iff_eq] at h
  obtain ⟨⟨⟨hmarked, hsingle⟩, htype⟩, htext⟩ := h
  refine ⟨hmarked, hsingle, fun b hb hnull => ?_⟩
  rw [hb] at htext
  split at htext
  · rename_i text heq
    cases heq
    rw [htype]
    exact ⟨.string text, rfl, ⟨Unit, .unavailable, (), (), rfl⟩, rfl⟩
  · rw [Bson.isAbsent, Option.all_some, hnull] at htext
    cases htext

theorem follow_noteDelete {note : Value} (h : note = .string "x" ∨ note = .null) :
    (noteDelete note).Follow (fun _ => .ok []) [storedOrder] := by
  have hholds : ∀ d ∈ [storedOrder], ∀ r ∈ (noteDelete note).rowsOf d, ∀ e ∈ (noteDelete note).filter,
      ∀ ref ∈ e.columns, ∀ column ∈ (noteDelete note).columns, Text.same column.name ref.column →
        holdsText r column := by
    rcases h with rfl | rfl <;> decide +kernel
  have hkindred : ∀ d ∈ [storedOrder], ∀ r ∈ (noteDelete note).rowsOf d, ∀ e ∈ (noteDelete note).filter,
      ∀ t ∈ e.tests, t.isKindred ((noteDelete note).columnValue (fun _ => .ok []) r) := by
    rcases h with rfl | rfl <;> decide +kernel
  refine ⟨by decide +kernel, ?_, fun d hd r hr e he => ⟨?_, hkindred d hd r hr e he⟩⟩
  · rcases h with rfl | rfl <;> decide +kernel
  · exact fun ref href column hcolumn hsame =>
      holdsOwn_of_holdsText (hholds d hd r hr e he ref href column hcolumn hsame)

/-- With a note given, the update removes what the delete in two phases takes out. With NULL it removes the item
without a note as well. -/
theorem removes_noteDelete :
    orders.catalog.WellKeyed ∧ Expression.FindsPatterns Expression.likeSearch ∧
      (∀ hop ∈ (noteDelete .null).hops, Path.IsName hop.field) ∧
      orders.PlannedTwice (withNote (.string "x")) (notePull (.string "x")) (noteDelete (.string "x")) ∧
      (noteDelete (.string "x")).Follow (fun _ => .ok []) [storedOrder] ∧
      (noteDelete (.string "x")).Removes (fun _ => .ok []) Expression.likeSearch
        (noteCondition "" (.string "x")) [storedOrder] ∧
      orders.PlannedTwice (withNote .null) (notePull .null) (noteDelete .null) ∧
      (noteDelete .null).Follow (fun _ => .ok []) [storedOrder] ∧
      (noteDelete .null).inStore.Removes (fun _ => .ok []) Expression.likeSearch
        (noteCondition "" .null) [storedOrder] ∧
      ¬(noteDelete .null).Removes (fun _ => .ok []) Expression.likeSearch
        (noteCondition "" .null) [storedOrder] := by
  have hc : orders.catalog.WellKeyed := Catalog.wellKeyed_ofTables _
  have hsearch := Expression.findsPatterns_likeSearch
  have hh : ∀ hop ∈ (noteDelete .null).hops, Path.IsName hop.field := by decide +kernel
  have hx : orders.PlannedTwice (withNote (.string "x")) (notePull (.string "x"))
      (noteDelete (.string "x")) := ⟨⟨(), (), rfl⟩, ⟨(), (), rfl⟩⟩
  have hnull : orders.PlannedTwice (withNote .null) (notePull .null) (noteDelete .null) :=
    ⟨⟨(), (), rfl⟩, ⟨(), (), rfl⟩⟩
  have hxrows := follow_noteDelete (.inl rfl)
  have hnullrows := follow_noteDelete (.inr rfl)
  refine ⟨hc, hsearch, hh, hx, hxrows, ?_, hnull, hnullrows, ?_, fun hremoves => ?_⟩
  · obtain ⟨condition, hupdate, hremoves⟩ := removes_of_pull hc hsearch hx hh
    cases hupdate
    exact (hremoves _ _ hxrows).2 (by decide +kernel)
  · obtain ⟨condition, hupdate, hremoves⟩ := removes_of_pull hc hsearch hnull hh
    cases hupdate
    exact (hremoves _ _ hnullrows).1
  · have hkept : ∃ r ∈ (noteDelete .null).rowsOf storedOrder,
        (noteDelete .null).chooses (fun _ => .ok []) r = false ∧
          Bson.satisfies Expression.likeSearch (noteCondition "" .null) (.document r.row) := by
      decide +kernel
    obtain ⟨r, hr, hchooses, hsatisfies⟩ := hkept
    rw [NestedWrite.chooses, hremoves.chosen storedOrder (mem_singleton_self _) r hr,
      hsatisfies] at hchooses
    cases hchooses

end WriteContext

end Pushdown
