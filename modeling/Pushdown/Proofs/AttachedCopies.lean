import Pushdown.Proofs.BestEffort
import Pushdown.Proofs.ReferenceKeys
import Pushdown.Proofs.Update

/-!
# Copies beside columns

`KeepsFields`: the row that a mutation writes (`newRow?`) has all its planned fields, beside the copies that are
found. Copies are stored under the names of their tables in the same document, and are put in last;
`fields_kept_beside_copies` says when none takes the place of a field (`HasField`).
-/

namespace Pushdown

open List Attempt DocumentStore ResolvedCopy

namespace DocumentStore

def finding (d : Document) : DocumentStore Unit where
  toLargeObjects := .unavailable
  aggregate _ _ := (.ok [], ())
  findOne _ _ _ := (.ok (some d), ())
  insert _ _ _ := (.ok .null, ())
  update _ _ := (.ok 0, ())
  remove _ _ _ := (.ok 0, ())

theorem answered_finding (d : Document) (calls : List Call) : (finding d).Answered calls () := by
  induction calls with
  | nil => trivial
  | cons call calls ih =>
    refine ⟨?_, ih⟩
    cases call with
    | mutate m => cases m <;> exact ⟨_, rfl⟩
    | _ => exact ⟨_, rfl⟩

theorem map_field_copiesFetched {σ : Type} (store : DocumentStore σ) (fetches : List CopyFetch) (s : σ) :
    (store.copiesFetched fetches s).map (·.field) = fetches.map (·.field) := by
  induction fetches generalizing s with
  | nil => rfl
  | cons fetch fetches ih => exact congrArg (fetch.field :: ·) (ih _)

end DocumentStore

variable {copies : List ResolvedCopy}

namespace CopyFetch

/-- Whether the copies are what some store gives for the fetches. -/
def ResolveTo (fetches : List CopyFetch) (copies : List ResolvedCopy) : Prop :=
  ∃ (σ : Type) (store : DocumentStore σ) (o o' : WriteOutcome) (s s' : σ),
    store.resolveCopies fetches o s = (.ok (copies, o'), s')

def found (d : Document) (fetch : CopyFetch) : ResolvedCopy where
  field := fetch.field
  document := fetch.source.map fun _ => Document.erase d "_id"

variable {fetches : List CopyFetch}

theorem ResolveTo.fields (h : ResolveTo fetches copies) : copies.map (·.field) = fetches.map (·.field) := by
  obtain ⟨σ, store, o, o', s, s', h⟩ := h
  by_cases hanswered : store.Answered (fetches.flatMap calls) s
  · rw [resolveCopies_of_answered hanswered] at h
    cases h
    exact store.map_field_copiesFetched fetches s
  · obtain ⟨e, s₁, herror⟩ := resolveCopies_of_not_answered hanswered o
    rw [herror] at h
    cases h

theorem resolveTo_found (d : Document) (fetches : List CopyFetch) : ResolveTo fetches (fetches.map (found d)) := by
  have hfetched : (finding d).copiesFetched fetches () = fetches.map (found d) := by
    induction fetches with
    | nil => rfl
    | cons fetch fetches ih =>
      refine cons_eq_cons.mpr ⟨?_, ih⟩
      rw [resolved, found]
      cases fetch.source <;> rfl
  have hresolved := resolveCopies_of_answered
    (answered_finding d (fetches.flatMap calls)) {}
  rw [hfetched] at hresolved
  exact ⟨Unit, .finding d, _, _, _, _, hresolved⟩

end CopyFetch

/-- The new row that a mutation writes: a document of its own, an element of an array, or a sub-document. -/
def Mutation.newRow? : Mutation → Option Document
  | .insert _ row => some row
  | .update { update := [("$push", .document [(_, .document row)])], .. } => some row
  | .update { update := [("$set", .document [(_, .document row)])], .. } => some row
  | _ => none

namespace ResolvedCopy

def attached (copy : ResolvedCopy) : Option (String × Bson) := copy.document.map fun d => (copy.field, .document d)

theorem mem_attached {f : String × Bson} :
    f ∈ copies.filterMap attached ↔ ∃ copy ∈ copies, ∃ content ∈ copy.document,
      f = (copy.field, .document content) := by
  simp only [mem_filterMap, attached, Option.map_eq_some_iff, Option.mem_def, eq_comm (b := f)]

theorem get?_attached (hfields : (copies.map (·.field)).Nodup) {copy : ResolvedCopy} (hcopy : copy ∈ copies)
    {content : Document} (hcontent : content ∈ copy.document) :
    Document.get? (Document.ofFields (copies.filterMap attached)) copy.field = some (.document content) := by
  refine Document.get?_ofFields_of_mem (mem_attached.mpr ⟨copy, hcopy, content, hcontent, rfl⟩) fun v hv => ?_
  obtain ⟨copy', hcopy', content', hcontent', heq⟩ := mem_attached.mp hv
  obtain ⟨hfield, rfl⟩ := Prod.mk.inj heq
  cases inj_on_of_nodup_map hfields hcopy hcopy' hfield
  cases hcontent.symm.trans hcontent'
  rfl

end ResolvedCopy

namespace InsertRow

theorem newRow?_mutation (r : InsertRow) (copies : List ResolvedCopy) :
    (r.mutation copies).newRow? = some (withCopies r.row copies) := by
  rw [mutation]
  cases r.target with
  | collection name => rfl
  | parent collection filter path arrayFilters many => cases many <;> rfl

theorem withCopies_eq (row : Document) (copies : List ResolvedCopy) : withCopies row copies =
    (copies.filterMap attached).foldl (fun d f => Document.insert d f.1 f.2) row := by
  induction copies generalizing row with
  | nil => rfl
  | cons copy copies ih =>
    rw [withCopies, foldl_cons, filterMap_cons, attached]
    cases copy.document with
    | none => exact ih row
    | some d => exact ih _

theorem get?_withCopies (row : Document) (copies : List ResolvedCopy) (key : String) :
    Document.get? (withCopies row copies) key =
      (Document.get? (Document.ofFields (copies.filterMap attached)) key).or (Document.get? row key) := by
  rw [withCopies_eq, Document.get?_foldl_insert, Document.get?_ofFields]

/-- Whether the row is written with all its fields as they are planned, beside the copies that are found,
whatever the copies resolve to. -/
def KeepsFields (r : InsertRow) : Prop :=
  ∀ copies, CopyFetch.ResolveTo r.copies copies → ∃ d, (r.mutation copies).newRow? = some d ∧
    (∀ f ∈ r.row, Document.get? d f.1 = some f.2) ∧
    ∀ copy ∈ copies, ∀ content ∈ copy.document, Document.get? d copy.field = some (.document content)

theorem keepsFields_iff {r : InsertRow} (hrow : (r.row.map Prod.fst).Nodup)
    (hcopies : (r.copies.map (·.field)).Nodup) (hsources : ∀ fetch ∈ r.copies, fetch.source.isSome) :
    r.KeepsFields ↔ ∀ fetch ∈ r.copies, fetch.field ∉ r.row.map Prod.fst := by
  constructor
  · intro h fetch hfetch hfield
    obtain ⟨f, hf, hname⟩ := mem_map.mp hfield
    obtain ⟨source, hsource⟩ := Option.isSome_iff_exists.mp (hsources fetch hfetch)
    -- The field would have to be whatever document is found.
    have hany (d : Document) : f.2 = .document (Document.erase d "_id") := by
      obtain ⟨row, hrow, hkept, hattached⟩ := h _ (CopyFetch.resolveTo_found d r.copies)
      have hcopy := hattached _ (mem_map_of_mem hfetch) (Document.erase d "_id")
        (by rw [CopyFetch.found, hsource]; rfl)
      have hfound := hkept f hf
      rw [hname] at hfound
      exact Option.some.inj (hfound.symm.trans hcopy)
    cases (hany []).symm.trans (hany [("a", .null)])
  · intro h copies hresolve
    have hfields := hresolve.fields
    refine ⟨_, newRow?_mutation r copies, fun f hf => ?_, fun copy hcopy content hcontent => ?_⟩
    · have hother (v : Bson) : (f.1, v) ∉ copies.filterMap attached := by
        intro hv
        obtain ⟨copy, hcopy, content, -, heq⟩ := mem_attached.mp hv
        obtain ⟨fetch, hfetch, hfield⟩ := mem_map.mp (hfields ▸ mem_map_of_mem hcopy)
        refine h fetch hfetch ?_
        rw [hfield, ← (Prod.mk.inj heq).1]
        exact mem_map_of_mem hf
      rw [get?_withCopies, Document.get?_ofFields_eq_none hother, Option.none_or]
      rw [← Document.ofFields_of_nodup hrow]
      exact Document.get?_ofFields_of_nodup hf hrow
    · rw [get?_withCopies, ResolvedCopy.get?_attached (hfields ▸ hcopies) hcopy hcontent]
      rfl

end InsertRow

namespace ColumnValues

variable {values : ColumnValues} {columns : List String}

def Completes (values : ColumnValues) (columns : List String) : Prop :=
  ∀ column ∈ columns, (values.value? column).isSome

/-- Whether the stored row has a field of the name: its `_id`, or a column that has a field of its own. -/
def HasField (values : ColumnValues) (l : Layout) (name : String) : Prop :=
  (name = "_id" ∧ l.idColumns ≠ [] ∧ values.Completes l.idColumns) ∨
    ∃ v ∈ values, WriteContext.hasOwnField l v ∧ v.1 = name

theorem completes_of_mapM {vs : List Value} (h : columns.mapM values.value? = some vs) : values.Completes columns := by
  intro column hcolumn
  obtain ⟨v, -, hv⟩ := exists_right_of_forall₂ (mapM_value?_eq_some.mp h) hcolumn
  rw [hv]
  rfl

theorem not_completes_of_mapM (h : columns.mapM values.value? = none) : ¬ values.Completes columns := by
  intro hall
  obtain ⟨column, hcolumn, hnone⟩ := exists_of_mapM_value?_eq_none h
  have hsome := hall column hcolumn
  rw [hnone] at hsome
  cases hsome

end ColumnValues

namespace WriteContext

variable {σ : Type} {c : WriteContext σ} {l : Layout} {values : ColumnValues} {s s' : σ}

theorem isSome_rowId {id : Option Bson} (h : c.rowId l values s = (.ok id, s')) :
    id.isSome ↔ l.idColumns ≠ [] ∧ values.Completes l.idColumns := by
  rw [rowId] at h
  split at h
  · rename_i hempty
    obtain ⟨rfl, -⟩ := pure_ok h
    simp [List.isEmpty_iff.mp hempty]
  · rename_i hids
    have hids : l.idColumns ≠ [] := fun hnil => hids (by rw [hnil]; rfl)
    cases hkey : l.idColumns.mapM values.value? with
    | some key =>
      rw [hkey] at h
      obtain ⟨id', -, rfl⟩ := bind_pure_ok h
      exact iff_of_true rfl ⟨hids, ColumnValues.completes_of_mapM hkey⟩
    | none =>
      rw [hkey] at h
      dsimp only at h
      split_ifs at h
      · cases h
      · obtain ⟨rfl, -⟩ := pure_ok h
        exact iff_of_false (by decide) fun hall => ColumnValues.not_completes_of_mapM hkey hall.2

theorem names_rowDocument {doc : Document} (h : c.rowDocument l values s = (.ok doc, s')) :
    (doc.map Prod.fst).Nodup ∧ ∀ name, name ∈ doc.map Prod.fst ↔ values.HasField l name := by
  obtain ⟨id, s₁, fields, hid, hfields, rfl⟩ := rowDocument_ok h
  refine ⟨Document.nodup_ofFields _, fun name => ?_⟩
  rw [Document.mem_map_fst_ofFields, map_append, mem_append, ColumnValues.HasField, ← isSome_rowId hid]
  refine or_congr ?_ ⟨fun hname => ?_, ?_⟩
  · cases id <;> simp
  · obtain ⟨f, hf, rfl⟩ := mem_map.mp hname
    obtain ⟨v, hv, hvname, -⟩ := exists_left_of_forall₂ hfields hf
    obtain ⟨hmem, hown⟩ := mem_filter.mp (of_mem_zip hv).1
    exact ⟨v, hmem, hown, hvname.symm⟩
  · rintro ⟨v, hmem, hown, rfl⟩
    obtain ⟨f, hf, hfname, -⟩ := exists_right_of_forall₂ hfields (mem_filter.mpr ⟨hmem, hown⟩)
    exact mem_map.mpr ⟨f, (of_mem_zip hf).2, hfname⟩

theorem mem_copyFetch_iff {link : Link} {found : Option CopyFetch} (h : c.copyFetch values link s = (.ok found, s')) :
    (found.isSome ↔ values.Completes link.columns) ∧
      ∀ fetch ∈ found, fetch.field = link.child ∧ fetch.source.isSome := by
  rcases copyFetch_ok h with ⟨rfl, column, hcolumn, hnone⟩ | ⟨vs, held, parts, hvs, -, -, rfl⟩
  · refine ⟨iff_of_false (by decide) fun hall => ?_, by simp⟩
    have hsome := hall column hcolumn
    rw [hnone] at hsome
    cases hsome
  · refine ⟨iff_of_true rfl (ColumnValues.completes_of_mapM hvs), fun fetch hfetch => ?_⟩
    cases hfetch
    exact ⟨rfl, rfl⟩

theorem sublist_fields {links : List Link} {found : List (Option CopyFetch)}
    (h : List.Forall₂ (fun link found => ∀ fetch ∈ found, fetch.field = Link.child link) links found) :
    ((found.filterMap id).map (·.field)).Sublist (links.map (·.child)) := by
  induction h with
  | nil => exact .slnil
  | @cons link fetch? links found hfetch _ ih =>
    cases fetch? with
    | none => exact ih.cons _
    | some fetch =>
      have hfield : link.child = fetch.field := (hfetch fetch rfl).symm
      rw [map_cons, hfield]
      exact ih.cons_cons _

theorem fields_copyFetches {fetches : List CopyFetch} (hapart : l.embeddedKeys.Pairwise fun k k' => k.child ≠ k'.child)
    (h : c.copyFetches l values s = (.ok fetches, s')) :
    (fetches.map (·.field)).Nodup ∧ (∀ fetch ∈ fetches, fetch.source.isSome) ∧
      ∀ name, name ∈ fetches.map (·.field) ↔
        ∃ link ∈ l.embeddedKeys, values.Completes link.columns ∧ link.child = name := by
  obtain ⟨found, hfound, rfl⟩ := bind_pure_ok h
  have hfound := (forall₂_of_mapM hfound).imp fun _ _ ⟨_, _, hlink⟩ => mem_copyFetch_iff hlink
  refine ⟨(pairwise_map.mpr hapart).sublist
    (sublist_fields (hfound.imp fun _ _ hlink fetch hfetch => (hlink.2 fetch hfetch).1)),
    fun fetch hfetch => ?_, fun name => ⟨fun hname => ?_, ?_⟩⟩
  · obtain ⟨_, hmem, rfl⟩ := mem_filterMap.mp hfetch
    obtain ⟨link, -, -, hlink⟩ := exists_left_of_forall₂ hfound hmem
    exact (hlink fetch rfl).2
  · obtain ⟨fetch, hfetch, rfl⟩ := mem_map.mp hname
    obtain ⟨_, hmem, rfl⟩ := mem_filterMap.mp hfetch
    obtain ⟨link, hlinks, hcomplete, hlink⟩ := exists_left_of_forall₂ hfound hmem
    exact ⟨link, (of_mem_zip hlinks).1, hcomplete.mp rfl, (hlink fetch rfl).1.symm⟩
  · rintro ⟨link, hlink, hcomplete, rfl⟩
    obtain ⟨fetch?, hmem, hsome, hfields⟩ := exists_right_of_forall₂ hfound hlink
    obtain ⟨fetch, rfl⟩ := Option.isSome_iff_exists.mp (hsome.mpr hcomplete)
    exact mem_map.mpr ⟨fetch, mem_filterMap.mpr ⟨_, (of_mem_zip hmem).2, rfl⟩, (hfields fetch rfl).1⟩

/-- A new row `KeepsFields` whatever its copies resolve to just when no table that it refers to by a complete key is
called like one of its fields. -/
theorem fields_kept_beside_copies {insert : Insert} {plan : InsertPlan} (h : c.planInsert insert s = (.ok plan, s')) :
    ∃ t l columns, c.catalog.table insert.table = .ok t ∧ c.catalog.layout t.name = .ok l ∧
      insert.columns.mapM t.spelled = .ok columns ∧
      List.Forall₂ (fun row (planned : InsertRow) => ∃ values, rowValues columns row = .ok values ∧
        (planned.KeepsFields ↔
          ∀ link ∈ l.embeddedKeys, values.Completes link.columns → ¬ values.HasField l link.child))
        insert.rows plan.rows := by
  obtain ⟨t, l, columns, ht, hl, hcolumns, hrows⟩ := planInsert_ok h
  refine ⟨t, l, columns, ht, hl, hcolumns, hrows.imp ?_⟩
  rintro row planned ⟨values, s₁, s₂, hvalues, hplanned⟩
  obtain ⟨⟨_, hdoc⟩, ⟨_, _, hcopies⟩, -⟩ := insertRow_ok hplanned
  obtain ⟨hnodup, hnames⟩ := names_rowDocument hdoc
  obtain ⟨hfields, hsources, hfetched⟩ := fields_copyFetches (Catalog.embedded_apart hl) hcopies
  refine ⟨values, hvalues, (InsertRow.keepsFields_iff hnodup hfields hsources).trans ?_⟩
  constructor
  · intro hapart link hlink hcomplete hfield
    obtain ⟨fetch, hfetch, hchild⟩ := mem_map.mp ((hfetched link.child).mpr ⟨link, hlink, hcomplete, rfl⟩)
    exact hapart fetch hfetch ((hnames _).mpr (hchild ▸ hfield))
  · intro hapart fetch hfetch hfield
    obtain ⟨link, hlink, hcomplete, hchild⟩ := (hfetched fetch.field).mp (mem_map_of_mem hfetch)
    exact hapart link hlink hcomplete (hchild ▸ (hnames _).mp hfield)

/-- A table of sales that refer to customers, by a column of the given name. -/
def salesTable (column : String) : Table :=
  { name := "sales", columns := [⟨"id", .integer, false⟩, ⟨column, .integer, false⟩]
    primaryKey := ["id"], foreignKeys := [⟨"sales_customer", [column], "customer", ["id"]⟩] }

def sales (column : String) : WriteContext Unit where
  catalog := .ofTables
    [{ name := "customer", columns := [⟨"id", .integer, false⟩, ⟨"name", .string, false⟩]
       primaryKey := ["id"], properties := { embeddable := true } }, salesTable column]
  objects := .unavailable

def salesLink (column : String) : Link :=
  { name := "sales_customer", parent := "sales", child := "customer", columns := [column]
    referencedColumns := ["id"], association := .one }

def salesLayout (column : String) : Layout where
  table := "sales"
  primaryKey := ["id"]
  role := .root
  embeddedKeys := [salesLink column]
  references := [⟨"sales_customer", "sales", [column], "customer", ["id"]⟩]

def newSale (column : String) : Insert where
  table := "sales"
  columns := ["id", column]
  rows := [[.literal (.integer 1), .literal (.integer 5)]]

/-- The number of the customer is kept in a column `buyer`, and is lost in one that is called `customer`. -/
theorem fields_kept_beside_customers :
    (∃ r, (sales "buyer").planInsert (newSale "buyer") () = (.ok ⟨"sales", [r], none⟩, ()) ∧ r.KeepsFields) ∧
      ∃ r, (sales "customer").planInsert (newSale "customer") () = (.ok ⟨"sales", [r], none⟩, ()) ∧
        ¬ r.KeepsFields := by
  let row (column : String) : InsertRow :=
    { target := .collection "sales", row := [("_id", .int32 1), (column, .int32 5)]
      copies := [⟨"customer", some ("customer", [("_id", .int32 5)])⟩] }
  let values (column : String) : ColumnValues := [("id", .integer 1), (column, .integer 5)]
  have hkept (column : String) (hplan : (sales column).planInsert (newSale column) () =
      (.ok ⟨"sales", [row column], none⟩, ())) (ht : (sales column).catalog.table "sales" = .ok (salesTable column))
      (hl : (sales column).catalog.layout "sales" = .ok (salesLayout column))
      (hcolumns : (newSale column).columns.mapM (salesTable column).spelled = .ok ["id", column]) :
      (row column).KeepsFields ↔
        ((values column).Completes [column] → ¬ (values column).HasField (salesLayout column) "customer") := by
    obtain ⟨_, _, _, ht', hl', hcolumns', hrows⟩ := fields_kept_beside_copies hplan
    cases ht.symm.trans ht'
    cases hl.symm.trans hl'
    cases hcolumns.symm.trans hcolumns'
    obtain ⟨⟨_, hvalues, hiff⟩, -⟩ := forall₂_cons.mp hrows
    cases hvalues
    exact hiff.trans (forall_mem_singleton (p := fun link => _ → _))
  refine ⟨⟨row "buyer", rfl, (hkept "buyer" rfl rfl rfl rfl).mpr ?_⟩, row "customer", rfl, fun h => ?_⟩
  · rintro - (⟨hid, -⟩ | ⟨v, hv, -, hname⟩)
    · exact absurd hid (by decide)
    · simp only [values, mem_cons, not_mem_nil, or_false] at hv
      rcases hv with rfl | rfl <;> exact absurd hname (by decide)
  · refine (hkept "customer" rfl rfl rfl rfl).mp h ?_ (.inr ⟨("customer", .integer 5), by simp [values], ?_, rfl⟩)
    · exact forall_mem_singleton.mpr (by decide +kernel)
    · decide +kernel

end WriteContext

end Pushdown
