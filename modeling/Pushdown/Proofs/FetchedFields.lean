import Pushdown.Proofs.FastDelete
import Pushdown.Proofs.OuterColumns

/-!
# What is read before rows are written

A write to merged rows reads the documents that may hold them, reduced to `_id` and to the field of the first hop
(`reduce`). `plan_reads_fetched`: it is completed from these as from whole documents where it `Fetches` what it
reads. A column that a row takes over from the top-level document is looked for in a field which the reduction may
have left out (`fetches_iff`).
-/

namespace Pushdown

open List

/-! ### Reduced documents -/

namespace AggregateRequest

def projected (r : AggregateRequest) : List String :=
  r.pipeline.flatMap fun stage =>
    match Document.get? stage "$project" with
    | some (.document fields) => fields.map Prod.fst
    | _ => []

def reduce (r : AggregateRequest) (d : Document) : Document :=
  d.filter fun f => r.projected.contains f.1

variable {r : AggregateRequest} {d : Document} {name : String}

theorem get?_reduce_of_mem (h : name ∈ r.projected) : Document.get? (r.reduce d) name = Document.get? d name := by
  rw [reduce]
  induction d with
  | nil => rfl
  | cons f d ih =>
    rw [filter_cons, Document.get?_cons]
    split
    · rw [Document.get?_cons, ih]
    · rename_i hf
      rw [ih, if_neg]
      rintro rfl
      exact hf (contains_iff_mem.mpr h)

theorem get?_reduce_of_not_mem (h : name ∉ r.projected) : Document.get? (r.reduce d) name = none := by
  cases hget : Document.get? (r.reduce d) name with
  | none => rfl
  | some b =>
    have hmem := (mem_filter.mp (Document.mem_of_get? hget)).2
    exact absurd (contains_iff_mem.mp hmem) h

end AggregateRequest

variable {l : Layout} {hop : Hop} {r : Row}

theorem mem_projected_nestedRead {name : String} :
    name ∈ (WriteContext.nestedRead l).projected ↔ name = "_id" ∨ ∃ hop ∈ l.hops.head?, name = hop.field := by
  have hprojected : (WriteContext.nestedRead l).projected =
      (Document.ofFields (("_id", .int32 1) ::
        (l.hops.head?.toList.map fun h => (h.field, .int32 1)))).map Prod.fst := by
    simp only [AggregateRequest.projected, WriteContext.nestedRead, flatMap_cons, flatMap_nil, append_nil]
    rfl
  rw [hprojected]
  cases l.hops.head? with
  | none => simp [Document.ofFields, Document.insert]
  | some hop =>
    have hfields : Document.ofFields (("_id", .int32 1) ::
        ((some hop).toList.map fun h => (h.field, .int32 1))) =
        Document.insert [("_id", .int32 1)] hop.field (.int32 1) := rfl
    rw [hfields, Document.map_fst_insert]
    split
    · simp_all
    · simp

/-! ### Rows of reduced documents -/

namespace Row

def withTop (d : Document) (r : Row) : Row := { r with top := d }

variable {d d' : Document} {hops : List Hop} {table : String}

theorem row_withTop (h : r.steps ≠ []) : (r.withTop d).row = r.row := by
  obtain ⟨step, hstep⟩ := Option.isSome_iff_exists.mp (getLast?_isSome.mpr h)
  rw [row, row, withTop, hstep]
  rfl

theorem stepsBelow_congr (h : Document.get? r.row hop.field = Document.get? (r.withTop d).row hop.field) :
    stepsBelow hop (r.withTop d) = stepsBelow hop r := by
  rw [stepsBelow, stepsBelow, h]

theorem walk_withTop (hops : List Hop) (h : r.steps ≠ []) :
    (r.withTop d).walk hops = (r.walk hops).map (withTop d) := by
  induction hops generalizing r with
  | nil => rfl
  | cons hop hops ih =>
    rw [walk_cons, walk_cons, stepsBelow_congr (by rw [row_withTop h]), map_flatMap]
    refine flatMap_congr fun s _ => ?_
    exact ih (r := r.below s) (by simp)

/-- The rows of two documents that hold the same in the field of the first hop differ in nothing but
the document above them. -/
theorem walk_ofTop (h : Document.get? d' hop.field = Document.get? d hop.field) :
    (ofTop table d').walk (hop :: hops) = ((ofTop table d).walk (hop :: hops)).map (withTop d') := by
  have hsteps : stepsBelow hop (ofTop table d') = stepsBelow hop (ofTop table d) :=
    stepsBelow_congr (r := ofTop table d) h.symm
  rw [walk_cons, walk_cons, hsteps, map_flatMap]
  refine flatMap_congr fun s _ => ?_
  exact walk_withTop (r := (ofTop table d).below s) hops (by simp)

theorem top_of_mem_walk (h : r ∈ (ofTop table d).walk hops) : r.top = d := by
  obtain ⟨_, htop, -⟩ := exists_steps_of_mem_walk h
  exact htop

theorem valueAt?_zero (r : Row) (field : String) : r.valueAt? 0 field = r.top.atPath? field := rfl

theorem valueAt?_withTop {depth : Nat} (h : 0 < depth) (field : String) :
    (r.withTop d).valueAt? depth field = r.valueAt? depth field := by
  rw [valueAt?, valueAt?]
  by_cases hdepth : depth ≤ r.steps.length
  · have hancestor : (r.ancestor depth).steps ≠ [] := by
      rw [← length_pos_iff, ancestor, length_take]
      omega
    have hrow := row_withTop (d := d) hancestor
    rw [if_pos hdepth, ← hrow]
    exact if_pos hdepth
  · rw [if_neg hdepth]
    exact if_neg hdepth

end Row

/-! ### Fields of top-level documents -/

def Location.fieldName (l : Location) : String := (Path.split l.field).headD ""

theorem Location.exists_split (l : Location) : ∃ names, Path.split l.field = l.fieldName :: names := by
  obtain ⟨name, names, h⟩ := exists_cons_of_ne_nil (Path.split_ne_nil l.field)
  exact ⟨names, by rw [fieldName, h]; rfl⟩

namespace Document

theorem atPath?_of_split {d : Document} {path name : String} {names : List String}
    (h : Path.split path = name :: names) : d.atPath? path = (get? d name).bind (Bson.follow? names) := by
  rw [atPath?, h]
  rfl

def along : List String → Document
  | [] => []
  | name :: names => [(name, .document (along names))]

theorem get?_along (name : String) (names : List String) :
    get? (along (name :: names)) name = some (.document (along names)) := by
  rw [along, get?_cons, if_pos rfl]

theorem follow?_along (names : List String) : Bson.follow? names (.document (along names)) = some (.document []) := by
  induction names with
  | nil => rfl
  | cons name names ih =>
    rw [Bson.follow?, Bson.step?, get?_along]
    exact ih

end Document

theorem Row.walk_along {hops : List Hop}
    (h : Document.get? r.row hop.field = some (.document (Document.along (hops.map Hop.field)))) :
    r.walk (hop :: hops) ≠ [] := by
  induction hops generalizing r hop with
  | nil =>
    rw [walk_cons, stepsBelow, h]
    exact cons_ne_nil _ _
  | cons next hops ih =>
    rw [walk_cons, stepsBelow, h, flatMap_singleton]
    exact ih (by rw [row_below]; exact Document.get?_along ..)

namespace NestedWrite

variable {w : NestedWrite} {column : NestedColumn} {d : Document} {rest : List Hop}

def readings (w : NestedWrite) (column : NestedColumn) (d : Document) : List (Option Bson) :=
  (w.rowsOf d).map (·.valueAt? column.location.depth column.location.field)

/-- Whether the column is read from a field that the write asks for. Those of a row below the first hop
are in the field of that hop. -/
def Fetches (w : NestedWrite) (column : NestedColumn) : Prop :=
  column.location.depth = 0 → column.location.fieldName ∈ w.read.projected

instance (w : NestedWrite) (column : NestedColumn) : Decidable (w.Fetches column) :=
  inferInstanceAs (Decidable (_ → _))

theorem valueAt?_of_fetches (h : w.Fetches column) (htop : r.top = d) :
    (r.withTop (w.read.reduce d)).valueAt? column.location.depth column.location.field =
      r.valueAt? column.location.depth column.location.field := by
  rcases Nat.eq_zero_or_pos column.location.depth with hzero | hpos
  · rw [hzero, Row.valueAt?_zero, Row.valueAt?_zero, htop]
    obtain ⟨names, hsplit⟩ := column.location.exists_split
    rw [Document.atPath?_of_split hsplit, Document.atPath?_of_split hsplit,
      Row.withTop, AggregateRequest.get?_reduce_of_mem (h hzero)]
  · exact Row.valueAt?_withTop hpos _

theorem readings_of_not_fetches (h : ¬w.Fetches column) : ∀ b ∈ w.readings column (w.read.reduce d), b = none := by
  obtain ⟨hzero, hname⟩ := Classical.not_imp.mp h
  obtain ⟨names, hsplit⟩ := column.location.exists_split
  intro b hb
  obtain ⟨r, hr, rfl⟩ := mem_map.mp hb
  rw [hzero, Row.valueAt?_zero, Row.top_of_mem_walk hr, Document.atPath?_of_split hsplit,
    AggregateRequest.get?_reduce_of_not_mem hname]
  rfl

section Hops

variable (hhops : w.hops = hop :: rest)
include hhops

theorem rowsOf_reduce (hhop : hop.field ∈ w.read.projected) (d : Document) :
    w.rowsOf (w.read.reduce d) = (w.rowsOf d).map (Row.withTop (w.read.reduce d)) := by
  rw [rowsOf, rowsOf, hhops]
  exact Row.walk_ofTop (AggregateRequest.get?_reduce_of_mem hhop)

theorem exists_reading_of_not_fetches (hhop : hop.field ∈ w.read.projected) (h : ¬w.Fetches column) :
    ∃ d b, some b ∈ w.readings column d := by
  obtain ⟨hzero, hname⟩ := Classical.not_imp.mp h
  obtain ⟨names, hsplit⟩ := column.location.exists_split
  have hne : hop.field ≠ column.location.fieldName := fun heq => hname (heq ▸ hhop)
  let d : Document := [(hop.field, .document (Document.along (rest.map Hop.field))),
    (column.location.fieldName, .document (Document.along names))]
  have hrows : w.rowsOf d ≠ [] := by
    rw [rowsOf, hhops]
    refine Row.walk_along ?_
    rw [Row.row_ofTop, Document.get?_cons, if_pos rfl]
  obtain ⟨r, hr⟩ := exists_mem_of_ne_nil _ hrows
  refine ⟨d, .document [], mem_map.mpr ⟨r, hr, ?_⟩⟩
  rw [hzero, Row.valueAt?_zero, Row.top_of_mem_walk hr, Document.atPath?_of_split hsplit,
    Document.get?_cons, if_neg hne, Document.get?_cons, if_pos rfl]
  exact Document.follow?_along names

end Hops

/-! ### Completion with reduced documents -/

def Selected.withTop (d : Document) (s : Selected) : Selected := ⟨s.row.withTop d, s.chosen⟩

section Changes

variable {rows : List Selected}

theorem shrinkArray_withTop (d : Document) (h : ∀ s ∈ rows, s.row.steps ≠ []) (changes : Changes) (path : String) :
    shrinkArray (rows.map (Selected.withTop d)) changes path = shrinkArray rows changes path := by
  have hheld : (rows.map (Selected.withTop d)).filter (fun s => s.row.index?.isSome && s.row.containerPath == path) =
      (rows.filter fun s => s.row.index?.isSome && s.row.containerPath == path).map (Selected.withTop d) :=
    filter_map ..
  rw [shrinkArray, shrinkArray, hheld]
  generalize heq : (rows.filter fun s => s.row.index?.isSome && s.row.containerPath == path) = held
  have hmem : ∀ s ∈ held, s.row.steps ≠ [] := by
    intro s hs
    exact h s (mem_of_mem_filter (heq ▸ hs))
  have hkept : ((held.map (Selected.withTop d)).filter (!·.chosen)).map (fun s => Bson.document s.row.row) =
      (held.filter (!·.chosen)).map fun s => Bson.document s.row.row := by
    rw [filter_map, map_map]
    refine map_congr_left fun s hs => ?_
    exact congrArg Bson.document (Row.row_withTop (hmem s (mem_of_mem_filter hs)))
  rw [hkept, any_map]
  rfl

theorem changes_withTop (w : NestedWrite) (copies : List ResolvedCopy) (d : Document)
    (h : ∀ s ∈ rows, s.row.steps ≠ []) : w.changes copies (rows.map (Selected.withTop d)) = w.changes copies rows := by
  rw [changes, changes]
  cases w.action with
  | update fields =>
    simp only [updateChanges, filter_map, foldl_map]
    rfl
  | delete =>
    have hshrink : shrinkArray (rows.map (Selected.withTop d)) = shrinkArray rows := by
      funext changes path
      exact shrinkArray_withTop d h changes path
    show deleteChanges _ = deleteChanges _
    simp only [deleteChanges, containers, clearSingle, filter_map, foldl_map, map_map, hshrink]
    rfl

end Changes

section Fetched

variable (hhops : w.hops = hop :: rest) (hhop : hop.field ∈ w.read.projected)
  (hid : "_id" ∈ w.read.projected) (hcolumns : ∀ column ∈ w.columns, w.Fetches column)
  (fetch : String → Except StoreError (List UInt8)) (copies : List ResolvedCopy)

include hcolumns in
theorem selects_withTop (htop : r.top = d) : w.selects fetch (r.withTop (w.read.reduce d)) = w.selects fetch r := by
  have hvalues : w.columnValue fetch (r.withTop (w.read.reduce d)) = w.columnValue fetch r := by
    funext ref
    rw [columnValue, columnValue]
    cases hfind : w.columns.find? fun c => Text.same c.name ref.column with
    | none => rfl
    | some column =>
      simp only [valueAt?_of_fetches (hcolumns column (mem_of_find?_eq_some hfind)) htop]
  rw [selects, selects, hvalues]

include hhops hhop hcolumns in
theorem selection_reduce (d : Document) :
    w.selection fetch (w.read.reduce d) = List.map (Selected.withTop (w.read.reduce d)) <$> w.selection fetch d := by
  have hrows := rowsOf_reduce hhops hhop d
  rw [rowsOf, rowsOf] at hrows
  rw [selection, selection, hrows]
  refine mapM_map_of_eq fun r hr => ?_
  rw [selects_withTop hcolumns fetch (Row.top_of_mem_walk hr)]
  cases w.selects fetch r with
  | error e | ok chosen => rfl

include hhops in
theorem steps_of_selection {rows : List Selected} (h : w.selection fetch d = .ok rows) :
    ∀ s ∈ rows, s.row.steps ≠ [] := by
  intro s hs
  obtain ⟨r, hr, hselected⟩ := exists_of_mem_mapM h hs
  obtain ⟨chosen, -, hselected⟩ := exists_of_bind_ok hselected
  cases hselected
  rw [← length_pos_iff, length_steps_of_mem_walk hr, hhops]
  exact Nat.succ_pos _

include hhops hhop hid hcolumns in
theorem completeDocument_reduce (d : Document) :
    w.completeDocument fetch copies (w.read.reduce d) = w.completeDocument fetch copies d := by
  rw [completeDocument, completeDocument, AggregateRequest.get?_reduce_of_mem hid]
  cases Document.get? d "_id" with
  | none => rfl
  | some id =>
    simp only [selection_reduce hhops hhop hcolumns]
    cases hrows : w.selection fetch d with
    | error e => rfl
    | ok rows =>
      have hchanges := changes_withTop w copies (w.read.reduce d) (steps_of_selection hhops fetch hrows)
      have hcount : (rows.map (Selected.withTop (w.read.reduce d))).countP (·.chosen) =
          rows.countP (·.chosen) := countP_map ..
      show Except.ok _ = Except.ok _
      simp only [hchanges, hcount]

include hhops hhop hid hcolumns in
theorem complete_reduce (documents : List Document) :
    w.complete fetch copies (documents.map w.read.reduce) = w.complete fetch copies documents := by
  have hparts : (documents.map w.read.reduce).mapM (w.completeDocument fetch copies) =
      documents.mapM (w.completeDocument fetch copies) := by
    rw [mapM_map]
    exact mapM_congr fun d _ => completeDocument_reduce hhops hhop hid hcolumns fetch copies d
  rw [complete, complete, hparts]

end Fetched

end NestedWrite

/-! ### Columns of top-level documents -/

namespace Catalog

variable {c : Catalog} {top column : String} {location : Location}

/-- A column that is read from the top-level document comes down from one that the first hop refers
to. -/
theorem referenced_of_locate {rest : List Hop} (hmerge : ∀ h ∈ hop :: rest, h.kind = .merge)
    (h : c.locate top (hop :: rest) column = .ok location) (hzero : location.depth = 0) :
    ∃ referenced ∈ hop.link.referencedColumns, c.locate top [] referenced = .ok location := by
  induction rest using List.reverseRecOn generalizing column with
  | nil =>
    rw [← nil_append [hop]] at h
    obtain ⟨_, _, _, -, -, -, ⟨referenced, hreferenced, h⟩ | rfl⟩ := locate_concat_cases h
    · rw [Hop.linkedColumns, Hop.partnerColumns, hmerge hop (mem_cons_self ..)] at hreferenced
      obtain ⟨_, hmem, -⟩ := mem_zip_of_counterpart? hreferenced
      exact ⟨referenced, (of_mem_zip hmem).2, h⟩
    · cases hzero
  | append_singleton rest last ih =>
    rw [← cons_append] at h
    obtain ⟨_, _, _, -, -, -, ⟨_, -, h⟩ | rfl⟩ := locate_concat_cases h
    · exact ih (fun k hk => hmerge k (mem_append_left [last] hk)) h
    · cases hzero

theorem locate_nil_ok (h : c.locate top [] column = .ok location) :
    ∃ l t col, c.layout top = .ok l ∧ c.table top = .ok t ∧ t.column? column = some col ∧
      location.fieldName = if Text.hasName l.idColumns col.name then "_id" else (Path.split col.name).headD "" := by
  obtain ⟨l, t, col, hl, ht, hcol, rfl⟩ := locate_nil_cases h
  refine ⟨l, t, col, hl, ht, hcol, ?_⟩
  rw [Location.fieldName, TableLayout.heldField, TableLayout.idField?]
  cases hkey : Text.hasName l.idColumns col.name with
  | false => rfl
  | true =>
    have hid : Path.split "_id" = ["_id"] := Path.split_of_not_mem (by decide)
    by_cases hone : l.idColumns.length = 1
    · rw [if_pos hone]
      show (Path.split "_id").headD "" = "_id"
      rw [hid]
      rfl
    · rw [if_neg hone]
      show (Path.split (Path.extend "_id" col.name)).headD "" = "_id"
      rw [Path.extend_id, Path.split_append_dot, hid]
      rfl

end Catalog

namespace WriteContext

variable {σ : Type} {c : WriteContext σ} {command : Command} {w : NestedWrite} {s s' : σ}

theorem hops_ne_nil (h : l.isMerged) : l.hops ≠ [] := by
  obtain ⟨key, hkey⟩ := Option.isSome_iff_exists.mp h
  exact ne_nil_of_mem (Catalog.mem_hops_of_mergeKey? hkey)

theorem plan_nested_ok (h : c.plan command s = (.ok (.nested w), s')) :
    ∃ (l : Layout) (hop : Hop) (rest : List Hop), l.hops = hop :: rest ∧ w.collection = l.collection ∧
      w.hops = l.hops ∧ w.read = nestedRead l ∧ ∀ column ∈ w.columns,
        c.catalog.locate l.collection l.hops column.name = .ok column.location := by
  suffices hnested : ∃ (l : Layout) (filter : Option Expression) (action : NestedAction)
      (copies : List CopyFetch) (s₁ : σ), l.isMerged ∧ c.nested l filter action copies s₁ = (.ok (.nested w), s') by
    obtain ⟨l, filter, action, copies, s₁, hmerged, h⟩ := hnested
    obtain ⟨table, columns, -, hcolumns, hplan⟩ := nested_ok h
    cases hplan
    obtain ⟨hop, rest, hhops⟩ := exists_cons_of_ne_nil (hops_ne_nil hmerged)
    refine ⟨l, hop, rest, hhops, rfl, rfl, rfl, fun column hcolumn => ?_⟩
    obtain ⟨own, -, hown⟩ := exists_of_mem_mapM hcolumns hcolumn
    obtain ⟨location, hlocate, rfl⟩ := nestedColumn_ok hown
    exact hlocate
  cases command with
  | insert i =>
    obtain ⟨p, s₁, -, h⟩ := Attempt.bind_ok h
    cases h
  | select q => cases h
  | update u =>
    obtain ⟨_, l, _, _, _, _, _, s₁, -, -, -, -, -, ⟨_, _, _, -, -, hplan⟩ | ⟨hmerged, h⟩⟩ := planUpdate_ok h
    · cases hplan
    · exact ⟨l, _, _, _, s₁, hmerged, h⟩
  | delete d =>
    obtain ⟨_, l, -, -, ⟨_, _, _, -, -, hplan⟩ | ⟨s₁, hmerged, h⟩ |
      ⟨_, _, _, -, -, -, -, hplan⟩⟩ := planDelete_ok h
    · cases hplan
    · exact ⟨l, _, _, _, s₁, hmerged, h⟩
    · cases hplan

theorem kind_of_mem_hops (h : hop ∈ l.hops) : hop.kind = .merge := by
  obtain ⟨key, -, rfl⟩ := mem_map.mp h
  rfl

/-- Where a column is read from the top-level document, it is fetched just when the column it comes down
from is in the key of the collection, or in a field that happens to have the name of one that is. -/
theorem fetches_iff {rest : List Hop} (hhops : l.hops = hop :: rest) (hread : w.read = nestedRead l)
    {column : NestedColumn} (hlocate : c.catalog.locate l.collection l.hops column.name = .ok column.location)
    (hzero : column.location.depth = 0) :
    ∃ top t, ∃ referenced ∈ hop.link.referencedColumns, ∃ col, c.catalog.layout l.collection = .ok top ∧
      c.catalog.table l.collection = .ok t ∧ t.column? referenced = some col ∧
      (w.Fetches column ↔
        Text.hasName top.idColumns col.name ∨ (Path.split col.name).headD "" ∈ w.read.projected) := by
  rw [hhops] at hlocate
  have hmerge : ∀ h ∈ hop :: rest, h.kind = .merge := fun h hh => kind_of_mem_hops (hhops ▸ hh)
  obtain ⟨referenced, hreferenced, htop⟩ := Catalog.referenced_of_locate hmerge hlocate hzero
  obtain ⟨top, t, col, hlayout, ht, hcol, hfield⟩ := Catalog.locate_nil_ok htop
  refine ⟨top, t, referenced, hreferenced, col, hlayout, ht, hcol, ?_⟩
  have hid : "_id" ∈ w.read.projected := by
    rw [hread]
    exact mem_projected_nestedRead.mpr (.inl rfl)
  rw [NestedWrite.Fetches, hfield, forall_prop_of_true hzero]
  cases hkey : Text.hasName top.idColumns col.name with
  | false => simp
  | true => simp [hid]

/-- A write in two phases asks for the keys of documents and the field of its first hop. Columns in fetched fields,
those of rows below the top-level document among them, are read from reduced documents as from whole ones; any other
column is read as nothing, though there are documents that hold a value of it for a row. Only columns that come down
from the top-level document can be left out, and are so when the column that the first foreign key refers to is not
in the key there. Where none is left out, the write is completed as if whole documents had been read. -/
theorem plan_reads_fetched (h : c.plan command s = (.ok (.nested w), s')) :
    (∀ name, name ∈ w.read.projected ↔ name = "_id" ∨ ∃ hop ∈ w.hops.head?, name = hop.field) ∧
    (∀ column ∈ w.columns,
      (w.Fetches column → ∀ d, w.readings column (w.read.reduce d) = w.readings column d) ∧
      (¬w.Fetches column →
        (∀ d, ∀ b ∈ w.readings column (w.read.reduce d), b = none) ∧
          ∃ d b, some b ∈ w.readings column d) ∧
      (column.location.depth = 0 → ∃ hop ∈ w.hops.head?, ∃ top t,
        ∃ referenced ∈ hop.link.referencedColumns, ∃ col, c.catalog.layout w.collection = .ok top ∧
          c.catalog.table w.collection = .ok t ∧ t.column? referenced = some col ∧
          (w.Fetches column ↔ Text.hasName top.idColumns col.name ∨
            (Path.split col.name).headD "" ∈ w.read.projected))) ∧
    ((∀ column ∈ w.columns, w.Fetches column) → ∀ fetch copies documents,
      w.complete fetch copies (documents.map w.read.reduce) = w.complete fetch copies documents) := by
  obtain ⟨l, hop, rest, hhops, hcollection, hwhops, hread, hcolumns⟩ := plan_nested_ok h
  have hfirst : w.hops = hop :: rest := hwhops.trans hhops
  have hprojected : ∀ name, name ∈ w.read.projected ↔
      name = "_id" ∨ ∃ hop ∈ w.hops.head?, name = hop.field := by
    intro name
    rw [hread, hwhops]
    exact mem_projected_nestedRead
  have hid : "_id" ∈ w.read.projected := (hprojected _).mpr (.inl rfl)
  have hhop : hop.field ∈ w.read.projected := (hprojected _).mpr (.inr ⟨hop, by rw [hfirst]; rfl, rfl⟩)
  refine ⟨hprojected, fun column hcolumn => ⟨fun hf => ?_, fun hf => ⟨fun d => ?_, ?_⟩, fun hzero => ?_⟩,
    fun hall fetch copies documents => ?_⟩
  · intro d
    rw [NestedWrite.readings, NestedWrite.readings, NestedWrite.rowsOf_reduce hfirst hhop, map_map]
    exact map_congr_left fun r hr => NestedWrite.valueAt?_of_fetches hf (Row.top_of_mem_walk hr)
  · exact NestedWrite.readings_of_not_fetches hf
  · exact NestedWrite.exists_reading_of_not_fetches hfirst hhop hf
  · rw [hcollection]
    exact ⟨hop, by rw [hfirst]; rfl, fetches_iff hhops hread (hcolumns column hcolumn) hzero⟩
  · exact NestedWrite.complete_reduce hfirst hhop hid hall fetch copies documents

/-- Orders that hold their items, by a number that is not their key, and these their parts. -/
def numberedOrders : WriteContext Unit where
  catalog := .ofTables
    [{ name := "orders", columns := [⟨"id", .integer, false⟩, ⟨"number", .integer, false⟩], primaryKey := ["id"] },
     { name := "items"
       columns := [⟨"item", .integer, false⟩, ⟨"order_no", .integer, false⟩]
       primaryKey := ["item"]
       foreignKeys := [⟨"items_order", ["order_no"], "orders", ["number"]⟩]
       properties := { mergeInto := some "orders" } },
     { name := "parts"
       columns := [⟨"part", .integer, false⟩, ⟨"order_no", .integer, false⟩, ⟨"item", .integer, false⟩,
         ⟨"name", .string, false⟩]
       primaryKey := ["part"]
       foreignKeys := [⟨"parts_item", ["order_no", "item"], "items", ["order_no", "item"]⟩]
       properties := { mergeInto := some "items" } }]
  objects := .unavailable

def renameParts : Update where
  table := "parts"
  assignments := [⟨"name", .literal (.string "bolt")⟩]
  filter := some (.comparison .eq (.column ⟨"", "order_no"⟩) (.literal (.integer 5)))

def renamedParts : NestedWrite where
  table := "parts"
  collection := "orders"
  hops := [⟨.merge, { name := "items_order", parent := "orders", child := "items"
                      columns := ["order_no"], referencedColumns := ["number"], association := .many }⟩,
    ⟨.merge, { name := "parts_item", parent := "items", child := "parts"
               columns := ["order_no", "item"], referencedColumns := ["order_no", "item"]
               association := .many }⟩]
  read := { collection := "orders"
            pipeline := [[("$match", .document [("items.parts", .document [("$exists", .boolean true)])])],
              [("$project", .document [("_id", .int32 1), ("items", .int32 1)])]] }
  filter := renameParts.filter
  columns := [⟨"part", ⟨2, "_id"⟩, .integer⟩, ⟨"order_no", ⟨0, "number"⟩, .integer⟩,
    ⟨"item", ⟨1, "_id"⟩, .integer⟩, ⟨"name", ⟨2, "name"⟩, .string⟩]
  action := .update [("name", .string "bolt")]
  copies := []

/-- The parts of an order are never found by its number; the item of a part is read as it is. -/
theorem plan_reads_fetched_parts :
    numberedOrders.plan (.update renameParts) () = (.ok (.nested renamedParts), ()) ∧
      ¬renamedParts.Fetches ⟨"order_no", ⟨0, "number"⟩, .integer⟩ ∧
      (∀ d, ∀ b ∈ renamedParts.readings ⟨"order_no", ⟨0, "number"⟩, .integer⟩ (renamedParts.read.reduce d),
        b = none) ∧
      (∃ d b, some b ∈ renamedParts.readings ⟨"order_no", ⟨0, "number"⟩, .integer⟩ d) ∧
      renamedParts.Fetches ⟨"item", ⟨1, "_id"⟩, .integer⟩ ∧
      ∀ d, renamedParts.readings ⟨"item", ⟨1, "_id"⟩, .integer⟩ (renamedParts.read.reduce d) =
        renamedParts.readings ⟨"item", ⟨1, "_id"⟩, .integer⟩ d := by
  have hplan : numberedOrders.plan (.update renameParts) () = (.ok (.nested renamedParts), ()) := rfl
  obtain ⟨-, hcolumns, -⟩ := plan_reads_fetched hplan
  have hnumber : ¬renamedParts.Fetches ⟨"order_no", ⟨0, "number"⟩, .integer⟩ := by decide +kernel
  have hitem : renamedParts.Fetches ⟨"item", ⟨1, "_id"⟩, .integer⟩ := by decide +kernel
  obtain ⟨-, hmissed, -⟩ := hcolumns ⟨"order_no", ⟨0, "number"⟩, .integer⟩ (by simp [renamedParts])
  obtain ⟨hread, -⟩ := hcolumns ⟨"item", ⟨1, "_id"⟩, .integer⟩ (by simp [renamedParts])
  exact ⟨hplan, hnumber, (hmissed hnumber).1, (hmissed hnumber).2, hitem, hread hitem⟩

end WriteContext

end Pushdown
