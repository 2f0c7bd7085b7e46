import Pushdown.Proofs.PlacementChains
import Pushdown.Bson.Path
import Pushdown.Query.Context

/-!
# Columns of rows that may be absent

`Context.resolve_in_row`: a column is read from the row of its table, unless it links the row to the one that holds
it (`Source.links`): then it is read from there, or from further up.
-/

namespace Pushdown

open List Option

def Source.links (s : Source) (column : String) : Bool :=
  s.hops.getLast?.any fun hop => Text.hasName hop.linkedColumns column

namespace Catalog

variable {c : Catalog} {top : String} {hops : List Hop} {hop : Hop} {column : String} {t : Table}

section Below

variable (hop) {l : Layout} {col : Column} (hl : c.layout hop.link.child = .ok l) (ht : c.table hop.link.child = .ok t)
  (hcol : t.column? column = some col)
include hl ht hcol

theorem exists_locate_below : ∃ field, c.locate top (hops ++ [hop]) column =
    (counterpart? hop.linkedColumns hop.partnerColumns column).elim (.ok ⟨(hops ++ [hop]).length, field⟩)
      (c.locate top hops) := by
  rw [← counterpart?_congr (Table.same_of_column? hcol), locate, reverse_concat, locateUp, hl]
  simp only [bind, Except.bind, spelledColumn_of_table ht hcol]
  unfold Hop.linkedColumns Hop.partnerColumns
  cases hop.kind with
  | merge | embed =>
    dsimp only
    cases counterpart? _ _ col.name with
    | none => exact ⟨_, by simp; rfl⟩
    | some other => exact ⟨"", rfl⟩

theorem locate_linked {other : String} (h : counterpart? hop.linkedColumns hop.partnerColumns column = some other) :
    c.locate top (hops ++ [hop]) column = c.locate top hops other := by
  obtain ⟨_, hlocate⟩ := exists_locate_below hop hl ht hcol
  rw [hlocate, h, elim_some]

theorem locate_unlinked (h : counterpart? hop.linkedColumns hop.partnerColumns column = none) :
    ∃ field, c.locate top (hops ++ [hop]) column = .ok ⟨(hops ++ [hop]).length, field⟩ := by
  obtain ⟨field, hlocate⟩ := exists_locate_below hop hl ht hcol
  exact ⟨field, by rw [hlocate, h, elim_none]⟩

end Below

theorem locate_plain (c : Catalog) (top : String) (hops : List Hop) (column : String) :
    c.locate top (hops.map Hop.plain) column = c.locate top hops column := by
  rw [locate, locate, ← map_reverse]
  generalize hops.reverse = up
  induction up generalizing column with
  | nil => rfl
  | cons hop above ih =>
    rw [map_cons, locateUp, locateUp]
    simp only [ih, length_map]
    rfl

/-- Foreign keys refer to columns that there are. -/
def ReferencesFound (c : Catalog) : Prop :=
  ∀ t ∈ c.tables, ∀ fk ∈ t.foreignKeys, ∀ ref ∈ (c.reference t fk).toOption,
    ∀ target ∈ (c.table ref.referencedTable).toOption, ∀ column ∈ ref.referencedColumns, (target.column? column).isSome

instance (c : Catalog) : Decidable c.ReferencesFound := inferInstanceAs (Decidable (∀ t ∈ _, _))

theorem column_of_reference {fk : ForeignKey} {ref : Reference} (h : c.reference t fk = .ok ref)
    (hcolumn : column ∈ ref.columns) : (t.column? column).isSome := by
  rw [reference] at h
  obtain ⟨target, -, h⟩ := exists_of_bind_ok h
  split at h
  · cases h
  · rename_i hall
    extract_lets referenced at h
    split at h
    · cases h
      simpa [isSome_iff_ne_none] using find?_eq_none.mp hall column hcolumn
    · cases h

variable {l : Layout} {placement : Placement} {source : FromClause}

theorem LaysOut.exists_location (hc : c.Indexed) (hfound : c.ReferencesFound) {name : String} (h : c.LaysOut name l)
    (ht : c.table name = .ok t) (hcol : (t.column? column).isSome) :
    ∃ location, c.locate l.collection l.hops column = .ok location := by
  -- a column that is not in the row itself is looked for one row up
  induction h generalizing t column with
  | top ht' hown hmerge =>
    cases ht.symm.trans ht'
    obtain ⟨col, hcol⟩ := isSome_iff_exists.mp hcol
    exact ⟨_, (LaysOut.top ht hown hmerge).locate_top hc.keyed ht hmerge hcol⟩
  | @merged _ _ _ own parent key ht' hown hmerge hparent hkey ih =>
    cases ht.symm.trans ht'
    obtain ⟨col, hcol⟩ := isSome_iff_exists.mp hcol
    rw [(LaysOut.merged ht hown hmerge hparent hkey).locate_merged hc.keyed ht rfl hcol]
    cases hother : counterpart? key.columns key.referencedColumns column with
    | none => exact ⟨_, rfl⟩
    | some referenced =>
      obtain ⟨above, habove⟩ := hparent.exists_table
      obtain ⟨ref, href, hsame, -, hreferenced, -⟩ := mergeKey_reference hkey
      obtain ⟨fk, hfk, href⟩ := exists_of_mem_mapM (outline_ok hown).1.references href
      have htarget : c.table ref.referencedTable = .ok above := by
        refine table_of_lower (Text.lower_eq_of_same hsame).symm ?_
        rw [(hparent.outlines habove).table]
        exact table_name hc.keyed habove
      obtain ⟨_, hmem, -⟩ := mem_zip_of_counterpart? hother
      rw [hops_merged, dropLast_concat, collection_merged]
      refine ih habove (hfound _ (mem_tables_of_table ht) fk hfk ref (by rw [href]; rfl) above
        (by rw [htarget]; rfl) referenced ?_)
      exact hreferenced ▸ (of_mem_zip hmem).2

theorem Chain.exists_location (hc : c.Indexed) (hfound : c.ReferencesFound) (h : c.Chain top l hops)
    (ht : c.table l.table = .ok t) (hcol : (t.column? column).isSome) :
    ∃ location, c.locate top hops column = .ok location := by
  induction h generalizing t column with
  | own hl htop =>
    have hout := layout_eq_ok_iff.mp (layout_layout_table hc.keyed hl)
    exact htop ▸ hout.exists_location hc hfound ht hcol
  | @copy holder held hops _ k hholder hk hheld hchild ih =>
    obtain ⟨col, hcol⟩ := isSome_iff_exists.mp hcol
    have hlayout := layout_layout_table hc.keyed hheld
    rw [← hchild] at ht hlayout
    cases hother : counterpart? k.referencedColumns k.columns column with
    | none =>
      obtain ⟨field, hlocate⟩ := locate_unlinked ⟨.embed, k⟩ hlayout ht hcol hother
      exact ⟨_, hlocate⟩
    | some other =>
      rw [locate_linked ⟨.embed, k⟩ hlayout ht hcol hother]
      obtain ⟨_, hl⟩ := hholder.exists_layout
      obtain ⟨_, habove, hown⟩ := exists_outlines (layout_layout_table hc.keyed hl)
      obtain ⟨_, -, _, _, href, -, -, rfl⟩ := (hown.mem_embeddedKeys hc).mp hk
      obtain ⟨_, hmem, -⟩ := mem_zip_of_counterpart? hother
      exact ih habove (column_of_reference href (of_mem_zip hmem).2)

theorem Chain.length_of_mem (hc : c.Indexed) (h : c.Chain top l hops) (hhop : hop ∈ hops) :
    hop.link.columns.length = hop.link.referencedColumns.length := by
  induction h with
  | own hl _ => exact (layout_eq_ok_iff.mp hl).length_of_mem_hops hhop
  | copy hholder hk _ _ ih =>
    rcases mem_append.mp hhop with hhop | hhop
    · exact ih hhop
    · rw [mem_singleton.mp hhop]
      obtain ⟨_, _, -, hown⟩ := hholder.outlined
      obtain ⟨_, -, _, _, href, -, -, rfl⟩ := (hown.mem_embeddedKeys hc).mp hk
      exact length_of_reference href

/-- What is read of a source: its table is laid out, and reached by its last hop. -/
structure Reached (c : Catalog) (top : String) (s : Source) : Prop where
  layout : ∃ l, c.layout s.table = .ok l
  table : s.table = ((s.hops.map Hop.field).getLast?).getD top
  linked : ∀ hop ∈ s.hops, hop.linkedColumns.length = hop.partnerColumns.length

theorem reached_of_place (hc : c.Indexed) (h : c.place source = .ok placement) {s : Source} (hs : s ∈ placement.sources)
    (htold : s.optional = false ∨ c.DotFree source) : c.Reached placement.top s := by
  obtain ⟨l, hops, htable, hchain, hplain⟩ := plain_of_place hc h hs htold
  obtain ⟨_, hl⟩ := hchain.exists_layout
  refine ⟨⟨l, by rw [htable]; exact layout_layout_table hc.keyed hl⟩, ?_, fun hop hhop => ?_⟩
  · rw [htable, hchain.table_eq, Hop.map_field_of_plain hplain]
  · obtain ⟨hop', hmem, heq⟩ := mem_map.mp (hplain ▸ mem_map_of_mem hhop)
    have hcolumns : hop'.link.columns = hop.link.columns := congrArg (·.link.columns) heq
    have hreferenced : hop'.link.referencedColumns = hop.link.referencedColumns :=
      congrArg (·.link.referencedColumns) heq
    have hlength := hchain.length_of_mem hc hmem
    rw [hcolumns, hreferenced] at hlength
    unfold Hop.linkedColumns Hop.partnerColumns
    cases hop.kind with
    | merge => exact hlength
    | embed => exact hlength.symm

theorem exists_location_of_place (hc : c.Indexed) (hfound : c.ReferencesFound) (h : c.place source = .ok placement)
    {s : Source} (hs : s ∈ placement.sources) (htold : s.optional = false ∨ c.DotFree source)
    (ht : c.table s.table = .ok t) (hcol : (t.column? column).isSome) :
    ∃ location, c.locate placement.top s.hops column = .ok location := by
  obtain ⟨l, hops, htable, hchain, hplain⟩ := plain_of_place hc h hs htold
  rw [htable] at ht
  obtain ⟨location, hlocate⟩ := hchain.exists_location hc hfound ht hcol
  rw [← locate_plain, hplain, locate_plain] at hlocate
  exact ⟨location, hlocate⟩

namespace Reached

variable {s : Source} {col : Column} (h : c.Reached top s)
include h

theorem table_of_hops {above : List Hop} (hhops : s.hops = above ++ [hop]) : s.table = hop.link.child := by
  rw [h.table, hhops, map_append, map_singleton, getLast?_concat]
  rfl

variable (ht : c.table s.table = .ok t) (hcol : t.column? column = some col)
include ht hcol

theorem locate_own (hown : s.links column = false) :
    ∃ field, c.locate top s.hops column = .ok ⟨s.hops.length, field⟩ := by
  obtain ⟨l, hl⟩ := h.layout
  rcases eq_nil_or_concat' s.hops with hnil | ⟨above, hop, hhops⟩
  · have htop : s.table = top := by rw [h.table, hnil]; rfl
    rw [htop] at hl ht
    rw [hnil, locate, reverse_nil, locateUp, hl]
    simp only [bind, Except.bind, spelledColumn_of_table ht hcol]
    exact ⟨_, rfl⟩
  · rw [h.table_of_hops hhops] at hl ht
    have hfree : Text.hasName hop.linkedColumns column = false := by
      simpa [Source.links, hhops] using hown
    rw [hhops]
    exact locate_unlinked hop hl ht hcol (counterpart?_none hfree _)

theorem depth_lt_of_links (hlinks : s.links column) {location : Location}
    (hlocate : c.locate top s.hops column = .ok location) : location.depth < s.hops.length := by
  obtain ⟨l, hl⟩ := h.layout
  rcases eq_nil_or_concat' s.hops with hnil | ⟨above, hop, hhops⟩
  · rw [Source.links, hnil] at hlinks
    cases hlinks
  · rw [h.table_of_hops hhops] at hl ht
    have hmem : Text.hasName hop.linkedColumns column := by simpa [Source.links, hhops] using hlinks
    obtain ⟨other, hother⟩ := exists_counterpart (h.linked hop (by simp [hhops])) hmem
    rw [hhops, locate_linked hop hl ht hcol hother] at hlocate
    rw [hhops, length_append]
    exact Nat.lt_succ_of_le (depth_le_of_locate hlocate)

end Reached

end Catalog

namespace Context

variable {σ : Type} {ctx : Context σ} {ref : ColumnRef} {s : Source}

section Named

variable (hapart : ctx.sources.Pairwise fun s s' => Text.lower s.name ≠ Text.lower s'.name)
  (hs : s ∈ ctx.sources)
include hapart hs

theorem sourceOf_same (hsame : Text.same s.name ref.table) (hname : ref.table ≠ "") : ctx.sourceOf ref = .ok s := by
  have hfind : ctx.sources.find? (fun s' => Text.same s'.name s.name) = some s := by
    generalize ctx.sources = sources at hapart hs
    induction sources with
    | nil => cases hs
    | cons first sources ih =>
      obtain ⟨hfirst, hrest⟩ := pairwise_cons.mp hapart
      rcases mem_cons.mp hs with rfl | hs
      · exact find?_cons_of_pos (Text.same_refl _)
      · refine (find?_cons_of_neg fun hsame => ?_).trans (ih hrest hs)
        exact hfirst s hs (Text.lower_eq_of_same hsame)
  rw [find?_same hsame] at hfind
  rw [sourceOf, hfind]
  simp [hname]

end Named

theorem resolve_eq {t : Table} {col : Column} (hs : ctx.sourceOf ref = .ok s)
    (ht : ctx.catalog.table s.table = .ok t) (hcol : t.column? ref.column = some col) (hmode : ctx.mode ≠ .element) :
    ctx.resolve ref = (fun l : Location => ⟨l.path s.hops, col.type⟩) <$>
      (ctx.catalog.locate ctx.top s.hops ref.column).mapError .layout := by
  rw [resolve, hs]
  simp only [bind, Except.bind, ht, Except.mapError, hcol]
  cases ctx.catalog.locate ctx.top s.hops ref.column with
  | error e => rfl
  | ok l =>
    cases hm : ctx.mode with
    | element => exact absurd hm hmode
    | pipeline | standalone => rfl

end Context

theorem Document.atPath?_extend_of_absent {d : Document} {path : String} (hpath : path ≠ "")
    (habsent : ∀ b, d.atPath? path = some b → b = .null ∨ b = .document []) (field : String) :
    d.atPath? (Path.extend path field) = none := by
  have hextend : Path.extend path field = path ++ "." ++ field := by simp [Path.extend, hpath]
  rw [hextend, atPath?, Path.split_append_dot, Bson.follow?_append]
  rw [atPath?] at habsent
  cases hrow : Bson.follow? (Path.split path) (.document d) with
  | none => rfl
  | some b =>
    obtain ⟨name, names, hnames⟩ := exists_cons_of_ne_nil (Path.split_ne_nil field)
    rw [bind_some, hnames, Bson.follow?]
    rcases habsent b hrow with rfl | rfl
    · rfl
    · rfl

/-- A table which may not be absent, or any where no name on the way has a dot, is found by its name, and a column
of it is read from its row just when it does not link the row to the one that holds it. Where the row is absent, or
empty as that of an array without elements, nothing is read then. A column that links the row is read from a row
above it, and is always found where foreign keys refer to columns that there are. -/
theorem Context.resolve_in_row {σ : Type} (ctx : Context σ) {source : FromClause} {placement : Placement}
    (hc : ctx.catalog.Indexed) (h : ctx.catalog.place source = .ok placement)
    (htop : ctx.top = placement.top) (hsources : ctx.sources = placement.sources)
    (hmode : ctx.mode ≠ .element) {s : Source} (hs : s ∈ placement.sources)
    (htold : s.optional = false ∨ ctx.catalog.DotFree source) :
    (s.name ≠ "" → ∀ column, ctx.sourceOf ⟨s.name, column⟩ = .ok s) ∧
    ∀ ref t col, ctx.sourceOf ref = .ok s → ctx.catalog.table s.table = .ok t →
      t.column? ref.column = some col →
      (s.links ref.column = false → ∃ field,
        ctx.catalog.locate ctx.top s.hops ref.column = .ok ⟨s.hops.length, field⟩ ∧
        ctx.resolve ref = .ok ⟨Path.extend (Hop.path s.hops) field, col.type⟩ ∧
        (Hop.path s.hops ≠ "" → ∀ d : Document,
          (∀ b, d.atPath? (Hop.path s.hops) = some b → b = .null ∨ b = .document []) →
          d.atPath? (Path.extend (Hop.path s.hops) field) = none)) ∧
      (s.links ref.column →
        (∀ r, ctx.resolve ref = .ok r → ∃ location : Location,
          ctx.catalog.locate ctx.top s.hops ref.column = .ok location ∧
          location.depth < s.hops.length ∧ r = ⟨location.path s.hops, col.type⟩) ∧
        (ctx.catalog.ReferencesFound → ∃ r, ctx.resolve ref = .ok r)) := by
  have hreached := Catalog.reached_of_place hc h hs htold
  rw [← htop] at hreached
  refine ⟨fun hname column => ?_, fun ref t col hsource ht hcol =>
    ⟨fun hown => ?_, fun hlinks => ⟨fun r hr => ?_, fun hfound => ?_⟩⟩⟩
  · have hapart := Catalog.apart_of_place hc h
    rw [← hsources] at hapart
    exact sourceOf_same hapart (hsources ▸ hs) (Text.same_refl _) hname
  · obtain ⟨field, hlocate⟩ := hreached.locate_own ht hcol hown
    refine ⟨field, hlocate, ?_, fun hpath d habsent => Document.atPath?_extend_of_absent hpath habsent field⟩
    have hpath : Location.path ⟨s.hops.length, field⟩ s.hops = Path.extend (Hop.path s.hops) field := by
      rw [Location.path, take_length]
    rw [resolve_eq hsource ht hcol hmode, hlocate, ← hpath]
    rfl
  · rw [resolve_eq hsource ht hcol hmode] at hr
    cases hlocate : ctx.catalog.locate ctx.top s.hops ref.column with
    | error e =>
      rw [hlocate] at hr
      cases hr
    | ok location =>
      rw [hlocate] at hr
      cases hr
      exact ⟨location, rfl, hreached.depth_lt_of_links ht hcol hlinks hlocate, rfl⟩
  · obtain ⟨location, hlocate⟩ := Catalog.exists_location_of_place hc hfound h hs htold ht
      (Option.isSome_of_eq_some hcol)
    rw [resolve_eq hsource ht hcol hmode, htop, hlocate]
    exact ⟨_, rfl⟩

/-- The items of the workshop, with the notes on their orders and their parts, if any. -/
def workshopContext : Context Unit where
  catalog := Catalog.workshop
  top := Catalog.workshopPlacement.top
  sources := Catalog.workshopPlacement.sources
  objects := .unavailable
  mode := .pipeline

/-- The number of a note is read from the note, and the order of a note from the order. -/
theorem resolve_notes :
    workshopContext.catalog.Indexed ∧
      workshopContext.catalog.place Catalog.workshopItems = .ok Catalog.workshopPlacement ∧
      workshopContext.catalog.DotFree Catalog.workshopItems ∧ workshopContext.catalog.ReferencesFound ∧
      (∃ field, workshopContext.resolve ⟨"notes", "note"⟩ = .ok ⟨Path.extend "__notes" field, .integer⟩ ∧
        Document.atPath? [("_id", .int32 1), ("__notes", .document [])] (Path.extend "__notes" field) =
          none) ∧
      workshopContext.resolve ⟨"notes", "orders"⟩ = .ok ⟨"_id", .integer⟩ ∧
      ∃ location : Location, location.depth < 1 ∧
        workshopContext.resolve ⟨"notes", "orders"⟩ =
          .ok ⟨location.path [(Catalog.heldHop "notes" "orders" "id").aliased "__notes"], .integer⟩ := by
  have hc : workshopContext.catalog.Indexed := Catalog.indexed_ofTables _
  have hplace : workshopContext.catalog.place Catalog.workshopItems = .ok Catalog.workshopPlacement := rfl
  have hdots : workshopContext.catalog.DotFree Catalog.workshopItems := by decide +kernel
  have hreferences : workshopContext.catalog.ReferencesFound := by decide +kernel
  have hmem : ⟨"notes", "notes", [(Catalog.heldHop "notes" "orders" "id").aliased "__notes"], true⟩ ∈
      Catalog.workshopPlacement.sources := by
    simp [Catalog.workshopPlacement]
  obtain ⟨hfound, hresolve⟩ := workshopContext.resolve_in_row hc hplace rfl rfl (by decide) hmem (.inr hdots)
  have hsource := hfound (by decide)
  have ht : workshopContext.catalog.table "notes" =
      .ok (Catalog.heldTable "notes" "note" "orders" "id") := rfl
  obtain ⟨field, -, hnote, habsent⟩ :=
    (hresolve ⟨"notes", "note"⟩ _ _ (hsource "note") ht rfl).1 (by decide +kernel)
  obtain ⟨habove, hresolved⟩ :=
    (hresolve ⟨"notes", "orders"⟩ _ _ (hsource "orders") ht rfl).2 (by decide +kernel)
  refine ⟨hc, hplace, hdots, hreferences, ⟨field, hnote, habsent (by decide +kernel) _ ?_⟩, rfl, ?_⟩
  · intro b hb
    have hrow : Document.atPath? [("_id", .int32 1), ("__notes", .document [])] "__notes" =
        some (.document []) := rfl
    exact .inr (Option.some.inj (hb.symm.trans hrow))
  · obtain ⟨r, hr⟩ := hresolved hreferences
    obtain ⟨location, -, hdepth, rfl⟩ := habove r hr
    exact ⟨location, hdepth, hr⟩

end Pushdown
