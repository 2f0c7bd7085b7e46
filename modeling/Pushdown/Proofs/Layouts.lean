import Pushdown.Proofs.Tables

/-!
# How layouts come about

`LaysOut`: the layout of a merged table is its outline (`Outlines`) on top of the layout of the table that it is
merged into. `layout_eq_ok_iff`: a layout is built just when there is a way up to a table that is not merged, and
then neither the tables under construction (`Pending`) nor the number of steps make a difference.
-/

namespace Pushdown.Catalog

open List Layout

variable {c : Catalog} {l : Layout} {name : String}

/-- What the layout of a table says, whatever the role of the table. -/
structure Outlines (c : Catalog) (t : Table) (own : TableLayout) : Prop where
  table : own.table = t.name
  primaryKey : own.primaryKey = t.primaryKey
  mergedChildren : own.mergedChildren = c.mergedChildren t
  /-- A table is not both merged and embeddable. -/
  exclusive : t.properties.isEmbeddable → t.properties.mergeInto = none
  references : t.foreignKeys.mapM (c.reference t) = .ok own.references
  copies : t.properties.isEmbeddable → c.copyTargets t = .ok own.copyTargets
  noCopies : t.properties.isEmbeddable = false → own.copyTargets = []
  keys : own.references.foldlM (c.addEmbeddedKey t own.copyTargets) [] = .ok own.embeddedKeys

variable {own parent : TableLayout} {t : Table} {key : Link} {references : List Reference} {building : List String}
  {fuel : Nat}

theorem outline_ok (h : c.outline t = .ok own) :
    c.Outlines t own ∧ own.role = if t.properties.isEmbeddable then .embeddable else .root := by
  rw [outline] at h
  split at h
  · cases h
  · rename_i hrole
    obtain ⟨references, hreferences, h⟩ := exists_of_bind_ok h
    have hexclusive (he : t.properties.isEmbeddable) : t.properties.mergeInto = none := by
      simpa [he] using hrole
    split at h
    · rename_i he
      obtain ⟨copies, hcopies, h⟩ := exists_of_bind_ok h
      obtain ⟨keys, hkeys, h⟩ := exists_of_bind_ok h
      cases h
      exact ⟨⟨rfl, rfl, rfl, hexclusive, hreferences, fun _ => hcopies,
        fun hne => absurd (he.symm.trans hne) nofun, hkeys⟩, (if_pos he).symm⟩
    · rename_i he
      obtain ⟨copies, hcopies, h⟩ := exists_of_bind_ok h
      obtain ⟨keys, hkeys, h⟩ := exists_of_bind_ok h
      cases h
      cases hcopies
      exact ⟨⟨rfl, rfl, rfl, hexclusive, hreferences, fun h => absurd h he, fun _ => rfl, hkeys⟩, (if_neg he).symm⟩

theorem mergeKey_ok (h : mergeKey t references parent = .ok key) : key.parent = parent.table ∧ key.child = t.name := by
  rw [mergeKey] at h
  split at h
  · cases h
  · cases h
    exact ⟨rfl, rfl⟩
  · cases h

theorem mergeKey_reference (h : mergeKey t references parent = .ok key) :
    ∃ ref ∈ references, Text.same ref.referencedTable parent.table ∧ key.columns = ref.columns ∧
      key.referencedColumns = ref.referencedColumns ∧ key.readAs = none := by
  rw [mergeKey] at h
  split at h
  · cases h
  · rename_i ref hfilter
    cases h
    have href : ref ∈ references.filter fun r => Text.same r.referencedTable parent.table :=
      hfilter ▸ mem_singleton_self ref
    obtain ⟨hmem, hsame⟩ := mem_filter.mp href
    exact ⟨ref, hmem, hsame, rfl, rfl, rfl⟩
  · cases h

/-- The layout of a table, told by the way up to the table whose documents hold its rows. -/
inductive LaysOut (c : Catalog) : String → Layout → Prop
  | top {name : String} {t : Table} {own : TableLayout} :
      c.table name = .ok t → c.outline t = .ok own → t.properties.mergeInto = none →
      LaysOut c name { own with ancestors := [] }
  | merged {name above : String} {t : Table} {own : TableLayout} {parent : Layout} {key : Link} :
      c.table name = .ok t → c.outline t = .ok own → t.properties.mergeInto = some above →
      LaysOut c above parent → mergeKey t own.references parent.toTableLayout = .ok key →
      LaysOut c name { own with role := .merged key, ancestors := parent.chain }

namespace LaysOut

theorem of_lower {other : String} (hname : Text.lower name = Text.lower other)
    (h : c.LaysOut name l) : c.LaysOut other l := by
  cases h with
  | top ht hown hmerge => exact .top (table_of_lower hname ht) hown hmerge
  | merged ht hown hmerge hparent hkey =>
    exact .merged (table_of_lower hname ht) hown hmerge hparent hkey

variable (h : c.LaysOut name l)

include h

theorem unique {l' : Layout} (h' : c.LaysOut name l') : l = l' := by
  induction h generalizing l' with
  | top ht hown hmerge =>
    cases h' with
    | top ht' hown' _ =>
      cases ht.symm.trans ht'
      cases hown.symm.trans hown'
      rfl
    | merged ht' _ hmerge' _ _ =>
      cases ht.symm.trans ht'
      cases hmerge.symm.trans hmerge'
  | merged ht hown hmerge _ hkey ih =>
    cases h' with
    | top ht' _ hmerge' =>
      cases ht.symm.trans ht'
      cases hmerge.symm.trans hmerge'
    | merged ht' hown' hmerge' hparent' hkey' =>
      cases ht.symm.trans ht'
      cases hown.symm.trans hown'
      cases hmerge.symm.trans hmerge'
      cases ih hparent'
      cases hkey.symm.trans hkey'
      rfl

theorem outlines (ht : c.table name = .ok t) : c.Outlines t l.toTableLayout := by
  cases h with
  | top ht' hown _ =>
    cases ht.symm.trans ht'
    exact (outline_ok hown).1
  | merged ht' hown _ _ _ =>
    cases ht.symm.trans ht'
    -- nothing but the role differs from the outline
    exact { (outline_ok hown).1 with }

theorem exists_table : ∃ t, c.table name = .ok t := by
  cases h with
  | top ht _ _ | merged ht _ _ _ _ => exact ⟨_, ht⟩

theorem role_of_top (ht : c.table name = .ok t) (hmerge : t.properties.mergeInto = none) :
    l.ancestors = [] ∧ l.role = if t.properties.isEmbeddable then .embeddable else .root := by
  cases h with
  | top ht' hown _ =>
    cases ht.symm.trans ht'
    exact ⟨rfl, (outline_ok hown).2⟩
  | merged ht' _ hmerge' _ _ =>
    cases ht.symm.trans ht'
    cases hmerge.symm.trans hmerge'

theorem isEmbeddable_of_table (ht : c.table name = .ok t) (hembeddable : t.properties.isEmbeddable) :
    l.isEmbeddable := by
  obtain ⟨-, hrole⟩ := h.role_of_top ht ((h.outlines ht).exclusive hembeddable)
  rw [TableLayout.isEmbeddable, hrole, if_pos hembeddable]
  rfl

theorem isMerged_iff : l.isMerged ↔ 0 < l.ancestors.length := by
  cases h with
  | top ht hown hmerge =>
    have hrole := ((LaysOut.top ht hown hmerge).role_of_top ht hmerge).2
    rw [TableLayout.isMerged, TableLayout.mergeKey?, hrole]
    split
    · rename_i heq
      split at heq <;> cases heq
    · simp
  | merged _ _ _ _ _ => exact ⟨fun _ => Nat.succ_pos _, fun _ => rfl⟩

theorem child_of_mergeKey? (ht : c.table name = .ok t) (hkey : l.mergeKey? = some key) : key.child = t.name := by
  cases h with
  | top ht' hown hmerge =>
    cases (LaysOut.top ht' hown hmerge).isMerged_iff.mp (congrArg Option.isSome hkey)
  | merged ht' _ _ _ hkey' =>
    cases ht.symm.trans ht'
    cases hkey
    exact (mergeKey_ok hkey').2

theorem exists_parent (ht : c.table name = .ok t) {above : String} (hmerge : t.properties.mergeInto = some above) :
    ∃ parent, c.LaysOut above parent ∧ l.ancestors = parent.chain := by
  cases h with
  | top ht' _ hmerge' =>
    cases ht.symm.trans ht'
    cases hmerge.symm.trans hmerge'
  | merged ht' _ hmerge' hparent _ =>
    cases ht.symm.trans ht'
    cases hmerge.symm.trans hmerge'
    exact ⟨_, hparent, rfl⟩

end LaysOut

theorem laysOut_of_layoutWithin (h : c.layoutWithin fuel building name = .ok l) : c.LaysOut name l := by
  induction fuel generalizing building name l with
  | zero => cases h
  | succ fuel ih =>
    rw [layoutWithin] at h
    split at h
    · cases h
    · obtain ⟨t, ht, h⟩ := exists_of_bind_ok h
      obtain ⟨own, hown, h⟩ := exists_of_bind_ok h
      split at h
      · rename_i hmerge
        cases h
        exact .top ht hown hmerge
      · rename_i hmerge
        obtain ⟨parent, hparent, h⟩ := exists_of_bind_ok h
        obtain ⟨key, hkey, h⟩ := exists_of_bind_ok h
        cases h
        exact .merged ht hown hmerge (ih hparent) hkey

/-- The tables in `building` are under construction because one of them is merged into the next, and
the last into the named one: none is there twice, and those that have layouts lie below it. -/
structure Pending (c : Catalog) (building : List String) (name : String) : Prop
    extends c.Distinct building where
  below : ∀ other l, Text.lower other ∈ building → c.LaysOut other l →
    ∃ parent, c.LaysOut name parent ∧ parent.ancestors.length < l.ancestors.length

namespace Pending

theorem nil (c : Catalog) (name : String) : c.Pending [] name :=
  ⟨.nil c, fun _ _ h => (nomatch h)⟩

theorem not_mem (h : c.Pending building name) {l : Layout} (hl : c.LaysOut name l) : Text.lower name ∉ building := by
  intro hmem
  obtain ⟨l', hl', hlt⟩ := h.below name l hmem hl
  cases hl.unique hl'
  exact Nat.lt_irrefl _ hlt

theorem cons (h : c.Pending building name) (hfree : Text.lower name ∉ building) (ht : c.table name = .ok t)
    {above : String} (hmerge : t.properties.mergeInto = some above) :
    c.Pending (Text.lower name :: building) above := by
  refine ⟨h.toDistinct.cons hfree ht, fun other l hother hl => ?_⟩
  obtain ⟨l', hl', hle⟩ : ∃ l', c.LaysOut name l' ∧ l'.ancestors.length ≤ l.ancestors.length := by
    rcases mem_cons.mp hother with hsame | hother
    · exact ⟨l, hl.of_lower hsame, le_rfl⟩
    · obtain ⟨l', hl', hlt⟩ := h.below other l hother hl
      exact ⟨l', hl', hlt.le⟩
  obtain ⟨parent, hparent, hancestors⟩ := hl'.exists_parent ht hmerge
  refine ⟨parent, hparent, ?_⟩
  have hchain : l'.ancestors.length = parent.ancestors.length + 1 := by
    rw [hancestors, chain, length_cons]
  omega

theorem exists_fuel (h : c.Pending building name) (hfuel : c.entries.length < fuel + building.length) :
    ∃ n, fuel = n + 1 := by
  have hle := h.toDistinct.length_le
  exact Nat.exists_eq_succ_of_ne_zero (by omega)

end Pending

theorem layoutWithin_of_laysOut (hl : c.LaysOut name l) (hpending : c.Pending building name)
    (hfuel : c.entries.length < fuel + building.length) : c.layoutWithin fuel building name = .ok l := by
  induction hl generalizing fuel building with
  | top ht hown hmerge =>
    obtain ⟨fuel, rfl⟩ := hpending.exists_fuel hfuel
    rw [layoutWithin, if_neg (by simpa using hpending.not_mem (.top ht hown hmerge)), ht]
    simp only [bind, Except.bind, hown, hmerge, placeBelow]
  | @merged name _ _ _ _ _ ht hown hmerge hparent hkey ih =>
    obtain ⟨fuel, rfl⟩ := hpending.exists_fuel hfuel
    have hfree := hpending.not_mem (.merged ht hown hmerge hparent hkey)
    have hsteps : c.entries.length < fuel + (Text.lower name :: building).length := by
      rw [length_cons]
      omega
    have hbuilt := ih (hpending.cons hfree ht hmerge) hsteps
    rw [layoutWithin, if_neg (by simpa using hfree), ht]
    simp only [bind, Except.bind, hown, hmerge, hbuilt, placeBelow, hkey]
    rfl

theorem layout_eq_ok_iff : c.layout name = .ok l ↔ c.LaysOut name l :=
  ⟨laysOut_of_layoutWithin, fun h => layoutWithin_of_laysOut h (.nil c name) (Nat.lt_succ_self _)⟩

theorem mem_hops_of_mergeKey? {key : Link} (h : l.mergeKey? = some key) : ⟨.merge, key⟩ ∈ l.hops :=
  mem_map.mpr ⟨key, mem_filterMap.mpr ⟨l.toTableLayout, by simp [chain], h⟩, rfl⟩

namespace LaysOut

theorem hops_of_top (h : c.LaysOut name l) (ht : c.table name = .ok t) (hmerge : t.properties.mergeInto = none) :
    l.hops = [] ∧ l.collection = l.table := by
  obtain ⟨hancestors, hrole⟩ := h.role_of_top ht hmerge
  have hkey : l.mergeKey? = none := by
    rw [TableLayout.mergeKey?, hrole]
    cases t.properties.isEmbeddable <;> rfl
  rw [hops, collection, chain, hancestors]
  simp [hkey]

theorem hops_of_embeddable (h : c.LaysOut name l) (hembeddable : l.isEmbeddable) :
    l.hops = [] ∧ l.collection = l.table := by
  cases h with
  | top ht hown hmerge => exact (LaysOut.top ht hown hmerge).hops_of_top ht hmerge
  | merged _ _ _ _ _ => cases hembeddable

theorem hops_merged {parent : Layout} : ({ own with role := .merged key, ancestors := parent.chain } : Layout).hops =
      parent.hops ++ [⟨.merge, key⟩] := by
  rw [hops, chain, reverse_cons, filterMap_append, map_append]
  rfl

theorem collection_merged {parent : Layout} :
    ({ own with role := .merged key, ancestors := parent.chain } : Layout).collection =
      parent.collection := by
  rw [collection, collection, chain, chain, getLast?_cons_cons, getLast?_cons]
  rfl

theorem of_mem_hops (h : c.LaysOut name l) {hop : Hop} (hhop : hop ∈ l.hops) :
    hop.kind = .merge ∧ ∃ t ∈ c.tables, t.name = hop.field := by
  induction h with
  | top ht hown hmerge =>
    rw [((LaysOut.top ht hown hmerge).hops_of_top ht hmerge).1] at hhop
    cases hhop
  | @merged _ _ t _ _ _ ht _ _ _ hkey ih =>
    rw [hops_merged] at hhop
    rcases mem_append.mp hhop with hhop | hhop
    · exact ih hhop
    · rw [mem_singleton.mp hhop]
      exact ⟨rfl, t, mem_tables_of_table ht, (mergeKey_ok hkey).2.symm⟩

theorem table_eq (h : c.LaysOut name l) : l.table = ((l.hops.map Hop.field).getLast?).getD l.collection := by
  cases h with
  | top ht hown hmerge =>
    obtain ⟨hhops, hcollection⟩ := (LaysOut.top ht hown hmerge).hops_of_top ht hmerge
    rw [hhops, hcollection]
    rfl
  | merged _ hown _ _ hkey =>
    rw [hops_merged, map_append, map_singleton, getLast?_concat]
    exact (outline_ok hown).1.table.trans (mergeKey_ok hkey).2.symm

theorem exists_of_hops_append (h : c.LaysOut name l) {hops : List Hop} {hop : Hop} (hhops : l.hops = hops ++ [hop]) :
    ∃ above parent, c.LaysOut above parent ∧ parent.hops = hops ∧ parent.collection = l.collection := by
  cases h with
  | top ht hown hmerge =>
    rw [((LaysOut.top ht hown hmerge).hops_of_top ht hmerge).1] at hhops
    cases (append_eq_nil_iff.mp hhops.symm).2
  | merged _ _ _ hparent _ =>
    rw [hops_merged] at hhops
    exact ⟨_, _, hparent, (append_inj' hhops rfl).1, collection_merged.symm⟩

theorem collection_mem (h : c.LaysOut name l) : ∃ t ∈ c.tables, t.name = l.collection := by
  induction h with
  | @top _ t _ ht hown hmerge =>
    have hout := LaysOut.top ht hown hmerge
    exact ⟨t, mem_tables_of_table ht, (hout.outlines ht).table.symm.trans (hout.hops_of_top ht hmerge).2.symm⟩
  | merged _ _ _ _ _ ih => rwa [collection_merged]

end LaysOut

theorem exists_outlines (h : c.layout name = .ok l) : ∃ t, c.table name = .ok t ∧ c.Outlines t l.toTableLayout := by
  have hout := layout_eq_ok_iff.mp h
  obtain ⟨t, ht⟩ := hout.exists_table
  exact ⟨t, ht, hout.outlines ht⟩

theorem layout_table (h : c.layout name = .ok l) : ∃ t, c.table name = .ok t ∧ l.table = t.name := by
  obtain ⟨t, ht, hown⟩ := exists_outlines h
  exact ⟨t, ht, hown.table⟩

theorem layout_of_lower {a b : String} (hab : Text.lower a = Text.lower b) (h : c.layout a = .ok l) :
    c.layout b = .ok l :=
  layout_eq_ok_iff.mpr ((layout_eq_ok_iff.mp h).of_lower hab)

theorem layout_layout_table (hc : c.WellKeyed) (h : c.layout name = .ok l) : c.layout l.table = .ok l := by
  obtain ⟨t, ht, hname⟩ := layout_table h
  exact layout_of_lower ((lower_of_table hc ht).trans (congrArg _ hname.symm)) h

end Pushdown.Catalog
