import Pushdown.Proofs.CopyLinks
import Pushdown.Proofs.InsertedRows

/-!
# Keys and the references to them

`reference_keys_agree`: a row of an embeddable table is stored under its key, a row that refers to it fetches a copy
by that key (`copyFetch_ok`), and when it changes, the copies are found by the columns that refer to it
(`mem_keyPaths_zip`).
-/

namespace Pushdown

open List Attempt ColumnValues Catalog Text

namespace Text

theorem same_iff {a b : String} : same a b ↔ a.toList.map Char.toLower = b.toList.map Char.toLower := by
  rw [same, beq_iff_eq]

theorem apart_iff_nodup {names : List String} :
    Apart names ↔ (names.map fun s => s.toList.map Char.toLower).Nodup := by
  rw [Apart, List.Nodup, pairwise_map]
  simp only [same_iff, ne_eq]

end Text

variable {column name referenced : String} {parts : List Bson} {row : ColumnValues}

namespace Catalog

variable {names key : List String}

/-- Names that are apart and as many as those of a key, all of which it has, are those of the key in
another order. -/
theorem perm_of_sameColumns (hapart : Text.Apart names) (h : sameColumns names key) :
    (names.map fun s => s.toList.map Char.toLower).Perm (key.map fun s => s.toList.map Char.toLower) := by
  rw [sameColumns, Bool.and_eq_true, beq_iff_eq, List.all_eq_true] at h
  obtain ⟨hlen, hall⟩ := h
  have hsubset : (names.map fun s => s.toList.map Char.toLower) ⊆
      key.map fun s => s.toList.map Char.toLower := by
    intro s hs
    obtain ⟨name, hname, rfl⟩ := mem_map.mp hs
    obtain ⟨k, hk, hsame⟩ := any_eq_true.mp (hall name hname)
    exact mem_map.mpr ⟨k, hk, same_iff.mp hsame⟩
  refine (List.Nodup.subperm (apart_iff_nodup.mp hapart) hsubset).perm_of_length_le ?_
  simp [hlen]

theorem apart_of_sameColumns (hapart : Text.Apart names) (h : sameColumns names key) : Text.Apart key :=
  apart_iff_nodup.mpr ((perm_of_sameColumns hapart h).nodup_iff.mp (apart_iff_nodup.mp hapart))

theorem find_partner {α : Type} {names : List String} {others : List α} (hapart : Text.Apart names) {other : α}
    (hmem : (name, other) ∈ names.zip others) (hsame : Text.same name column) :
    (names.findIdx? (Text.same · column)).bind (others[·]?) = some other := by
  induction names generalizing others with
  | nil => cases hmem
  | cons first names ih =>
    cases others with
    | nil => cases hmem
    | cons o others =>
      obtain ⟨hfirst, hrest⟩ := pairwise_cons.mp hapart
      rcases mem_cons.mp hmem with heq | hmem
      · cases heq
        simp [findIdx?_cons, hsame]
      · have hother : ¬Text.same first column := fun hcolumn =>
          hfirst name (of_mem_zip hmem).1 (same_trans hcolumn (by rwa [same_comm]))
        rw [findIdx?_cons, if_neg hother, Option.bind_map]
        exact ih hrest hmem

end Catalog

/-- A row refers to another: the columns of the link hold the values that the columns have to which
they refer. -/
def ColumnValues.RefersTo (referring : ColumnValues) (d : Link) (row : ColumnValues) : Prop :=
  ∀ pair ∈ d.columns.zip d.referencedColumns, referring.value? pair.1 = row.value? pair.2

/-- A link whose foreign key refers to every column of a key, once. -/
structure Link.Covers (d : Link) (key : List String) : Prop where
  length : d.columns.length = d.referencedColumns.length
  apart : Text.Apart d.referencedColumns
  same : Catalog.sameColumns d.referencedColumns key

namespace Link.Covers

variable {d : Link} {key : List String} {k : String}

theorem pairs (h : d.Covers key) :
    List.Forall₂ (fun column referenced => (column, referenced) ∈ d.columns.zip d.referencedColumns)
      d.columns d.referencedColumns :=
  forall₂_iff_zip.mpr ⟨h.length, id⟩

theorem exists_column (h : d.Covers key) (hk : k ∈ key) :
    ∃ column referenced, (column, referenced) ∈ d.columns.zip d.referencedColumns ∧ Text.same referenced k := by
  obtain ⟨referenced, hreferenced, heq⟩ :=
    mem_map.mp ((perm_of_sameColumns h.apart h.same).mem_iff.mpr (mem_map_of_mem hk))
  obtain ⟨column, hmem, -⟩ := exists_left_of_forall₂ h.pairs hreferenced
  exact ⟨column, referenced, hmem, same_iff.mpr heq⟩

theorem exists_key (h : d.Covers key) (hmem : (column, referenced) ∈ d.columns.zip d.referencedColumns) :
    ∃ k ∈ key, Text.same referenced k := by
  have hsame := h.same
  rw [sameColumns, Bool.and_eq_true, List.all_eq_true] at hsame
  obtain ⟨k, hk, hkey⟩ := any_eq_true.mp (hsame.2 referenced (of_mem_zip hmem).2)
  exact ⟨k, hk, by rwa [same_comm]⟩

end Link.Covers

theorem mem_zip_swap {α β : Type} {l : List α} {bs : List β} {a : α} {b : β} (h : (a, b) ∈ l.zip bs) :
    (b, a) ∈ bs.zip l := by
  rw [← zip_swap]
  exact mem_map.mpr ⟨(a, b), h, rfl⟩

namespace WriteContext

variable {σ : Type} {c : WriteContext σ} {d : Link} {held holder : Layout} {referring : ColumnValues} {s s' : σ}

theorem exists_referring (hcovers : d.Covers held.primaryKey) (hrefers : referring.RefersTo d row)
    (hrow : row.Stores held.primaryKey parts) : ∃ vs, d.columns.mapM referring.value? = some vs := by
  cases hvs : d.columns.mapM referring.value? with
  | some vs => exact ⟨vs, rfl⟩
  | none =>
    obtain ⟨column, hcolumn, hnone⟩ := exists_of_mapM_value?_eq_none hvs
    obtain ⟨referenced, hmem, -⟩ := exists_right_of_forall₂ hcovers.pairs hcolumn
    obtain ⟨k, hk, hsame⟩ := hcovers.exists_key hmem
    obtain ⟨_, -, v, hv, -⟩ := exists_right_of_forall₂ hrow hk
    rw [hrefers _ hmem, value?_congr hsame, hv] at hnone
    cases hnone

theorem referringValue_eq (hcovers : d.Covers held.primaryKey) (hrefers : referring.RefersTo d row)
    {vs : List Value} (hvs : d.columns.mapM referring.value? = some vs) {k : String} {v : Value}
    (hk : k ∈ held.primaryKey) (hv : row.value? k = some v) : referringValue d vs k = .ok v := by
  obtain ⟨column, referenced, hmem, hsame⟩ := hcovers.exists_column hk
  have hcolumn := hrefers _ hmem
  have hself : List.Forall₂ (· = ·) d.referencedColumns d.referencedColumns := forall₂_refl _
  obtain ⟨w, _, hpair, hw, rfl⟩ := exists_zip_of_forall₂ (mapM_value?_eq_some.mp hvs) hself hmem
  rw [value?_congr hsame, hv, hw] at hcolumn
  cases hcolumn
  rw [referringValue, find_partner hcovers.apart (mem_zip_swap hpair) hsame]

def fetchByKey (d : Link) (held : Layout) (key : Bson) : CopyFetch where
  field := d.child
  source := some (held.collection, [("_id", key)])

theorem copyFetch_gives (hheld : c.catalog.layout d.child = .ok held)
    (hcovers : d.Covers held.primaryKey) (hrefers : referring.RefersTo d row)
    (hplain : ∀ k ∈ held.primaryKey, ∀ v, row.value? k = some v → v.isPlain)
    (hrow : row.Stores held.primaryKey parts) :
    (c.copyFetch referring d).Gives (.ok (some (fetchByKey d held (keyOfParts held.primaryKey parts)))) := by
  obtain ⟨vs, hvs⟩ := exists_referring hcovers hrefers hrow
  have hlayout : (c.layout d.child).Gives (.ok held) := by
    rw [layout, hheld]
    exact .ofExcept _
  have hparts : List.Forall₂ (fun k b => Attempt.Gives (do
      c.store (← Attempt.ofExcept (referringValue d vs k))) (.ok b)) held.primaryKey parts := by
    refine forall₂_iff_zip.mpr ⟨hrow.length_eq, fun {k b} hmem => ?_⟩
    obtain ⟨v, hv, hb⟩ := forall₂_zip hrow hmem
    have hk := (of_mem_zip hmem).1
    rw [referringValue_eq hcovers hrefers hvs hk hv]
    exact (Attempt.Gives.ofExcept _).bind ((Value.gives_of_stored? (hplain k hk v hv) hb).failingAs _)
  rw [copyFetch, hvs]
  exact hlayout.bind ((Attempt.Gives.mapM hparts).bind (.pure _))

/-- A reference that is not complete is not followed. Otherwise the fetch is by the values of the columns
that refer to those of the key. -/
theorem copyFetch_ok {found : Option CopyFetch} (h : c.copyFetch referring d s = (.ok found, s')) :
    (found = none ∧ ∃ column ∈ d.columns, referring.value? column = none) ∨
      ∃ vs held parts, d.columns.mapM referring.value? = some vs ∧
        c.catalog.layout d.child = .ok held ∧
        List.Forall₂ (fun k b => ∃ v s₁ s₂, referringValue d vs k = .ok v ∧
          c.store v s₁ = (.ok b, s₂)) held.primaryKey parts ∧
        found = some (fetchByKey d held (keyOfParts held.primaryKey parts)) := by
  rw [copyFetch] at h
  cases hvs : d.columns.mapM referring.value? with
  | none =>
    rw [hvs] at h
    exact .inl ⟨(pure_ok h).1.symm, exists_of_mapM_value?_eq_none hvs⟩
  | some vs =>
    rw [hvs] at h
    obtain ⟨held, _, hheld, h⟩ := bind_ok h
    obtain ⟨parts, _, hparts, h⟩ := bind_ok h
    refine .inr ⟨vs, held, parts, rfl, (layout_ok hheld).1, (forall₂_of_mapM hparts).imp ?_, (pure_ok h).1.symm⟩
    rintro k b ⟨s₁, s₂, hb⟩
    obtain ⟨v, s₃, hv, hb⟩ := bind_ok hb
    exact ⟨v, s₃, s₂, (ofExcept_ok hv).1, hb⟩

variable {fetch : CopyFetch}

theorem field_of_copyFetch (h : c.copyFetch referring d s = (.ok (some fetch), s')) : fetch.field = d.child := by
  obtain ⟨hnone, -⟩ | ⟨_, _, _, -, -, -, hsome⟩ := copyFetch_ok h
  · cases hnone
  · cases hsome
    rfl

theorem mem_copyFetches_iff (hd : d ∈ holder.embeddedKeys)
    (hlinks : ∀ d' ∈ holder.embeddedKeys, d'.child = d.child → d' = d)
    (hfetch : (c.copyFetch referring d).Gives (.ok (some fetch))) {fetches : List CopyFetch}
    (h : c.copyFetches holder referring s = (.ok fetches, s')) {f : CopyFetch} :
    f ∈ fetches ∧ f.field = d.child ↔ f = fetch := by
  obtain ⟨found, hfound, rfl⟩ := bind_pure_ok h
  have hfound := forall₂_of_mapM hfound
  simp only [mem_filterMap, id_eq, exists_eq_right]
  constructor
  · rintro ⟨hf, hfield⟩
    obtain ⟨d', hmem, s₁, s₂, hd'⟩ := exists_left_of_forall₂ hfound hf
    cases hlinks d' (of_mem_zip hmem).1 ((field_of_copyFetch hd').symm.trans hfield)
    rw [hfetch s₁] at hd'
    cases hd'
    rfl
  · rintro rfl
    obtain ⟨found', hmem, s₁, s₂, hd'⟩ := exists_right_of_forall₂ hfound hd
    have hfield := hd'
    rw [hfetch s₁] at hd'
    cases hd'
    exact ⟨(of_mem_zip hmem).2, field_of_copyFetch hfield⟩

end WriteContext

theorem ColumnValues.Stores.keyParts_keyOfParts {key : List String} (h : row.Stores key parts) (hne : key ≠ []) :
    keyParts (keyOfParts key parts) key = .ok parts := by
  by_cases hone : key.length = 1
  · obtain ⟨k, rfl⟩ := length_eq_one_iff.mp hone
    obtain ⟨b, rfl⟩ := length_eq_one_iff.mp (h.length_eq ▸ hone)
    rfl
  · match key, hne, hone with
    | k₁ :: k₂ :: rest, _, hone =>
      rw [keyOfParts_of_length_ne (h.length_eq ▸ hone), keyParts, if_pos (by simp)]
      · refine mapM_ok_iff.mpr (forall₂_iff_zip.mpr ⟨h.length_eq, fun {k b} hmem => ?_⟩)
        rw [Document.get?_ofFields_of_mem hmem fun b' hb' => h.eq_of_mem hb' hmem]
      · simp

namespace Catalog

variable {c : Catalog} {d : Link} {held holder : Layout} {change : CopyChange} {patch : CopyPatch}

theorem embedded_apart (hholder : c.layout name = .ok holder) :
    holder.embeddedKeys.Pairwise fun k k' => k.child ≠ k'.child := by
  obtain ⟨_, _, hown⟩ := exists_outlines hholder
  exact hown.embedsFor.apart.imp fun hne hchild => hne (by rw [hchild, same_refl])

theorem referringLocation_ok {top k : String} {hops : List Hop} {location : Location}
    (h : c.referringLocation held d top hops k = .ok location) :
    ∃ column, counterpart? d.referencedColumns d.columns k = some column ∧
      c.locate top hops column = .ok location := by
  rw [referringLocation] at h
  cases hcolumn : counterpart? d.referencedColumns d.columns k with
  | none => rw [hcolumn] at h; cases h
  | some column =>
    rw [hcolumn] at h
    obtain ⟨found, hfound, h⟩ := exists_of_bind_ok h
    refine ⟨column, rfl, (ok_of_mapError hfound).trans ?_⟩
    split at h
    · split at h
      · cases h
      · cases h; rfl
    · cases h; rfl

section

variable (hholder : c.layout d.parent = .ok holder) (h : c.copyPatch held change d = .ok patch)

include hholder h

theorem copyPatch_keyPaths :
    ∃ locations, patch.keyPaths = locations.map (·.path holder.hops) ∧
      List.Forall₂ (fun k location => ∃ column,
        counterpart? d.referencedColumns d.columns k = some column ∧
          c.locate holder.collection holder.hops column = .ok location) held.primaryKey locations := by
  rw [copyPatch, hholder] at h
  obtain ⟨_, heq, h⟩ := exists_of_bind_ok h
  cases heq
  extract_lets hops array at h
  obtain ⟨locations, hlocations, h⟩ := exists_of_bind_ok h
  cases h
  exact ⟨locations, rfl, (mapM_ok_iff.mp hlocations).imp fun _ _ => referringLocation_ok⟩

/-- A patch looks for the value of each column of the key where the column lies that refers to it. -/
theorem mem_keyPaths_zip (hcovers : d.Covers held.primaryKey) (hrow : row.Stores held.primaryKey parts)
    (hmem : (column, referenced) ∈ d.columns.zip d.referencedColumns) :
    ∃ location v b, c.locate holder.collection holder.hops column = .ok location ∧
      row.value? referenced = some v ∧ v.stored? = some b ∧
      (location.path holder.hops, b) ∈ patch.keyPaths.zip parts := by
  obtain ⟨locations, hpaths, hlocations⟩ := copyPatch_keyPaths hholder h
  obtain ⟨k, hk, hsame⟩ := hcovers.exists_key hmem
  obtain ⟨b, hkb, v, hv, hb⟩ := exists_right_of_forall₂ hrow hk
  have hself : List.Forall₂ (· = ·) parts parts := forall₂_refl _
  obtain ⟨location, _, hpair, ⟨column', hcolumn', hlocate⟩, rfl⟩ := exists_zip_of_forall₂ hlocations hself hkb
  cases hcolumn'.symm.trans (find_partner hcovers.apart (mem_zip_swap hmem) hsame)
  refine ⟨location, v, b, hlocate, (value?_congr hsame).trans hv, hb, ?_⟩
  rw [hpaths, zip_map_left]
  exact mem_map.mpr ⟨(location, b), hpair, rfl⟩

end

theorem nodup_keyPaths (hplain : c.PlainColumns) (hrefs : c.ReferencesApart)
    (hholder : c.layout d.parent = .ok holder) (hclear : ∀ hop ∈ holder.hops, hop.Clear)
    (h : c.copyPatch held change d = .ok patch) (hcovers : d.Covers held.primaryKey)
    (hcolumns : Text.Apart d.columns) : patch.keyPaths.Nodup := by
  obtain ⟨locations, hpaths, hlocations⟩ := copyPatch_keyPaths hholder h
  rw [hpaths]
  refine pairwise_map.mpr (pairwise_of_forall₂ hlocations (apart_of_sameColumns hcovers.apart hcovers.same) ?_)
  rintro k location k' location' ⟨column, hcolumn, hlocate⟩ ⟨column', hcolumn', hlocate'⟩ hkk'
  exact (layout_eq_ok_iff.mp hholder).path_ne hplain hrefs hclear
    (counterpart?_apart hcolumns hkk' hcolumn hcolumn') hlocate hlocate'

end Catalog

namespace WriteContext

variable {σ : Type} {c : WriteContext σ}

theorem covers_of_mem_copyTargets {held : Layout} (hheld : c.catalog.LaysOut name held) {d : Link}
    (hd : d ∈ held.copyTargets) (hapart : Text.Apart d.referencedColumns) : d.Covers held.primaryKey := by
  obtain ⟨t, ht⟩ := hheld.exists_table
  have hout := hheld.outlines ht
  obtain ⟨other, -, fk, -, ref, -, -, href, hcolumns, rfl⟩ := hout.mem_copyTargets.mp hd
  exact ⟨length_of_reference href, hapart, hout.primaryKey ▸ hcolumns⟩

theorem link_of_mem_copyTargets (hc : c.catalog.Indexed) {held holder : Layout}
    (hheld : c.catalog.layout name = .ok held) {d : Link} (hd : d ∈ held.copyTargets)
    (hholder : c.catalog.layout d.parent = .ok holder) :
    d ∈ holder.embeddedKeys ∧ (∀ d' ∈ holder.embeddedKeys, d'.child = d.child → d' = d) ∧
      c.catalog.layout d.child = .ok held ∧ held.idColumns = held.primaryKey := by
  have hout := layout_eq_ok_iff.mp hheld
  obtain ⟨t, ht⟩ := hout.exists_table
  have hown := hout.outlines ht
  obtain ⟨other, hother, -, -, ref, -, -, -, -, rfl⟩ := hown.mem_copyTargets.mp hd
  have houtlines := (layout_eq_ok_iff.mp hholder).outlines (hc.table_of_mem hother)
  have hlink := ((houtlines.mem_copyTargets_iff hc hother (mem_tables_of_table ht) hown).mp ⟨hd, rfl⟩).1
  refine ⟨hlink, fun d' hd' hchild => houtlines.eq_of_child hd' hlink hchild, ?_, ?_⟩
  · have hlayout := layout_layout_table hc.keyed hheld
    rwa [hown.table] at hlayout
  · cases hembeddable : t.properties.isEmbeddable with
    | false =>
      rw [hown.noCopies hembeddable] at hd
      cases hd
    | true => exact hout.idColumns_of_top ht (hown.exclusive hembeddable)

/-- The key of a row of an embeddable table, the fetch of a copy of the row and the filter that finds the copies of
it agree. The row is stored under its key unless a column is stored under the name of the key, and the filter has
the value of every column unless two of them lie under one path. -/
theorem reference_keys_agree (hc : c.catalog.Indexed) {name : String} {held holder : Layout}
    (hheld : c.catalog.layout name = .ok held) {d : Link} (hd : d ∈ held.copyTargets)
    (hholder : c.catalog.layout d.parent = .ok holder) (hkey : held.primaryKey ≠ [])
    (hcolumns : Text.Apart d.columns) (hreferenced : Text.Apart d.referencedColumns)
    {referring row : ColumnValues} (hrefers : referring.RefersTo d row) {parts : List Bson}
    (hplain : ∀ k ∈ held.primaryKey, ∀ v, row.value? k = some v → v.isPlain)
    (hrow : row.Stores held.primaryKey parts) :
    -- the copy is fetched by the key under which the row is stored
    (∀ s fetches s', c.copyFetches holder referring s = (.ok fetches, s') → ∀ f,
      f ∈ fetches ∧ f.field = d.child ↔
        f = fetchByKey d held (keyOfParts held.primaryKey parts)) ∧
    (c.copyFetch referring d).Gives
      (.ok (some (fetchByKey d held (keyOfParts held.primaryKey parts)))) ∧
    ((∀ v ∈ row, hasOwnField held v → v.2.isPlain ∧ ∃ b, v.2.stored? = some b) →
      ∃ doc, (c.rowDocument held row).Gives (.ok doc)) ∧
    (∀ s doc s', c.rowDocument held row s = (.ok doc, s') →
      (∀ v ∈ row, hasOwnField held v → v.1 ≠ "_id") →
      doc.get? "_id" = some (keyOfParts held.primaryKey parts)) ∧
    -- its parts are found in it again
    keyParts (keyOfParts held.primaryKey parts) held.primaryKey = .ok parts ∧
    -- and the copies are looked for by the parts, each at the column that refers to it
    ∀ change patch, c.catalog.copyPatch held change d = .ok patch →
      (c.catalog.PlainColumns → c.catalog.ReferencesApart → (∀ hop ∈ holder.hops, hop.Clear) →
        patch.keyPaths.Nodup) ∧
      ∃ request, patch.mutation parts = .update request ∧
        ∀ column referenced, (column, referenced) ∈ d.columns.zip d.referencedColumns →
          ∃ location v b, c.catalog.locate holder.collection holder.hops column = .ok location ∧
            row.value? referenced = some v ∧ v.stored? = some b ∧
            (patch.keyPaths.Nodup → request.filter.get? (location.path holder.hops) = some b) := by
  have hout := Catalog.layout_eq_ok_iff.mp hheld
  have hcovers := covers_of_mem_copyTargets hout hd hreferenced
  obtain ⟨hlink, hlinks, hchild, hids⟩ := link_of_mem_copyTargets hc hheld hd hholder
  have hfetch := copyFetch_gives hchild hcovers hrefers hplain hrow
  have hid : (c.rowId held row).Gives (.ok (some (keyOfParts held.primaryKey parts))) := by
    rw [← hids] at hkey hplain hrow ⊢
    exact rowId_gives hkey hplain hrow
  refine ⟨fun s fetches s' h f => mem_copyFetches_iff hlink hlinks hfetch h, hfetch,
    rowDocument_gives hid, fun s doc s' hdoc hnames => ?_, hrow.keyParts_keyOfParts hkey,
    fun change patch hpatch => ⟨fun hnames hrefs hclear => ?_, _, rfl, fun column referenced hmem => ?_⟩⟩
  · obtain ⟨id, s₁, hrowId, hget⟩ := get?_id_rowDocument hnames hdoc
    rw [hid s] at hrowId
    cases hrowId
    exact hget
  · exact Catalog.nodup_keyPaths hnames hrefs hholder hclear hpatch hcovers hcolumns
  · obtain ⟨location, v, b, hlocate, hv, hb, hpair⟩ :=
      Catalog.mem_keyPaths_zip hholder hpatch hcovers hrow hmem
    refine ⟨location, v, b, hlocate, hv, hb, fun hnodup =>
      Document.get?_ofFields_of_nodup hpair ?_⟩
    obtain ⟨locations, hpaths, hlocations⟩ := Catalog.copyPatch_keyPaths hholder hpatch
    have hlen : patch.keyPaths.length = parts.length := by
        rw [hpaths, length_map, ← hlocations.length_eq, hrow.length_eq]
    rwa [map_fst_zip hlen.le]

/-- Orders with lines, each with a copy of a part that it names by its number and region. -/
def supply : WriteContext Unit where
  catalog := .ofTables
    [{ name := "part"
       columns := [⟨"region", .string, false⟩, ⟨"no", .integer, false⟩, ⟨"name", .string, false⟩]
       primaryKey := ["region", "no"], properties := { embeddable := true } },
     { name := "orders", columns := [⟨"id", .integer, false⟩], primaryKey := ["id"] },
     { name := "line"
       columns := [⟨"id", .integer, false⟩, ⟨"order_id", .integer, false⟩, ⟨"part_no", .integer, false⟩,
         ⟨"part_region", .string, false⟩]
       primaryKey := ["id"]
       foreignKeys := [⟨"line_orders", ["order_id"], "orders", ["id"]⟩,
         ⟨"line_part", ["part_no", "part_region"], "part", ["no", "region"]⟩]
       properties := { mergeInto := some "orders" } }]
  objects := .unavailable

def partLink : Link :=
  { name := "line_part", parent := "line", child := "part", columns := ["part_no", "part_region"]
    referencedColumns := ["no", "region"], association := .one }

def partLayout : Layout where
  table := "part"
  primaryKey := ["region", "no"]
  role := .embeddable
  copyTargets := [partLink]

def lineLayout : Layout where
  table := "line"
  primaryKey := ["id"]
  role := .merged
    { name := "line_orders", parent := "orders", child := "line", columns := ["order_id"]
      referencedColumns := ["id"], association := .many }
  embeddedKeys := [partLink]
  references := [⟨"line_orders", "line", ["order_id"], "orders", ["id"]⟩,
    ⟨"line_part", "line", ["part_no", "part_region"], "part", ["no", "region"]⟩]
  ancestors :=
    [{ table := "orders", primaryKey := ["id"], role := .root, mergedChildren := ["line"] }]

def bolt : ColumnValues := [("no", .integer 7), ("name", .string "bolt"), ("region", .string "EU")]

def boltLine : ColumnValues :=
  [("id", .integer 1), ("order_id", .integer 2), ("part_no", .integer 7), ("part_region", .string "EU")]

def boltKey : Bson := .document [("region", .string "EU"), ("no", .int32 7)]

def partPatch : CopyPatch where
  collection := "orders"
  keyPaths := ["line.part_region", "line.part_no"]
  copyPath := "line.$[c].part"
  arrayFilter := some ("c", ["part_region", "part_no"])
  change := .unset

/-- The key of a part is the same, whichever of its columns a line names first. -/
theorem reference_keys_agree_bolt :
    supply.catalog.Indexed ∧ supply.catalog.layout "part" = .ok partLayout ∧
      partLink ∈ partLayout.copyTargets ∧ supply.catalog.layout partLink.parent = .ok lineLayout ∧
      partLayout.primaryKey ≠ [] ∧ Text.Apart partLink.columns ∧
      Text.Apart partLink.referencedColumns ∧ boltLine.RefersTo partLink bolt ∧
      (∀ k ∈ partLayout.primaryKey, ∀ v, bolt.value? k = some v → v.isPlain) ∧
      bolt.Stores partLayout.primaryKey [.string "EU", .int32 7] ∧
      (supply.copyFetch boltLine partLink).Gives (.ok (some (fetchByKey partLink partLayout boltKey))) ∧
      (∃ doc, (supply.rowDocument partLayout bolt).Gives (.ok doc) ∧ doc.get? "_id" = some boltKey) ∧
      keyParts boltKey ["region", "no"] = .ok [.string "EU", .int32 7] ∧
      supply.catalog.copyPatch partLayout .unset partLink = .ok partPatch ∧
      ∃ request location, partPatch.mutation [.string "EU", .int32 7] = .update request ∧
        supply.catalog.locate "orders" lineLayout.hops "part_no" = .ok location ∧
        request.filter.get? (location.path lineLayout.hops) = some (.int32 7) := by
  have hc : supply.catalog.Indexed := Catalog.indexed_ofTables _
  have hheld : supply.catalog.layout "part" = .ok partLayout := rfl
  have hd : partLink ∈ partLayout.copyTargets := by decide +kernel
  have hholder : supply.catalog.layout partLink.parent = .ok lineLayout := rfl
  have hcolumns : Text.Apart partLink.columns := by decide +kernel
  have hreferenced : Text.Apart partLink.referencedColumns := by decide +kernel
  have hrefers : boltLine.RefersTo partLink bolt := by
    intro pair hpair
    simp only [partLink, zip_cons_cons, zip_nil_left, mem_cons, not_mem_nil,
      or_false] at hpair
    rcases hpair with rfl | rfl <;> rfl
  have hplain : ∀ k ∈ partLayout.primaryKey, ∀ v, bolt.value? k = some v → v.isPlain := by
    intro k hk v hv
    simp only [partLayout, mem_cons, not_mem_nil, or_false] at hk
    rcases hk with rfl | rfl <;> cases hv <;> rfl
  have hrow : bolt.Stores partLayout.primaryKey [.string "EU", .int32 7] :=
    .cons ⟨.string "EU", rfl, rfl⟩ (.cons ⟨.integer 7, rfl, rfl⟩ .nil)
  have hpatch : supply.catalog.copyPatch partLayout .unset partLink = .ok partPatch := rfl
  obtain ⟨-, hfetch, hstored, hid, hparts, hpatches⟩ :=
    reference_keys_agree hc hheld hd hholder nofun hcolumns hreferenced hrefers hplain hrow
  refine ⟨hc, hheld, hd, hholder, nofun, hcolumns, hreferenced, hrefers, hplain, hrow, hfetch, ?_, hparts,
    hpatch, ?_⟩
  · have hown : ∀ v ∈ bolt, hasOwnField partLayout v → v = ("name", .string "bolt") := by
      intro v hv hfield
      simp only [bolt, mem_cons, not_mem_nil, or_false] at hv
      rcases hv with rfl | rfl | rfl
      · exact absurd hfield (by decide +kernel)
      · rfl
      · exact absurd hfield (by decide +kernel)
    obtain ⟨doc, hdoc⟩ := hstored fun v hv hfield => hown v hv hfield ▸ ⟨rfl, _, rfl⟩
    refine ⟨doc, hdoc, hid () doc () (hdoc ()) fun v hv hfield => ?_⟩
    rw [hown v hv hfield]
    decide
  · obtain ⟨hnodup, request, hrequest, hpairs⟩ := hpatches _ _ hpatch
    obtain ⟨location, v, b, hlocate, hv, hb, hget⟩ := hpairs "part_no" "no" (by decide +kernel)
    cases hv
    cases hb
    refine ⟨request, location, hrequest, hlocate, hget (hnodup ?_ ?_ ?_)⟩ <;> decide +kernel

end WriteContext

end Pushdown
