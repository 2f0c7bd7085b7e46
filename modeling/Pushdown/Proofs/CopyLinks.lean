import Mathlib.Data.List.Pairwise
import Pushdown.Proofs.EmbedSearch
import Pushdown.Proofs.Layouts

/-!
# Both ends of a copy

A table knows the embeddable tables of which its rows hold copies (`EmbedsFor`), and an embeddable table knows the
tables whose rows hold copies of its own (`CopiedFor`). `mem_copyTargets_iff_mem_embeddedKeys`: both are read off
the same foreign keys, as far as these refer to the primary key and spell the name of the table up to the case of
ASCII letters.
-/

namespace Pushdown

open List Text

/-- The link by which rows of `holder` keep copies of the rows of `held` that they refer to. -/
def Reference.copyLink (ref : Reference) (holder held : Table) : Link :=
  { name := ref.name, parent := holder.name, child := held.name, columns := ref.columns
    referencedColumns := ref.referencedColumns, association := .one }

/-- Whether rows of `holder` keep copies of the rows of `held` that they refer to. Rows that lie inside
them already do not. -/
def Table.keepsCopiesOf (holder held : Table) : Bool :=
  held.properties.embedsInto holder.name && !holder.properties.mergesInto held.name

theorem Table.isEmbeddable_of_keepsCopiesOf {holder held : Table} (h : holder.keepsCopiesOf held) :
    held.properties.isEmbeddable := by
  have hembeds := (Bool.and_eq_true_iff.mp h).1
  rw [TableProperties.embedsInto] at hembeds
  rw [TableProperties.isEmbeddable]
  cases hinto : held.properties.embeddableInto with
  | none => simpa [hinto] using hembeds
  | some _ => exact Bool.or_true _

namespace Catalog

variable {c : Catalog} {t : Table} {own : TableLayout} {d : Link} {ref : Reference}
  {key : Table × ForeignKey}

theorem reference_ok {fk : ForeignKey} (h : c.reference t fk = .ok ref) :
    ref.name = fk.name ∧ ∃ target, c.table fk.referencedTable = .ok target ∧ ref.referencedTable = target.name := by
  rw [reference] at h
  obtain ⟨target, htarget, h⟩ := exists_of_bind_ok h
  split at h
  · cases h
  · extract_lets referenced at h
    split at h
    · cases h
      exact ⟨rfl, target, htarget, rfl⟩
    · cases h

variable {copies keys' targets targets' : List Link}

theorem addEmbeddedKey_ok {keys : List Link} (h : c.addEmbeddedKey t copies keys ref = .ok keys') :
    ∃ target, c.table ref.referencedTable = .ok target ∧
      ((t.keepsCopiesOf target = false ∧ keys' = keys) ∨
        (t.keepsCopiesOf target ∧ (∀ k ∈ keys, ¬Text.same k.child target.name) ∧
          c.embedChainReaches target.name t.name = .ok false ∧ keys' = keys ++ [ref.copyLink t target])) := by
  rw [addEmbeddedKey] at h
  obtain ⟨target, htarget, h⟩ := exists_of_bind_ok h
  refine ⟨target, htarget, ?_⟩
  rw [Table.keepsCopiesOf]
  split at h
  · rename_i hnone
    cases h
    exact .inl ⟨by revert hnone; cases target.properties.embedsInto t.name <;> simp, rfl⟩
  · rename_i hkeeps
    split at h
    · cases h
    · rename_i hnew
      split at h
      · cases h
      · obtain ⟨found, hfound, h⟩ := exists_of_bind_ok h
        split at h
        · cases h
        · rename_i hback
          cases h
          refine .inr ⟨by simpa using hkeeps, by simpa using hnew, ?_, rfl⟩
          rw [hfound, Bool.eq_false_iff.mpr hback]

/-- The links to embeddable tables that a table has after some of its references. -/
structure EmbedsFor (c : Catalog) (t : Table) (refs : List Reference) (keys : List Link) : Prop where
  mem_iff : ∀ d, d ∈ keys ↔ ∃ ref ∈ refs, ∃ target, c.table ref.referencedTable = .ok target ∧
    t.keepsCopiesOf target ∧ d = ref.copyLink t target
  apart : keys.Pairwise fun k k' => ¬Text.same k.child k'.child
  noWayBack : ∀ d ∈ keys, c.embedChainReaches d.child t.name = .ok false

theorem EmbedsFor.add {refs : List Reference} {keys : List Link} (hkeys : c.EmbedsFor t refs keys)
    (h : c.addEmbeddedKey t copies keys ref = .ok keys') : c.EmbedsFor t (refs ++ [ref]) keys' := by
  obtain ⟨target, htarget, ⟨hnone, rfl⟩ | ⟨hkeeps, hnew, hback, rfl⟩⟩ := addEmbeddedKey_ok h
  · refine ⟨fun d => ?_, hkeys.apart, hkeys.noWayBack⟩
    rw [hkeys.mem_iff]
    simp only [mem_append, mem_singleton, or_and_right, exists_or, exists_eq_left, htarget]
    simp [hnone]
  · refine ⟨fun d => ?_, ?_, ?_⟩
    · rw [mem_append, hkeys.mem_iff]
      simp only [mem_append, mem_singleton, or_and_right, exists_or, exists_eq_left, htarget]
      simp [hkeeps]
    · refine pairwise_append.mpr ⟨hkeys.apart, pairwise_singleton .., ?_⟩
      intro k hk k' hk'
      rw [mem_singleton.mp hk']
      exact hnew k hk
    · exact forall_mem_append.mpr ⟨hkeys.noWayBack, forall_mem_singleton.mpr hback⟩

theorem Outlines.embedsFor (h : c.Outlines t own) : c.EmbedsFor t own.references own.embeddedKeys :=
  foldlM_ok_induction ⟨by simp, .nil, by simp⟩ (fun _ _ _ _ hkeys hadd => hkeys.add hadd) h.keys

theorem Outlines.mem_embeddedKeys (hc : c.Indexed) (h : c.Outlines t own) :
    d ∈ own.embeddedKeys ↔ ∃ fk ∈ t.foreignKeys, ∃ ref target, c.reference t fk = .ok ref ∧
      c.table fk.referencedTable = .ok target ∧ t.keepsCopiesOf target ∧ d = ref.copyLink t target := by
  rw [h.embedsFor.mem_iff]
  constructor
  · rintro ⟨ref, href, target, htarget, hkeeps, rfl⟩
    obtain ⟨fk, hfk, href⟩ := exists_of_mem_mapM h.references href
    obtain ⟨-, target', htarget', hname⟩ := reference_ok href
    rw [hname, table_name hc.keyed htarget'] at htarget
    cases htarget
    exact ⟨fk, hfk, ref, target, href, htarget', hkeeps, rfl⟩
  · rintro ⟨fk, hfk, ref, target, href, htarget, hkeeps, rfl⟩
    obtain ⟨-, target', htarget', hname⟩ := reference_ok href
    cases htarget.symm.trans htarget'
    refine ⟨ref, ?_, target, ?_, hkeeps, rfl⟩
    · exact mem_of_mapM_ok h.references hfk href
    · rw [hname]
      exact table_name hc.keyed htarget

theorem Outlines.parent_of_mem (h : c.Outlines t own) (hd : d ∈ own.embeddedKeys) : d.parent = t.name := by
  obtain ⟨ref, -, target, -, -, rfl⟩ := (h.embedsFor.mem_iff d).mp hd
  rfl

theorem Outlines.exists_held (hc : c.Indexed) (h : c.Outlines t own) (hd : d ∈ own.embeddedKeys) :
    ∃ held, c.table d.child = .ok held ∧ held.name = d.child ∧ held.properties.isEmbeddable := by
  obtain ⟨_, -, _, held, -, hheld, hkeeps, rfl⟩ := (h.mem_embeddedKeys hc).mp hd
  exact ⟨held, table_name hc.keyed hheld, rfl, Table.isEmbeddable_of_keepsCopiesOf hkeeps⟩

theorem Outlines.keepsCopies_of_mem (hc : c.Indexed) (h : c.Outlines t own) {name : String}
    (ht : c.table name = .ok t) (hd : d ∈ own.embeddedKeys) : c.KeepsCopies name d.child := by
  obtain ⟨fk, hfk, ref, target, -, htarget, hkeeps, rfl⟩ := (h.mem_embeddedKeys hc).mp hd
  exact ⟨t, fk, target, ht, hfk, htarget, (Bool.and_eq_true_iff.mp hkeeps).1, rfl⟩

theorem Outlines.not_same_of_mem (h : c.Outlines t own) (hd : d ∈ own.embeddedKeys) {b : String}
    (hchain : Relation.TransGen c.KeepsCopies d.child b) : ¬Text.same b t.name :=
  not_same_of_embedChainReaches (h.embedsFor.noWayBack d hd) hchain

theorem Outlines.child_ne_of_mem (hc : c.Indexed) (h : c.Outlines t own) (ht : t ∈ c.tables)
    (hd : d ∈ own.embeddedKeys) : d.child ≠ t.name := by
  intro hself
  have hkeeps := h.keepsCopies_of_mem hc (hc.table_of_mem ht) hd
  rw [← hself] at hkeeps
  exact h.not_same_of_mem hd (.single hkeeps) (hself ▸ same_refl _)

theorem Outlines.eq_of_child (h : c.Outlines t own) {d d' : Link} (hd : d ∈ own.embeddedKeys)
    (hd' : d' ∈ own.embeddedKeys) (hchild : d.child = d'.child) : d = d' := by
  by_contra hne
  have : Std.Symm fun k k' : Link => ¬Text.same k.child k'.child := ⟨fun k k' hk hk' => hk (by rwa [same_comm])⟩
  exact h.embedsFor.apart.forall hd hd' hne (hchild ▸ same_refl _)

theorem mem_copyCandidates :
    key ∈ c.copyCandidates t ↔ key.1 ∈ c.tables ∧ ¬Text.same key.1.name t.name ∧
      key.1.keepsCopiesOf t ∧ key.2 ∈ key.1.foreignKeysTo t.name := by
  obtain ⟨other, fk⟩ := key
  simp only [copyCandidates, Table.keepsCopiesOf, mem_flatMap, mem_filter, mem_map,
    Prod.mk.injEq, Bool.and_eq_true, Bool.not_eq_true']
  simp [and_assoc]

theorem addCopyTarget_ok (h : c.addCopyTarget t targets key = .ok targets') :
    ∃ ref, c.reference key.1 key.2 = .ok ref ∧
      targets' = targets ++ if sameColumns ref.referencedColumns t.primaryKey then [ref.copyLink key.1 t] else [] := by
  rw [addCopyTarget] at h
  obtain ⟨ref, href, h⟩ := exists_of_bind_ok h
  refine ⟨ref, href, ?_⟩
  split at h
  · rename_i hother
    cases h
    rw [if_neg (by simpa using hother), append_nil]
  · rename_i hkey
    split at h
    · cases h
    · cases h
      rw [if_pos (by simpa using hkey), Reference.copyLink, (reference_ok href).1]

/-- The links that an embeddable table has after some of the foreign keys that refer to it. -/
def CopiedFor (c : Catalog) (t : Table) (keys : List (Table × ForeignKey)) (targets : List Link) : Prop :=
  ∀ d, d ∈ targets ↔ ∃ key ∈ keys, ∃ ref, c.reference key.1 key.2 = .ok ref ∧
    sameColumns ref.referencedColumns t.primaryKey ∧ d = ref.copyLink key.1 t

theorem CopiedFor.add {keys : List (Table × ForeignKey)} (htargets : c.CopiedFor t keys targets)
    (h : c.addCopyTarget t targets key = .ok targets') : c.CopiedFor t (keys ++ [key]) targets' := by
  intro d
  obtain ⟨ref, href, rfl⟩ := addCopyTarget_ok h
  rw [mem_append, htargets d]
  simp only [mem_append, mem_singleton, or_and_right, exists_or, exists_eq_left, href]
  simp

theorem copiedFor_of_copyTargets (h : c.copyTargets t = .ok targets) : c.CopiedFor t (c.copyCandidates t) targets := by
  rw [copyTargets] at h
  exact foldlM_ok_induction (motive := c.CopiedFor t) (by simp [CopiedFor])
    (fun _ _ _ _ htargets hadd => htargets.add hadd) h

theorem Outlines.mem_copyTargets (h : c.Outlines t own) :
    d ∈ own.copyTargets ↔ ∃ other ∈ c.tables, ∃ fk ∈ other.foreignKeysTo t.name, ∃ ref,
      ¬Text.same other.name t.name ∧ other.keepsCopiesOf t ∧ c.reference other fk = .ok ref ∧
      sameColumns ref.referencedColumns t.primaryKey ∧ d = ref.copyLink other t := by
  cases hembeddable : t.properties.isEmbeddable with
  | true =>
    rw [copiedFor_of_copyTargets (h.copies hembeddable) d]
    constructor
    · rintro ⟨⟨other, fk⟩, hkey, ref, href, hcolumns, rfl⟩
      obtain ⟨hother, hself, hkeeps, hfk⟩ := mem_copyCandidates.mp hkey
      exact ⟨other, hother, fk, hfk, ref, hself, hkeeps, href, hcolumns, rfl⟩
    · rintro ⟨other, hother, fk, hfk, ref, hself, hkeeps, href, hcolumns, rfl⟩
      exact ⟨(other, fk), mem_copyCandidates.mpr ⟨hother, hself, hkeeps, hfk⟩, ref, href, hcolumns, rfl⟩
  | false =>
    rw [h.noCopies hembeddable]
    constructor
    · intro hd
      cases hd
    · rintro ⟨other, -, fk, -, ref, -, hkeeps, -⟩
      rw [Table.isEmbeddable_of_keepsCopiesOf hkeeps] at hembeddable
      cases hembeddable

theorem Outlines.mem_copyTargets_iff (hc : c.Indexed) {holder held : Table}
    (hholder : holder ∈ c.tables) (hheld : held ∈ c.tables) {own other : TableLayout}
    (hown : c.Outlines holder own) (hother : c.Outlines held other) :
    (d ∈ other.copyTargets ∧ d.parent = holder.name) ↔
      (d ∈ own.embeddedKeys ∧ d.child = held.name ∧
        sameColumns d.referencedColumns held.primaryKey ∧ holder.foreignKeysTo held.name ≠ []) := by
  constructor
  · rintro ⟨hd, hparent⟩
    obtain ⟨t, ht, fk, hfk, ref, -, hkeeps, href, hcolumns, rfl⟩ := hother.mem_copyTargets.mp hd
    cases hc.eq_of_same ht hholder (hparent ▸ same_refl _)
    obtain ⟨hfk', hspelled⟩ := mem_filter.mp hfk
    have htarget := table_of_lower (lower_eq_of_same hspelled).symm (hc.table_of_mem hheld)
    refine ⟨(hown.mem_embeddedKeys hc).mpr ⟨fk, hfk', ref, held, href, htarget, hkeeps, rfl⟩, rfl,
      hcolumns, ne_nil_of_mem hfk⟩
  · rintro ⟨hd, hchild, hcolumns, hspelled⟩
    obtain ⟨fk, hfk⟩ := exists_mem_of_ne_nil _ hspelled
    obtain ⟨hfk', hspelled⟩ := mem_filter.mp hfk
    have htarget := table_of_lower (lower_eq_of_same hspelled).symm (hc.table_of_mem hheld)
    obtain ⟨ref, href⟩ := exists_mapM_ok_iff.mp ⟨_, hown.references⟩ fk hfk'
    have hkeeps : holder.keepsCopiesOf held := by
      obtain ⟨_, -, _, target, -, htarget', hkeeps, rfl⟩ := (hown.mem_embeddedKeys hc).mp hd
      cases hc.eq_of_same (mem_tables_of_table htarget') hheld (hchild ▸ same_refl _)
      exact hkeeps
    -- the table has no second link to the same table, so that this foreign key is the one of `d`
    have hlink : ref.copyLink holder held ∈ own.embeddedKeys :=
      (hown.mem_embeddedKeys hc).mpr ⟨fk, hfk', ref, held, href, htarget, hkeeps, rfl⟩
    cases hown.eq_of_child hd hlink hchild
    have hself : ¬Text.same holder.name held.name := fun hsame =>
      hown.child_ne_of_mem hc hholder hlink (congrArg Table.name (hc.eq_of_same hholder hheld hsame)).symm
    exact ⟨hother.mem_copyTargets.mpr ⟨holder, hholder, fk, hfk, ref, hself, hkeeps, href, hcolumns, rfl⟩, rfl⟩

theorem mem_copyTargets_iff_mem_embeddedKeys (hc : c.Indexed) {holder held : String} {t : Table}
    {l l' : Layout} (ht : c.table holder = .ok t) (hl : c.layout holder = .ok l)
    (hl' : c.layout held = .ok l') (d : Link) :
    (d ∈ l'.copyTargets ∧ d.parent = l.table) ↔
      (d ∈ l.embeddedKeys ∧ d.child = l'.table ∧ sameColumns d.referencedColumns l'.primaryKey ∧
        t.foreignKeysTo l'.table ≠ []) := by
  have hout := layout_eq_ok_iff.mp hl
  have hout' := layout_eq_ok_iff.mp hl'
  obtain ⟨u, hu⟩ := hout'.exists_table
  have hown := hout.outlines ht
  have hother := hout'.outlines hu
  rw [hown.table, hother.table, hother.primaryKey]
  exact hown.mem_copyTargets_iff hc (mem_tables_of_table ht) (mem_tables_of_table hu) hother

def stockHolder (name : String) (referencedColumns : List String) : Table where
  name := name
  columns := [⟨"no", .integer, false⟩, ⟨"id", .integer, false⟩, ⟨"region", .integer, false⟩]
  primaryKey := ["no"]
  foreignKeys := [⟨"of_product", referencedColumns, "product", referencedColumns⟩]

/-- Products, with orders that refer to them by their key and quotes that refer to them by more. -/
def stock : Catalog :=
  .ofTables
    [{ name := "product", columns := [⟨"id", .integer, false⟩, ⟨"region", .integer, false⟩]
       primaryKey := ["id"], properties := { embeddable := true } },
      stockHolder "orders" ["id"], stockHolder "quotes" ["id", "region"]]

def stockLink (holder : String) (columns : List String) : Link :=
  { name := "of_product", parent := holder, child := "product", columns := columns
    referencedColumns := columns, association := .one }

def holderLayout (name : String) (columns : List String) : Layout :=
  { table := name, primaryKey := ["no"], role := .root, embeddedKeys := [stockLink name columns]
    references := [⟨"of_product", name, columns, "product", columns⟩] }

def productLayout : Layout :=
  { table := "product", primaryKey := ["id"], role := .embeddable, copyTargets := [stockLink "orders" ["id"]] }

/-- Orders and quotes both hold copies of products, which know of those in orders only. -/
theorem mem_copyTargets_stock :
    stock.Indexed ∧ stock.table "orders" = .ok (stockHolder "orders" ["id"]) ∧
      stock.table "quotes" = .ok (stockHolder "quotes" ["id", "region"]) ∧
      stock.layout "orders" = .ok (holderLayout "orders" ["id"]) ∧
      stock.layout "quotes" = .ok (holderLayout "quotes" ["id", "region"]) ∧
      stock.layout "product" = .ok productLayout ∧
      (stockLink "orders" ["id"] ∈ productLayout.copyTargets ∧
        (stockLink "orders" ["id"]).parent = "orders") ∧
      ¬(stockLink "quotes" ["id", "region"] ∈ productLayout.copyTargets ∧
        (stockLink "quotes" ["id", "region"]).parent = "quotes") := by
  have hc : stock.Indexed := indexed_ofTables _
  have hproduct : stock.layout "product" = .ok productLayout := rfl
  have horders : stock.layout "orders" = .ok (holderLayout "orders" ["id"]) := rfl
  have hquotes : stock.layout "quotes" = .ok (holderLayout "quotes" ["id", "region"]) := rfl
  refine ⟨hc, rfl, rfl, horders, hquotes, hproduct, ?_, fun hboth => ?_⟩
  · exact (mem_copyTargets_iff_mem_embeddedKeys hc rfl horders hproduct _).mpr (by decide +kernel)
  · have hcolumns := ((mem_copyTargets_iff_mem_embeddedKeys hc rfl hquotes hproduct _).mp hboth).2.2.1
    exact absurd hcolumns (by decide +kernel)

end Catalog

end Pushdown
