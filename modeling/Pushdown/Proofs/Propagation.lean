import Pushdown.Proofs.MarkedPaths
import Pushdown.Proofs.Placed
import Pushdown.Proofs.PlannedWrites

/-!
# The copies that a write reaches

A write to an embeddable table changes the copies of its rows as well, those that the table has targets for
(`copyPatches_of_plan`). `reaches_copies_iff` says which of the copies that a FROM clause reads these are.
-/

namespace Pushdown

open List Attempt

namespace Path

def unmarked (path : String) : String := join ((split path).filter (!isMark ·))

end Path

variable {l : Layout} {t : Table}

namespace Catalog

variable {c : Catalog} {change : CopyChange}

variable {d : Link} {patch : CopyPatch}

theorem copyPatch_ok (h : c.copyPatch l change d = .ok patch) :
    ∃ holder, c.layout d.parent = .ok holder ∧ patch.collection = holder.collection ∧
      ∃ mark : Nat → Option String, (∀ i, ∀ m ∈ mark i, m = "$[c]" ∨ m = "$[]") ∧
        patch.copyPath = Path.join (Hop.markedPath mark holder.hops ++ [d.child]) := by
  rw [copyPatch] at h
  obtain ⟨holder, hholder, h⟩ := exists_of_bind_ok h
  extract_lets hops array at h
  obtain ⟨locations, -, h⟩ := exists_of_bind_ok h
  cases h
  refine ⟨holder, ok_of_mapError hholder, rfl, _, fun i m hm => ?_, rfl⟩
  cases hm
  split
  · exact .inl rfl
  · exact .inr rfl

theorem unmarked_copyPath (hc : c.Indexed) (hnames : c.PlainlyNamed)
    (hmarks : ∀ t ∈ c.tables, Path.isMark t.name = false) {holder : Layout} (h : c.copyPatch l change d = .ok patch)
    (hholder : c.layout d.parent = .ok holder) (hd : d ∈ holder.embeddedKeys) :
    patch.collection = holder.collection ∧
      Path.unmarked patch.copyPath = Hop.fieldPath (holder.hops ++ [⟨.embed, d⟩]) := by
  obtain ⟨holder', hholder', hcollection, mark, hmark, hpath⟩ := copyPatch_ok h
  cases hholder.symm.trans hholder'
  refine ⟨hcollection, ?_⟩
  have hfields (hop : Hop) (hhop : hop ∈ holder.hops) : ∃ t ∈ c.tables, t.name = hop.field :=
    (Chain.own hholder rfl).field_mem hc hhop
  obtain ⟨t, ht, hchild⟩ := child_mem hc hholder hd
  have hall : ∀ s ∈ Hop.markedPath mark holder.hops ++ [d.child], Path.IsName s := by
    intro s hs
    rcases mem_append.mp hs with hs | hs
    · refine Hop.isName_of_mem_markedPath (fun i m hm => ?_) (fun hop hhop => ?_) s hs
      · rcases hmark i m hm with rfl | rfl <;> decide +kernel
      · obtain ⟨t, ht, hname⟩ := hfields hop hhop
        exact hname ▸ hnames t ht
    · rw [mem_singleton.mp hs, ← hchild]
      exact hnames t ht
  have hnotMark : Path.isMark d.child = false := hchild ▸ hmarks t ht
  rw [hpath, Path.unmarked, Path.split_join (by simp) hall, filter_append,
    Hop.filter_markedPath, Hop.fieldPath, map_append]
  · simp [hnotMark, Hop.field]
  · intro i m hm
    rcases hmark i m hm with rfl | rfl <;> decide +kernel
  · intro hop hhop
    obtain ⟨t, ht, hname⟩ := hfields hop hhop
    exact hname ▸ hmarks t ht

theorem mem_copyTargets_of_holder (hc : c.Indexed) {a : String} {holder : Layout} (ht : c.table t.name = .ok t)
    (hl : c.layout t.name = .ok l) (hholder : c.layout a = .ok holder) :
    (d ∈ l.copyTargets ∧ d.parent = holder.table) ↔
      (d ∈ holder.embeddedKeys ∧ d.child = t.name ∧ sameColumns d.referencedColumns t.primaryKey ∧
        ∃ u, c.table d.parent = .ok u ∧ u.foreignKeysTo t.name ≠ []) := by
  obtain ⟨u, hu, hown⟩ := exists_outlines hholder
  rw [hown.table, hown.mem_copyTargets_iff hc (mem_tables_of_table hu) (mem_tables_of_table ht)
    ((layout_eq_ok_iff.mp hl).outlines ht)]
  refine and_congr_right fun hd => and_congr_right fun _ => and_congr_right fun _ => ?_
  rw [hown.parent_of_mem hd, table_name hc.keyed hu]
  simp

/-- A chain to copies is reached just when it leads to rows of a table itself, whose link to the
copied table is one of the targets. -/
theorem reaches_chain_iff (hc : c.Indexed) (hnames : c.PlainlyNamed)
    (hmarks : ∀ t ∈ c.tables, Path.isMark t.name = false) {top : String} (ht : c.table t.name = .ok t)
    (hl : c.layout t.name = .ok l) {patches : List CopyPatch} (hpatches : c.copyPatches l change = .ok patches)
    {above : List Hop} {k : Link} (hchain : c.Chain top l (above ++ [⟨.embed, k⟩])) :
    (∃ patch ∈ patches, patch.collection = top ∧
        Path.unmarked patch.copyPath = Hop.fieldPath (above ++ [⟨.embed, k⟩])) ↔
      (∀ hop ∈ above, hop.kind = .merge) ∧ sameColumns k.referencedColumns t.primaryKey ∧
        ∃ u, c.table k.parent = .ok u ∧ u.foreignKeysTo t.name ≠ [] := by
  have htable : l.table = t.name := ((layout_eq_ok_iff.mp hl).outlines ht).table
  rw [copyPatches] at hpatches
  constructor
  · rintro ⟨patch, hpatch, htop, hpath⟩
    obtain ⟨d, hd, hpatch⟩ := exists_of_mem_mapM hpatches hpatch
    obtain ⟨holder, hholder, -⟩ := copyPatch_ok hpatch
    have hparent : d.parent = holder.table := by
      obtain ⟨other, hother, _, -, ref, -, -, -, -, rfl⟩ :=
        ((layout_eq_ok_iff.mp hl).outlines ht).mem_copyTargets.mp hd
      obtain ⟨u, hu, hname⟩ := layout_table hholder
      cases (hc.table_of_mem hother).symm.trans hu
      exact hname.symm
    obtain ⟨hkey, hchild, hcolumns, hspelled⟩ :=
      (mem_copyTargets_of_holder hc ht hl hholder).mp ⟨hd, hparent⟩
    obtain ⟨hcollection, hunmarked⟩ := unmarked_copyPath hc hnames hmarks hpatch hholder hkey
    -- both are chains with the same fields
    have hown : c.Chain top l (holder.hops ++ [⟨.embed, d⟩]) :=
      (Chain.own hholder (hcollection.symm.trans htop)).copy hkey hl (hchild.trans htable.symm)
    obtain ⟨rfl, hlast⟩ := append_inj'
      (hchain.eq_of_fieldPath hc hnames hown (hpath.symm.trans hunmarked)) rfl
    cases hlast
    exact ⟨fun hop hhop => ((layout_eq_ok_iff.mp hholder).of_mem_hops hhop).1, hcolumns, hspelled⟩
  · rintro ⟨hmerges, hcolumns, hspelled⟩
    obtain ⟨holder, hholder, hkey⟩ := hchain.holder
    obtain ⟨rfl, htop⟩ := hholder.own_of_merges hmerges
    obtain ⟨a, ha⟩ := hholder.exists_layout
    have hchild : k.child = t.name := by
      rw [← htable, hchain.table_eq]
      simp [Hop.field]
    obtain ⟨hd, hparent⟩ :=
      (mem_copyTargets_of_holder hc ht hl ha).mpr ⟨hkey, hchild, hcolumns, hspelled⟩
    obtain ⟨patch, hpatch⟩ := exists_mapM_ok_iff.mp ⟨_, hpatches⟩ k hd
    obtain ⟨hcollection, hunmarked⟩ := unmarked_copyPath hc hnames hmarks hpatch
      (hparent ▸ layout_layout_table hc.keyed ha) hkey
    exact ⟨patch, mem_of_mapM_ok hpatches hd hpatch, hcollection.trans htop, hunmarked⟩

end Catalog

def Command.changed? : Command → Option String
  | .update u => some u.table
  | .delete d => some d.table
  | _ => none

def WritePlan.patches : WritePlan → List CopyPatch
  | .direct p => (p.propagation.map (·.patches)).getD []
  | _ => []

namespace WriteContext

variable {σ : Type} {c : WriteContext σ} {st st' : σ}

theorem propagation_ok {filter : Document} {change : CopyChange} {propagated : Option Propagation}
    (h : c.propagation l filter change st = (.ok propagated, st')) (hembeddable : l.isEmbeddable)
    (hon : c.options.propagateCopies) :
    c.catalog.copyPatches l change = .ok ((propagated.map (·.patches)).getD []) := by
  rw [propagation, hembeddable, hon] at h
  split at h
  · obtain ⟨patches, hpatches, rfl⟩ := bind_pure_ok h
    exact (ofExcept_ok hpatches).1
  · rename_i hnone
    obtain ⟨rfl, -⟩ := pure_ok h
    have htargets : l.copyTargets = [] := by simpa using hnone
    rw [Catalog.copyPatches, htargets]
    rfl

variable {command : Command}

theorem propagation_of_plan {plan : WritePlan} (h : c.plan command st = (.ok plan, st')) {name : String}
    (hname : command.changed? = some name) :
    ∃ t l, c.catalog.table name = .ok t ∧ c.catalog.layout t.name = .ok l ∧
      (l.isMerged ∨ ∃ filter change st₁ direct,
        c.propagation l filter change st₁ = (.ok direct.propagation, st') ∧ plan = .direct direct) := by
  cases command with
  | select | insert => cases hname
  | update u =>
    cases hname
    obtain ⟨t, l, _, _, _, _, _, _, ht, hl, -, -, -, hplan⟩ := planUpdate_ok h
    rcases hplan with ⟨filter, st₁, _, -, hpropagation, hdirect⟩ | ⟨hmerged, -⟩
    · exact ⟨t, l, ht, hl, .inr ⟨filter, _, st₁, _, hpropagation, hdirect⟩⟩
    · exact ⟨t, l, ht, hl, .inl hmerged⟩
  | delete d =>
    cases hname
    obtain ⟨t, l, ht, hl, ⟨filter, st₁, direct, -, hdirect⟩ | ⟨_, hmerged, -⟩ |
      ⟨_, _, _, hmerged, -⟩⟩ := planDelete_ok h
    · exact ⟨t, l, ht, hl, .inr ⟨filter, .unset, st₁, direct, hdirect⟩⟩
    · exact ⟨t, l, ht, hl, .inl hmerged⟩
    · exact ⟨t, l, ht, hl, .inl hmerged⟩

theorem copyPatches_of_plan (hc : c.catalog.WellKeyed) {plan : WritePlan} (h : c.plan command st = (.ok plan, st'))
    (hon : c.options.propagateCopies) {name : String} (hname : command.changed? = some name)
    (ht : c.catalog.table name = .ok t) (hembeddable : t.properties.isEmbeddable) :
    ∃ l change, c.catalog.layout t.name = .ok l ∧
      c.catalog.copyPatches l change = .ok plan.patches := by
  obtain ⟨t', l, ht', hl, hplan⟩ := propagation_of_plan h hname
  cases ht.symm.trans ht'
  have hcopied : l.isEmbeddable := (Catalog.layout_eq_ok_iff.mp hl).isEmbeddable_of_table
    (Catalog.table_name hc ht) hembeddable
  rcases hplan with hmerged | ⟨_, change, _, direct, hpropagation, rfl⟩
  · rw [TableLayout.isMerged, TableLayout.mergeKey?, eq_of_beq hcopied] at hmerged
    cases hmerged
  · exact ⟨l, change, hl, propagation_ok hpropagation hcopied hon⟩

/-- Of the copies that a FROM clause reads, a write reaches those in rows of a table itself, which
refer to the primary key by a foreign key that spells the name of the copied table up to the case of
ASCII letters. -/
theorem reaches_copies_iff (hc : c.catalog.Indexed) (hnames : c.catalog.PlainlyNamed)
    (hmarks : ∀ t ∈ c.catalog.tables, Path.isMark t.name = false) {source : FromClause}
    {placement : Placement} (hplace : c.catalog.place source = .ok placement) {s : Source}
    (hs : s ∈ placement.sources) {above : List Hop} {k : Link} (hhops : s.hops = above ++ [⟨.embed, k⟩])
    (hon : c.options.propagateCopies) {command : Command} {plan : WritePlan}
    (hplan : c.plan command st = (.ok plan, st')) {name : String}
    (hname : command.changed? = some name) {t : Table} (ht : c.catalog.table name = .ok t)
    (hchild : k.child = t.name) :
    (∃ patch ∈ plan.patches, patch.collection = placement.top ∧
        Path.unmarked patch.copyPath = Hop.fieldPath s.hops) ↔
      (∀ hop ∈ above, hop.kind = .merge) ∧
        Catalog.sameColumns k.referencedColumns t.primaryKey ∧
        ∃ holder, c.catalog.table k.parent = .ok holder ∧ holder.foreignKeysTo t.name ≠ [] := by
  obtain ⟨required, hreads⟩ := Catalog.reads_of_place hc hplace
  obtain ⟨l, hops, -, hchain, hread⟩ := hreads s hs
  have hplain := hread.plain_eq hc hnames hchain
  have hpath : Hop.fieldPath s.hops = Hop.fieldPath hops :=
    congrArg Path.join (Hop.map_field_of_plain hplain)
  rw [hhops] at hplain
  obtain ⟨above', read, rfl, hkinds⟩ := Hop.eq_append_of_plain hplain.symm
  -- the changed table is the copied one, which is embeddable
  have hnamed := Catalog.table_name hc.keyed ht
  obtain ⟨holder, hholder, hk⟩ := hchain.holder
  obtain ⟨_, hlayout⟩ := hholder.exists_layout
  obtain ⟨held, hheld, -, hembeddable⟩ := Catalog.exists_held hc hlayout hk
  cases hnamed.symm.trans (hchild ▸ hheld)
  obtain ⟨l', change, hl', hpatches⟩ := copyPatches_of_plan hc.keyed hplan hon hname ht hembeddable
  obtain ⟨_, hl⟩ := hchain.exists_layout
  have htable : l'.table = l.table := by
    rw [((Catalog.layout_eq_ok_iff.mp hl').outlines hnamed).table, hchain.table_eq, ← hchild]
    simp [Hop.field]
  cases Catalog.eq_of_layout_table hc hl' hl htable
  have hmerges : (∀ hop ∈ above', hop.kind = .merge) ↔ ∀ hop ∈ above, hop.kind = .merge := by
    have hmap (hops : List Hop) :
        (∀ hop ∈ hops, hop.kind = .merge) ↔ ∀ kind ∈ hops.map Hop.kind, kind = .merge := by simp
    rw [hmap, hmap, hkinds]
  rw [hpath, Catalog.reaches_chain_iff hc hnames hmarks hnamed hl' hpatches hchain, hmerges]

def items : Table where
  name := "items"
  columns := [⟨"no", .integer, false⟩, ⟨"order_id", .integer, false⟩, ⟨"product_id", .integer, false⟩]
  primaryKey := ["no"]
  foreignKeys := [⟨"items_order", ["order_id"], "orders", ["id"]⟩,
    ⟨"items_product", ["product_id"], "product", ["id"]⟩]
  properties := { mergeInto := some "orders" }

def product : Table where
  name := "product"
  columns := [⟨"id", .integer, false⟩, ⟨"maker_id", .integer, false⟩]
  primaryKey := ["id"]
  foreignKeys := [⟨"product_maker", ["maker_id"], "maker", ["id"]⟩]
  properties := { embeddable := true }

def maker : Table where
  name := "maker"
  columns := [⟨"id", .integer, false⟩]
  primaryKey := ["id"]
  properties := { embeddable := true }

/-- Orders that hold their items, with copies of the products and, in these, of their makers. -/
def shop : WriteContext Unit where
  catalog := .ofTables
    [{ name := "orders", columns := [⟨"id", .integer, false⟩], primaryKey := ["id"] }, items, product, maker]
  objects := .unavailable

def itemsHop : Hop :=
  ⟨.merge, { name := "items_order", parent := "orders", child := "items", columns := ["order_id"]
             referencedColumns := ["id"], association := .many, readAs := some "__items" }⟩

def productLink : Link :=
  { name := "items_product", parent := "items", child := "product", columns := ["product_id"]
    referencedColumns := ["id"], association := .one }

def makerLink : Link :=
  { name := "product_maker", parent := "product", child := "maker", columns := ["maker_id"]
    referencedColumns := ["id"], association := .one }

def productSource : Source :=
  { name := "product", table := "product", hops := [itemsHop] ++ [⟨.embed, productLink⟩]
    optional := true }

def makerSource : Source :=
  { name := "maker", table := "maker"
    hops := [itemsHop, ⟨.embed, productLink⟩] ++ [⟨.embed, makerLink⟩], optional := true }

def wholeOrders : FromClause where
  base := ⟨"orders", none⟩
  joins := [⟨.leftOuter, ⟨"items", none⟩, none⟩, ⟨.leftOuter, ⟨"product", none⟩, none⟩,
    ⟨.leftOuter, ⟨"maker", none⟩, none⟩]

def wholePlacement : Placement where
  top := "orders"
  sources := [{ name := "orders", table := "orders", hops := [], optional := false },
    { name := "items", table := "items", hops := [itemsHop], optional := true },
    productSource, makerSource]
  joins := [⟨"items", true, none, true⟩, ⟨"product", true, none, false⟩, ⟨"maker", true, none, false⟩]
  prestages := [.compute [("__items", HopPlan.orEmptyElement "items")], .flatten "__items"]

/-- The removal of all rows of a table, with the change to their copies. -/
def removal (table : String) (patch : CopyPatch) : WritePlan :=
  .direct {
    table := table
    mutation := .remove table []
    copies := []
    propagation := some {
      keyQuery := {
        collection := table
        pipeline := [[("$match", .document [])], [("$project", .document [("_id", .int32 1)])]] }
      keyColumns := ["id"]
      patches := [patch] } }

def productRemoval : WritePlan :=
  removal "product"
    ⟨"orders", ["items.product_id"], "items.$[c].product", some ("c", ["product_id"]), .unset⟩

def makerRemoval : WritePlan := removal "maker" ⟨"product", ["maker_id"], "maker", none, .unset⟩

/-- The copies of products in items are reached, and the copies of makers in these are not. -/
theorem reaches_shop_copies :
    shop.catalog.Indexed ∧ shop.catalog.PlainlyNamed ∧
      (∀ t ∈ shop.catalog.tables, Path.isMark t.name = false) ∧
      shop.catalog.place wholeOrders = .ok wholePlacement ∧
      shop.plan (.delete ⟨"product", none⟩) () = (.ok productRemoval, ()) ∧
      shop.plan (.delete ⟨"maker", none⟩) () = (.ok makerRemoval, ()) ∧
      (∃ patch ∈ productRemoval.patches, patch.collection = wholePlacement.top ∧
        Path.unmarked patch.copyPath = Hop.fieldPath productSource.hops) ∧
      ¬∃ patch ∈ makerRemoval.patches, patch.collection = wholePlacement.top ∧
        Path.unmarked patch.copyPath = Hop.fieldPath makerSource.hops := by
  have hc : shop.catalog.Indexed := Catalog.indexed_ofTables _
  have hnames : shop.catalog.PlainlyNamed := by decide +kernel
  have hmarks : ∀ t ∈ shop.catalog.tables, Path.isMark t.name = false := by decide +kernel
  have hplace : shop.catalog.place wholeOrders = .ok wholePlacement := rfl
  have hproduct : shop.plan (.delete ⟨"product", none⟩) () = (.ok productRemoval, ()) := rfl
  have hmaker : shop.plan (.delete ⟨"maker", none⟩) () = (.ok makerRemoval, ()) := rfl
  refine ⟨hc, hnames, hmarks, hplace, hproduct, hmaker, ?_, fun hreached => ?_⟩
  · have hsource : productSource ∈ wholePlacement.sources := by simp [wholePlacement]
    refine (reaches_copies_iff hc hnames hmarks hplace hsource rfl rfl hproduct rfl
      (t := product) rfl rfl).mpr ⟨by decide, by decide +kernel, items, rfl, by decide +kernel⟩
  · have hsource : makerSource ∈ wholePlacement.sources := by simp [wholePlacement]
    have hmerges := ((reaches_copies_iff hc hnames hmarks hplace hsource rfl rfl hmaker rfl
      (t := maker) rfl rfl).mp hreached).1
    exact absurd hmerges (by decide)

end WriteContext

end Pushdown
