import Pushdown.Proofs.Construction
import Pushdown.Proofs.Routes

/-!
# Merges seen from below and from above

A merged table knows the tables above it, and a table knows the tables merged into it. The way up follows the names
of tables in whatever case they are written, and the way down compares names up to the case of ASCII letters.
`merges_iff_merge_route`: both ways are the same where each table `Spells` the name of the one above it so.
-/

namespace Pushdown

open Relation List

namespace Text

def isAscii (s : String) : Bool := s.toList.all (·.toNat < 128)

theorem lowerAfter_of_ascii {cs : List Char} (h : ∀ ch ∈ cs, ch.toNat < 128) (before : List Char) :
    lowerAfter before cs = cs.map Char.toLower := by
  induction cs generalizing before with
  | nil => rfl
  | cons ch cs ih =>
    obtain ⟨hch, hcs⟩ := forall_mem_cons.mp h
    have hsigma : ch ≠ 'Σ' := by
      rintro rfl
      exact absurd hch (by decide)
    rw [lowerAfter, if_neg hsigma, lowerChar, if_pos hch, ih hcs, map_cons]
    rfl

theorem same_of_lower {a b : String} (ha : isAscii a) (hb : isAscii b) (h : lower a = lower b) : same a b := by
  have hascii {s : String} (hs : isAscii s) : lower s = String.ofList (s.toList.map Char.toLower) := by
    rw [lower, lowerAfter_of_ascii (by simpa [isAscii] using hs)]
  rw [hascii ha, hascii hb] at h
  exact beq_iff_eq.mpr (String.ofList_injective h)

end Text

theorem Layout.parent?_eq_some_iff {l above : Layout} : l.parent? = some above ↔ l.ancestors = above.chain := by
  rw [parent?, chain]
  cases l.ancestors with
  | nil => simp
  | cons first rest =>
    rw [List.cons.injEq, Option.some.injEq]
    constructor
    · rintro rfl
      exact ⟨rfl, rfl⟩
    · rintro ⟨rfl, rfl⟩
      rfl

namespace Catalog

variable {c : Catalog} {name target : String} {l below : Layout} {key : Link} {hops : List Hop}

def AsciiNames (c : Catalog) : Prop :=
  ∀ t ∈ c.tables, Text.isAscii t.name ∧ ∀ parent ∈ t.properties.mergeInto, Text.isAscii parent

instance (c : Catalog) : Decidable c.AsciiNames :=
  inferInstanceAs (Decidable (∀ t ∈ c.tables,
    Text.isAscii t.name ∧ ∀ parent ∈ t.properties.mergeInto, Text.isAscii parent))

/-- The table that a merge leads to spells the name of the table above it up to the case of ASCII
letters. -/
def Spells (c : Catalog) (hop : Hop) : Prop :=
  ∃ t, c.table hop.link.child = .ok t ∧ t.properties.mergesInto hop.link.parent

/-- What is known of a merged table and of the table above it. -/
structure MergedBelow (t : Table) (l : Layout) (key : Link) (parent : Layout) : Prop where
  parent_eq : l.parent? = some parent
  keyParent : key.parent = parent.table
  keyChild : key.child = t.name
  hops_eq : l.hops = parent.hops ++ [⟨.merge, key⟩]

theorem LaysOut.exists_mergedBelow (h : c.LaysOut name l) {t : Table} (ht : c.table name = .ok t)
    (hkey : l.mergeKey? = some key) : ∃ parent, MergedBelow t l key parent := by
  cases h with
  | top ht' hown hmerge =>
    cases (LaysOut.top ht' hown hmerge).isMerged_iff.mp (congrArg Option.isSome hkey)
  | merged ht' _ _ _ hkey' =>
    cases ht.symm.trans ht'
    cases hkey
    obtain ⟨hfrom, hto⟩ := mergeKey_ok hkey'
    exact ⟨_, rfl, hfrom, hto, hops_merged⟩

theorem parent?_of_mergesInto (hc : c.Indexed) {a b : String} {t o : Table} {above : Layout}
    (ht : c.table a = .ok t) (ho : c.table b = .ok o) (habove : c.layout a = .ok above)
    (hbelow : c.layout b = .ok below) (hmerges : o.properties.mergesInto t.name) : below.parent? = some above := by
  rw [TableProperties.mergesInto] at hmerges
  split at hmerges
  · rename_i parent hparent
    obtain ⟨l, hl, hancestors⟩ := (layout_eq_ok_iff.mp hbelow).exists_parent ho hparent
    have hlower : Text.lower parent = Text.lower a :=
      (Text.lower_eq_of_same hmerges).trans (lower_of_table hc.keyed ht).symm
    cases (hl.of_lower hlower).unique (layout_eq_ok_iff.mp habove)
    exact Layout.parent?_eq_some_iff.mpr hancestors
  · cases hmerges

theorem leadsOut_merge_iff (hc : c.Indexed) (hl : c.layout name = .ok l) :
    c.LeadsOut name ⟨.merge, key⟩ ↔ ∃ below, c.layout key.child = .ok below ∧
      below.mergeKey? = some key ∧ below.parent? = some l ∧ c.Spells ⟨.merge, key⟩ := by
  obtain ⟨t, ht, htable⟩ := layout_table hl
  constructor
  · intro hout
    cases hout with
    | merge hl' hchild hbelow hkey =>
      rename_i below child
      cases hl.symm.trans hl'
      obtain ⟨t', x, ht', hx, rfl, hmerges⟩ := exists_of_mem_mergedChildren hc hl hchild
      cases ht.symm.trans ht'
      obtain ⟨parent, hmerged⟩ := (layout_eq_ok_iff.mp hbelow).exists_mergedBelow hx hkey
      have hparent := parent?_of_mergesInto hc ht hx hl hbelow hmerges
      cases hmerged.parent_eq.symm.trans hparent
      refine ⟨below, hmerged.keyChild ▸ hbelow, hkey, hparent, x, hmerged.keyChild ▸ hx, ?_⟩
      show x.properties.mergesInto key.parent
      rwa [hmerged.keyParent, htable]
  · rintro ⟨below, hbelow, hkey, hparent, x, hx, hmerges⟩
    obtain ⟨parent, hmerged⟩ := (layout_eq_ok_iff.mp hbelow).exists_mergedBelow hx hkey
    cases hmerged.parent_eq.symm.trans hparent
    have hmem : x.name ∈ l.mergedChildren := by
      rw [((layout_eq_ok_iff.mp hl).outlines ht).mergedChildren, mergedChildren]
      refine mem_map_of_mem (mem_filter.mpr ⟨mem_tables_of_table hx, ?_⟩)
      show x.properties.mergesInto t.name
      rw [← htable, ← hmerged.keyParent]
      exact hmerges
    exact .merge hl hmem (hmerged.keyChild ▸ hbelow) hkey

theorem LeadOn.concat (hleads : c.LeadOn name hops) (hend : hops.getLast?.map (·.link.child) = some target)
    {h : Hop} (hout : c.LeadsOut target h) : c.LeadOn name (hops ++ [h]) := by
  induction hops generalizing name with
  | nil => cases hend
  | cons first hops ih =>
    obtain ⟨hfirst, hleads⟩ := hleads
    refine ⟨hfirst, ?_⟩
    cases hops with
    | nil =>
      cases hend
      exact ⟨hout, trivial⟩
    | cons second hops => exact ih hleads hend

theorem LeadOn.hops_eq (hc : c.Indexed) (hleads : c.LeadOn name hops)
    (hmerges : ∀ h ∈ hops, h.kind = .merge) (hend : hops.getLast?.map (·.link.child) = some target)
    (hl : c.layout name = .ok l) :
    ∃ below, c.layout target = .ok below ∧ below.hops = l.hops ++ hops ∧ l.chain ⊆ below.ancestors ∧
      ∀ h ∈ hops, c.Spells h := by
  induction hops generalizing name l with
  | nil => cases hend
  | cons first hops ih =>
    obtain ⟨hout, hleads⟩ := hleads
    obtain ⟨hfirst, hrest⟩ := forall_mem_cons.mp hmerges
    obtain ⟨kind, key⟩ := first
    cases hfirst
    obtain ⟨next, hnext, hkey, hparent, hspells⟩ := (leadsOut_merge_iff hc hl).mp hout
    have hancestors := Layout.parent?_eq_some_iff.mp hparent
    obtain ⟨t, ht, -⟩ := layout_table hnext
    obtain ⟨parent, hmerged⟩ := (layout_eq_ok_iff.mp hnext).exists_mergedBelow ht hkey
    cases hmerged.parent_eq.symm.trans hparent
    -- the first hop is what the next table adds to the hops so far
    have hhops := hmerged.hops_eq
    cases hops with
    | nil =>
      cases hend
      exact ⟨next, hnext, hhops, hancestors ▸ List.Subset.refl _, by simpa using hspells⟩
    | cons second hops =>
      obtain ⟨below, hbelow, heq, hchain, hall⟩ := ih hleads hrest hend hnext
      refine ⟨below, hbelow, by rw [heq, hhops, append_assoc]; rfl, ?_, forall_mem_cons.mpr ⟨hspells, hall⟩⟩
      rw [← hancestors]
      exact fun t ht => hchain (mem_cons_of_mem _ ht)

/-- The way down to a table from one of those above it. It leads along merges, and through the layouts as
long as names are spelled alike. -/
theorem LaysOut.exists_way_down (hc : c.Indexed) (h : c.LaysOut name below) {above : TableLayout}
    (habove : above ∈ below.ancestors) :
    ∃ l route, c.layout above.table = .ok l ∧ l.toTableLayout = above ∧ below.hops = l.hops ++ route ∧
      (∀ h ∈ route, h.kind = .merge) ∧ route.getLast?.map (·.link.child) = some below.table ∧
      ((∀ h ∈ route, c.Spells h) → c.LeadOn above.table route) := by
  induction h with
  | top => cases habove
  | @merged name _ t own parent key ht hown hmerge hparent hkey ih =>
    have hself := layout_layout_table hc.keyed (layout_eq_ok_iff.mpr hparent)
    have hbelow := layout_layout_table hc.keyed (layout_eq_ok_iff.mpr (LaysOut.merged ht hown hmerge hparent hkey))
    have hchild : key.child = own.table := (mergeKey_ok hkey).2.trans (outline_ok hown).1.table.symm
    have hout (hspells : c.Spells ⟨.merge, key⟩) : c.LeadsOut parent.table ⟨.merge, key⟩ :=
      (leadsOut_merge_iff hc hself).mpr ⟨_, hchild ▸ hbelow, rfl, Layout.parent?_eq_some_iff.mpr rfl, hspells⟩
    have hlast (route : List Hop) :
        (route ++ [(⟨.merge, key⟩ : Hop)]).getLast?.map (·.link.child) = some own.table := by
      rw [getLast?_concat, Option.map_some, hchild]
    -- the way ends with this merge, and begins at the parent or further up
    rcases mem_cons.mp habove with rfl | habove
    · exact ⟨parent, [⟨.merge, key⟩], hself, rfl, hops_merged, by simp, hlast [],
        fun hspells => ⟨hout (hspells _ (mem_singleton_self _)), trivial⟩⟩
    · obtain ⟨l, route, hl, hown, hhops, hmerges, hend, hleads⟩ := ih habove
      refine ⟨l, route ++ [⟨.merge, key⟩], hl, hown, ?_, ?_, hlast route, fun hspells => ?_⟩
      · rw [hops_merged, hhops, append_assoc]
      · simpa [or_imp, forall_and] using hmerges
      · obtain ⟨hroute, hkeyed⟩ := forall_mem_append.mp hspells
        exact (hleads hroute).concat hend (hout (hkeyed _ (mem_singleton_self _)))

theorem AsciiNames.mergesInto (hascii : c.AsciiNames) (hc : c.Indexed) {t u : Table} {above : String}
    (ht : c.table name = .ok t) (hmerge : t.properties.mergeInto = some above)
    (hu : c.table above = .ok u) : t.properties.mergesInto u.name := by
  rw [TableProperties.mergesInto, hmerge]
  exact Text.same_of_lower ((hascii t (mem_tables_of_table ht)).2 above hmerge)
    (hascii u (mem_tables_of_table hu)).1 (lower_of_table hc.keyed hu)

theorem AsciiNames.spells (hascii : c.AsciiNames) (hc : c.Indexed) (h : c.LaysOut name below) :
    ∀ hop ∈ below.hops, c.Spells hop := by
  induction h with
  | top ht hown hmerge =>
    rw [((LaysOut.top ht hown hmerge).hops_of_top ht hmerge).1]
    exact forall_mem_nil _
  | merged ht hown hmerge hparent hkey ih =>
    obtain ⟨u, hu, htable⟩ := layout_table (layout_eq_ok_iff.mpr hparent)
    obtain ⟨hfrom, hto⟩ := mergeKey_ok hkey
    have hspells := hascii.mergesInto hc ht hmerge hu
    rw [← htable, ← hfrom] at hspells
    rw [LaysOut.hops_merged]
    exact forall_mem_append.mpr ⟨ih, forall_mem_singleton.mpr ⟨_, hto ▸ table_name hc.keyed ht, hspells⟩⟩

theorem LeadOn.transGen (hc : c.Indexed) (hleads : c.LeadOn name hops)
    (hend : hops.getLast?.map (·.link.child) = some target) : TransGen c.LinksTo name target := by
  induction hops generalizing name with
  | nil => cases hend
  | cons h hops ih =>
    have hlink := hleads.1.linksTo hc
    cases hops with
    | nil =>
      cases hend
      exact .single hlink
    | cons next hops => exact (ih hleads.2 hend).head hlink

theorem LeadOn.isRoute (hc : c.Indexed) (hacyclic : c.Acyclic) (hleads : c.LeadOn name hops)
    (hend : hops.getLast?.map (·.link.child) = some target) : c.IsRoute name target hops := by
  refine ⟨hleads, hend, ?_⟩
  induction hops generalizing name with
  | nil => cases hend
  | cons h hops ih =>
    cases hops with
    | nil => simp
    | cons next hops =>
      refine forall_mem_cons.mpr ⟨?_, ih hleads.2 hend⟩
      rintro rfl
      exact hacyclic _ (hleads.2.transGen hc hend)

section Directions

variable {a b : String} {t o : Table} {above : Layout}

section

variable (hc : c.Indexed) (hacyclic : c.Acyclic) (habove : c.layout name = .ok above)
  (hbelow : c.layout below.table = .ok below)

include hc hacyclic habove hbelow

/-- The routes along merges are the ways up, read from above, on which names are spelled alike. -/
theorem isRoute_merges_iff (route : List Hop) :
    (c.IsRoute name below.table route ∧ ∀ h ∈ route, h.kind = .merge) ↔
      above.toTableLayout ∈ below.ancestors ∧ below.hops = above.hops ++ route ∧ ∀ h ∈ route, c.Spells h := by
  obtain ⟨t, ht, htable⟩ := layout_table habove
  constructor
  · rintro ⟨hroute, hmerges⟩
    obtain ⟨l, hl, hhops, hchain, hspells⟩ := hroute.leads.hops_eq hc hmerges hroute.arrives habove
    cases hbelow.symm.trans hl
    exact ⟨hchain (mem_cons_self ..), hhops, hspells⟩
  · rintro ⟨hmem, hhops, hspells⟩
    obtain ⟨l, way, hl, -, hway, hmerges, hend, hleads⟩ := (layout_eq_ok_iff.mp hbelow).exists_way_down hc hmem
    cases hl.symm.trans (layout_layout_table hc.keyed habove)
    cases append_cancel_left (hhops.symm.trans hway)
    have hname : Text.lower above.table = Text.lower name := by
      rw [htable, lower_of_table hc.keyed ht]
    exact ⟨((hleads hspells).isRoute hc hacyclic hend).of_lower hname, hmerges⟩

theorem exists_isRoute_merges_iff :
    (∃ route, c.IsRoute name below.table route ∧ ∀ h ∈ route, h.kind = .merge) ↔
      above.toTableLayout ∈ below.ancestors ∧ ∀ h ∈ below.hops.drop above.hops.length, c.Spells h := by
  simp only [isRoute_merges_iff hc hacyclic habove hbelow]
  constructor
  · rintro ⟨route, hmem, hhops, hspells⟩
    refine ⟨hmem, ?_⟩
    rwa [hhops, drop_left]
  · rintro ⟨hmem, hspells⟩
    obtain ⟨l, route, hl, -, hhops, -⟩ := (layout_eq_ok_iff.mp hbelow).exists_way_down hc hmem
    cases hl.symm.trans (layout_layout_table hc.keyed habove)
    rw [hhops, drop_left] at hspells
    exact ⟨route, hmem, hhops, hspells⟩

end

theorem merges_iff_mem_ancestors (hc : c.Indexed) (ht : c.table a = .ok t) (ha : Text.same a t.name)
    (habove : c.layout a = .ok above) (hbelow : c.layout b = .ok below) :
    ∃ merged, c.merges a b = .ok merged ∧ (merged ↔ above.toTableLayout ∈ below.ancestors) := by
  refine ⟨_, by rw [merges, hbelow]; rfl, any_eq_true.trans ⟨?_, fun hmem => ⟨_, hmem, ?_⟩⟩⟩
  · rintro ⟨x, hx, hsame⟩
    obtain ⟨l, -, hl, rfl, -⟩ := (layout_eq_ok_iff.mp hbelow).exists_way_down hc hx
    cases habove.symm.trans (layout_of_lower (Text.lower_eq_of_same hsame) hl)
    exact hx
  · obtain ⟨t', ht', htable⟩ := layout_table habove
    cases ht.symm.trans ht'
    rw [htable]
    exact beq_iff_eq.mpr (beq_iff_eq.mp ha).symm

theorem mem_mergedChildren_iff (hc : c.Indexed) (ht : c.table a = .ok t) (ho : c.table b = .ok o)
    (habove : c.layout a = .ok above) (hbelow : c.layout b = .ok below) :
    o.name ∈ above.mergedChildren ↔ below.parent? = some above ∧ o.properties.mergesInto t.name := by
  rw [((layout_eq_ok_iff.mp habove).outlines ht).mergedChildren, mergedChildren]
  constructor
  · intro hmem
    obtain ⟨x, hx, hname⟩ := mem_map.mp hmem
    obtain ⟨hx, hmerges⟩ := mem_filter.mp hx
    cases (hc.table_of_mem hx).symm.trans (hname ▸ table_name hc.keyed ho)
    exact ⟨parent?_of_mergesInto hc ht ho habove hbelow hmerges, hmerges⟩
  · rintro ⟨-, hmerges⟩
    exact mem_map_of_mem (mem_filter.mpr ⟨mem_tables_of_table ho, hmerges⟩)

theorem AsciiNames.mergesInto_of_parent? (hascii : c.AsciiNames) (hc : c.Indexed) (ht : c.table a = .ok t)
    (ho : c.table b = .ok o) (habove : c.layout a = .ok above) (hbelow : c.layout b = .ok below)
    (hparent : below.parent? = some above) : o.properties.mergesInto t.name := by
  cases layout_eq_ok_iff.mp hbelow with
  | top => cases hparent
  | merged ho' _ hmerge hout _ =>
    cases ho.symm.trans ho'
    cases hparent
    obtain ⟨u, hu, hname⟩ := layout_table (layout_eq_ok_iff.mpr hout)
    obtain ⟨t', ht', hname'⟩ := layout_table habove
    cases ht.symm.trans ht'
    rw [← hname', hname]
    exact hascii.mergesInto hc ho hmerge hu

/-- Where all layouts can be built and links are `Acyclic`, the routes from one table to another along merges alone
are what the hops to the second add to the hops to the first. There is one when the rows of the second lie in those
of the first, if each table between them `Spells` the name above it; and then the tables merged into a table are
those whose parent it is. Where names are in ASCII, all tables spell them so. -/
theorem merges_iff_merge_route (hc : c.Indexed) (hall : c.AllLaidOut) (hacyclic : c.Acyclic)
    (ht : t ∈ c.tables) (ho : o ∈ c.tables) (ha : Text.same a t.name) (hb : Text.same b o.name) :
    ∃ above below routes merged, c.layout a = .ok above ∧ c.layout b = .ok below ∧
      c.routes a b = .ok routes ∧ c.merges a b = .ok merged ∧
      ((∃ route ∈ routes, ∀ h ∈ route, h.kind = .merge) ↔
        merged ∧ ∀ h ∈ below.hops.drop above.hops.length, c.Spells h) ∧
      (∀ route ∈ routes, (∀ h ∈ route, h.kind = .merge) → below.hops = above.hops ++ route) ∧
      (o.name ∈ above.mergedChildren ↔ below.parent? = some above ∧ o.properties.mergesInto t.name) ∧
      (c.AsciiNames →
        (merged ↔ ∃ route ∈ routes, ∀ h ∈ route, h.kind = .merge) ∧
        (o.name ∈ above.mergedChildren ↔ below.parent? = some above)) := by
  have hta := table_of_lower (Text.lower_eq_of_same ha).symm (hc.table_of_mem ht)
  have hob := table_of_lower (Text.lower_eq_of_same hb).symm (hc.table_of_mem ho)
  obtain ⟨above, habove⟩ := hall t ht
  obtain ⟨below, hbelow⟩ := hall o ho
  have habove' := layout_of_lower (Text.lower_eq_of_same ha).symm habove
  have hbelow' := layout_of_lower (Text.lower_eq_of_same hb).symm hbelow
  have htable : below.table = o.name := by
    obtain ⟨x, hx, hname⟩ := layout_table hbelow'
    cases hob.symm.trans hx
    exact hname
  obtain ⟨routes, hroutes, -, hmem⟩ := exists_routes hc hall hacyclic hta ho hb
  obtain ⟨merged, hmerges, hmerged⟩ := merges_iff_mem_ancestors hc hta ha habove' hbelow'
  have hroute := isRoute_merges_iff hc hacyclic habove (htable ▸ hbelow)
  have hexists := exists_isRoute_merges_iff hc hacyclic habove (htable ▸ hbelow)
  simp only [htable, ← hmem, ← hmerged] at hroute hexists
  have hchildren := mem_mergedChildren_iff hc hta hob habove' hbelow'
  refine ⟨above, below, routes, merged, habove', hbelow', hroutes, hmerges, hexists,
    fun route hmem hmerges => ((hroute route).mp ⟨hmem, hmerges⟩).2.1, hchildren,
    fun hascii => ⟨?_, ?_⟩⟩
  · refine (and_iff_left fun h hh => ?_).symm.trans hexists.symm
    exact hascii.spells hc (layout_eq_ok_iff.mp hbelow) h (mem_of_mem_drop hh)
  · exact hchildren.trans (and_iff_left_of_imp (hascii.mergesInto_of_parent? hc hta hob habove' hbelow'))

end Directions

/-- A catalog whose second table names the first by the sign of the kelvin, which has the letter for its
lower case. -/
def degrees : Catalog := .ofTables [sheet "k" none, sheet "c" (some "\u212A")]

/-- Letters lie in boxes by two merges. The sign of the kelvin leads up to a table from which nothing leads
back. -/
theorem merges_iff_merge_route_boxes :
    (boxes.Indexed ∧ boxes.AllLaidOut ∧ boxes.Acyclic ∧ boxes.AsciiNames ∧
      boxes.merges "Box" "LETTER" = .ok true ∧
      ∃ above below routes, boxes.layout "Box" = .ok above ∧ boxes.layout "LETTER" = .ok below ∧
        boxes.routes "Box" "LETTER" = .ok routes ∧
        ∃ route ∈ routes, (∀ h ∈ route, h.kind = .merge) ∧ below.hops = above.hops ++ route) ∧
      (degrees.Indexed ∧ degrees.AllLaidOut ∧ degrees.Acyclic ∧ degrees.merges "K" "c" = .ok true ∧
        ∃ above below routes, degrees.layout "K" = .ok above ∧ degrees.layout "c" = .ok below ∧
          degrees.routes "K" "c" = .ok routes ∧ below.parent? = some above ∧
          "c" ∉ above.mergedChildren ∧ ¬∃ route ∈ routes, ∀ h ∈ route, h.kind = .merge) := by
  constructor
  · have hc : boxes.Indexed := indexed_ofTables _
    have hall : boxes.AllLaidOut := by decide +kernel
    have hnone : ∀ t ∈ boxes.tables, ∀ l ∈ (boxes.layout t.name).toOption,
        l.isEmbeddable → l.mergedChildren = [] := by decide +kernel
    have hacyclic : boxes.Acyclic :=
      acyclic_of_nothing_below_copies hc hall fun a l hl => forall_layout hc.keyed hnone hl
    have hascii : boxes.AsciiNames := by decide +kernel
    have htrue : boxes.merges "Box" "LETTER" = .ok true := rfl
    have hbox : ∃ t ∈ boxes.tables, Text.same "Box" t.name := by decide +kernel
    have hletter : ∃ t ∈ boxes.tables, Text.same "LETTER" t.name := by decide +kernel
    obtain ⟨t, ht, ha⟩ := hbox
    obtain ⟨o, ho, hb⟩ := hletter
    obtain ⟨above, below, routes, merged, habove, hbelow, hroutes, hmerges, -, hhops, -, hplain⟩ :=
      merges_iff_merge_route hc hall hacyclic ht ho ha hb
    cases htrue.symm.trans hmerges
    obtain ⟨route, hroute, honly⟩ := (hplain hascii).1.mp rfl
    exact ⟨hc, hall, hacyclic, hascii, htrue, above, below, routes, habove, hbelow, hroutes, route, hroute,
      honly, hhops route hroute honly⟩
  · have hc : degrees.Indexed := indexed_ofTables _
    have hall : degrees.AllLaidOut := by decide +kernel
    have hnone : ∀ t ∈ degrees.tables, ∀ l ∈ (degrees.layout t.name).toOption,
        l.isEmbeddable → l.mergedChildren = [] := by decide +kernel
    have hacyclic : degrees.Acyclic :=
      acyclic_of_nothing_below_copies hc hall fun a l hl => forall_layout hc.keyed hnone hl
    have htrue : degrees.merges "K" "c" = .ok true := rfl
    have hk : sheet "k" none ∈ degrees.tables := by decide +kernel
    have hsign : sheet "c" (some "\u212A") ∈ degrees.tables := by decide +kernel
    obtain ⟨above, below, routes, -, habove, hbelow, hroutes, -, -, -, hchildren, -⟩ :=
      merges_iff_merge_route hc hall hacyclic hk hsign (a := "K") (b := "c") rfl rfl
    have hfound : degrees.routes "K" "c" = .ok [] := rfl
    cases hfound.symm.trans hroutes
    refine ⟨hc, hall, hacyclic, htrue, above, below, [], habove, hbelow, hroutes, ?_, fun hmem => ?_, ?_⟩
    · cases habove
      cases hbelow
      rfl
    · exact absurd (hchildren.mp hmem).2 (by decide +kernel)
    · rintro ⟨route, hnil, -⟩
      cases hnil

end Catalog

end Pushdown
