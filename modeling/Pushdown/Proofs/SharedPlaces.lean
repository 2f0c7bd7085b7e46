import Pushdown.Proofs.ColumnLocations
import Pushdown.Proofs.Placed

/-!
# Tables that are read from one place

`same_place_iff`: two tables of a FROM clause can be read from the same rows of a document. Where the names of
tables are told apart on paths, their chains decide it, since a chain is read in one way (`Reads.unique`).
-/

namespace Pushdown.Catalog

open List

variable {c : Catalog} {top : String} {required : List String}

variable {hops : List Hop}

theorem field_eq_of_fieldPath {a b : Hop} (h : Hop.fieldPath (hops ++ [a]) = Hop.fieldPath (hops ++ [b])) :
    a.field = b.field := by
  by_cases hnil : hops = []
  · subst hnil
    exact h
  · have hne : hops.map Hop.field ≠ [] := by simpa using hnil
    rw [Hop.fieldPath, Hop.fieldPath, map_append, map_append, map_singleton,
      map_singleton, Path.join_append_singleton hne, Path.join_append_singleton hne] at h
    have hchars := congrArg String.toList h
    simp only [String.toList_append] at hchars
    exact String.toList_inj.mp (append_cancel_left hchars)

theorem ReadsHop.field_eq (hc : c.Indexed) {above : List Hop} {a b read : Hop}
    (ha : c.ReadsHop top required above a read) (hb : c.ReadsHop top required above b read)
    (hplain : a.link.readAs = none) (hplain' : b.link.readAs = none) : a.field = b.field := by
  generalize hread : read = read' at hb
  cases ha with
  | own _ =>
    cases hb with
    | own _ => rw [hread]
    | aliased _ _ _ _ _ _ =>
      rw [hread] at hplain
      cases hplain
  | @aliased _ l _ array hl htop hhops _ hpath _ =>
    cases hb with
    | own _ =>
      rw [← hread] at hplain'
      cases hplain'
    | @aliased _ l' _ array' hl' htop' hhops' _ hpath' _ =>
      -- an array is read under another field at one place only
      have hfield := congrArg Hop.field hread
      change array.field = array'.field at hfield
      have htable : l.table = l'.table := by
        rw [(Chain.own hl htop).table_eq, (Chain.own hl' htop').table_eq, hhops, hhops']
        simp [hfield]
      rw [eq_of_layout_table hc hl hl' htable, hpath'] at hpath
      exact (field_eq_of_fieldPath hpath).symm

namespace Reads

variable {hops' read read' : List Hop} {hop : Hop}

theorem eq_nil (h : c.Reads top required hops []) : hops = [] := by
  generalize hnil : ([] : List Hop) = read at h
  cases h with
  | nil => rfl
  | concat _ _ => simp at hnil

theorem of_nil (h : c.Reads top required [] read) : read = [] := by
  generalize hnil : ([] : List Hop) = hops at h
  cases h with
  | nil => rfl
  | concat _ _ => simp at hnil

theorem of_concat (h : c.Reads top required (hops ++ [hop]) read) :
    ∃ above hop', read = above ++ [hop'] ∧ c.Reads top required hops above ∧
      c.ReadsHop top required above hop hop' := by
  generalize hall : hops ++ [hop] = all at h
  cases h with
  | nil => simp at hall
  | concat hreads hhop =>
    obtain ⟨rfl, hlast⟩ := append_inj' hall rfl
    cases hlast
    exact ⟨_, _, rfl, hreads, hhop⟩

theorem to_concat (h : c.Reads top required hops (read ++ [hop])) :
    ∃ above hop', hops = above ++ [hop'] ∧ c.Reads top required above read ∧
      c.ReadsHop top required read hop' hop := by
  generalize hall : read ++ [hop] = all at h
  cases h with
  | nil => simp at hall
  | concat hreads hhop =>
    obtain ⟨rfl, hlast⟩ := append_inj' hall rfl
    cases hlast
    exact ⟨_, _, rfl, hreads, hhop⟩

theorem fields_eq (hc : c.Indexed) (h : c.Reads top required hops read)
    (h' : c.Reads top required hops' read) (hplain : ∀ hop ∈ hops, hop.link.readAs = none)
    (hplain' : ∀ hop ∈ hops', hop.link.readAs = none) : hops.map Hop.field = hops'.map Hop.field := by
  induction h generalizing hops' with
  | nil => rw [h'.eq_nil]
  | concat _ hhop ih =>
    obtain ⟨above, hop', rfl, hreads', hhop'⟩ := h'.to_concat
    simp only [forall_mem_append, forall_mem_singleton] at hplain hplain'
    rw [map_append, map_append, ih hreads' hplain.1 hplain'.1, map_singleton,
      map_singleton, hhop.field_eq hc hhop' hplain.2 hplain'.2]

end Reads

theorem ReadsHop.unique (hc : c.Indexed) (hnames : c.PlainlyNamed) {l : Layout} {above : List Hop}
    {hop read read' : Hop} (hchain : c.Chain top l (hops ++ [hop])) (hfields : above.map Hop.field = hops.map Hop.field)
    (h : c.ReadsHop top required above hop read) (h' : c.ReadsHop top required above hop read') : read = read' := by
  cases h with
  | own hown =>
    cases h' with
    | own _ => rfl
    | aliased hl htop hhops harray hpath hfree =>
      cases hop_eq_of_fieldPath hc hnames hl htop hhops hpath hfields hchain
      rcases hown with hrequired | hsingle
      · exact absurd (hpath ▸ hrequired) hfree
      · cases harray.symm.trans hsingle
  | aliased hl htop hhops harray hpath hfree =>
    cases hop_eq_of_fieldPath hc hnames hl htop hhops hpath hfields hchain
    cases h' with
    | own hown =>
      rcases hown with hrequired | hsingle
      · exact absurd (hpath ▸ hrequired) hfree
      · cases harray.symm.trans hsingle
    | aliased hl' htop' hhops' _ hpath' _ =>
      cases hop_eq_of_fieldPath hc hnames hl' htop' hhops' hpath' hfields hchain
      rfl

theorem Reads.unique (hc : c.Indexed) (hnames : c.PlainlyNamed) {l : Layout} {read read' : List Hop}
    (hchain : c.Chain top l hops) (h : c.Reads top required hops read) (h' : c.Reads top required hops read') :
    read = read' := by
  induction h generalizing l read' with
  | nil => exact h'.of_nil.symm
  | concat hreads hhop ih =>
    obtain ⟨above, hop', rfl, hreads', hhop'⟩ := h'.of_concat
    obtain ⟨_, habove⟩ := hchain.init
    cases ih habove hreads'
    have hfields := Hop.map_field_of_plain (hreads.plain_eq hc hnames habove)
    rw [hhop.unique hc hnames hchain hfields hhop']

namespace Chain

variable {l : Layout} {hops' : List Hop}

theorem readAs_eq_none (h : c.Chain top l hops) : ∀ hop ∈ hops, hop.link.readAs = none := by
  induction h with
  | own hl _ => exact fun hop => (layout_eq_ok_iff.mp hl).readAs_of_mem_hops
  | copy hholder hk _ _ ih =>
    simp only [forall_mem_append, forall_mem_singleton]
    refine ⟨ih, ?_⟩
    obtain ⟨_, _, -, hown⟩ := hholder.outlined
    obtain ⟨ref, -, target, -, -, rfl⟩ := (hown.embedsFor.mem_iff _).mp hk
    rfl

theorem own_of_not_embeddable (hc : c.Indexed) (h : c.Chain top l hops) {t : Table}
    (ht : c.table l.table = .ok t) (hrows : t.properties.isEmbeddable = false) : hops = l.hops := by
  cases h with
  | own _ _ => rfl
  | copy hholder hk _ hchild =>
    obtain ⟨_, hl⟩ := hholder.exists_layout
    obtain ⟨held, hheld, -, hembeddable⟩ := exists_held hc hl hk
    rw [hchild] at hheld
    cases ht.symm.trans hheld
    cases hembeddable.symm.trans hrows

end Chain

namespace Chain

variable {l : Layout} {hops' read read' : List Hop}

theorem child_ne_table (hc : c.Indexed) {holder : Layout} (hholder : c.Chain top holder []) {k : Link}
    (hk : k ∈ holder.embeddedKeys) (hrows : c.Chain top l []) : k.child ≠ l.table := by
  have htable : holder.table = l.table := hholder.table_eq.trans hrows.table_eq.symm
  obtain ⟨_, t, ht, hown⟩ := hholder.outlined
  rw [← htable, hown.table]
  exact hown.child_ne_of_mem hc (mem_tables_of_table ht) hk

theorem not_copy_of_own (hc : c.Indexed) {holder : Layout} {k : Link} (hown : c.Chain top l [])
    (hholder : c.Chain top holder hops) (hk : k ∈ holder.embeddedKeys) (hchild : k.child = l.table)
    (hreads : c.Reads top required (hops ++ [⟨.embed, k⟩]) read) : read.dropLast ≠ [] := by
  intro hnil
  obtain ⟨above, _, rfl, habove, -⟩ := hreads.of_concat
  rw [dropLast_concat] at hnil
  rw [hnil] at habove
  cases habove.eq_nil
  exact child_ne_table hc hholder hk hown hchild

theorem eq_of_held (hc : c.Indexed) (h : c.Chain top l hops) (h' : c.Chain top l hops') {t : Table}
    (ht : c.table l.table = .ok t) (hembeddable : t.properties.isEmbeddable)
    (hreads : c.Reads top required hops read) (hreads' : c.Reads top required hops' read')
    (hheld : read.dropLast = read'.dropLast) : hops = hops' := by
  have hnil {name : String} (hl : c.layout name = .ok l) : l.hops = [] := by
    have hout := layout_eq_ok_iff.mp (layout_layout_table hc.keyed hl)
    exact (hout.hops_of_top ht ((hout.outlines ht).exclusive hembeddable)).1
  cases h with
  | own hl htop =>
    cases h' with
    | own _ _ => rfl
    | copy hholder hk _ hchild =>
      have hown := Chain.own hl htop
      rw [hnil hl] at hreads hown
      cases hreads.of_nil
      exact absurd hheld.symm (not_copy_of_own hc hown hholder hk hchild hreads')
  | copy hholder hk _ hchild =>
    cases h' with
    | own hl htop =>
      have hown := Chain.own hl htop
      rw [hnil hl] at hreads' hown
      cases hreads'.of_nil
      exact absurd hheld (not_copy_of_own hc hown hholder hk hchild hreads)
    | copy hholder' hk' _ hchild' =>
      obtain ⟨above, _, rfl, habove, -⟩ := hreads.of_concat
      obtain ⟨above', _, rfl, habove', -⟩ := hreads'.of_concat
      rw [dropLast_concat, dropLast_concat] at hheld
      cases hheld
      have hfields := habove.fields_eq hc habove' hholder.readAs_eq_none hholder'.readAs_eq_none
      cases hholder.layout_eq_of_fields hc hholder' hfields
      cases hholder.eq_of_fields hc hholder' hfields
      obtain ⟨_, _, -, hown⟩ := hholder.outlined
      cases hown.eq_of_child hk hk' (hchild.trans hchild'.symm)
      rfl

end Chain

/-- Two tables of a FROM clause that are read from one place are the same table. Where the names of tables are told
apart on paths, two that are the same table are read from one place, unless copies of its rows are held in two
places. -/
theorem same_place_iff (hc : c.Indexed) {source : FromClause} {placement : Placement}
    (h : c.place source = .ok placement) :
    (∀ s ∈ placement.sources, ∀ s' ∈ placement.sources, s.hops = s'.hops → s.table = s'.table) ∧
    (c.PlainlyNamed → ∀ s ∈ placement.sources, ∀ s' ∈ placement.sources, ∀ t,
      c.table s.table = .ok t →
      (s.hops = s'.hops ↔ s.table = s'.table ∧
        (t.properties.isEmbeddable → s.hops.dropLast = s'.hops.dropLast))) := by
  obtain ⟨required, hplaced⟩ := reads_of_place hc h
  have htables (s : Source) (hs : s ∈ placement.sources) (s' : Source) (hs' : s' ∈ placement.sources)
      (hhops : s.hops = s'.hops) : s.table = s'.table := by
    obtain ⟨l, hops, htable, hchain, hreads⟩ := hplaced s hs
    obtain ⟨l', hops', htable', hchain', hreads'⟩ := hplaced s' hs'
    rw [← hhops] at hreads'
    rw [htable, htable', hchain.table_eq, hchain'.table_eq,
      hreads.fields_eq hc hreads' hchain.readAs_eq_none hchain'.readAs_eq_none]
  refine ⟨htables, fun hnames s hs s' hs' t ht => ⟨fun hhops => ?_, fun ⟨hsame, hheld⟩ => ?_⟩⟩
  · exact ⟨htables s hs s' hs' hhops, fun _ => by rw [hhops]⟩
  · obtain ⟨l, hops, htable, hchain, hreads⟩ := hplaced s hs
    obtain ⟨l', hops', htable', hchain', hreads'⟩ := hplaced s' hs'
    rw [htable] at ht hsame
    rw [htable'] at hsame
    obtain ⟨_, hl⟩ := hchain.exists_layout
    obtain ⟨_, hl'⟩ := hchain'.exists_layout
    cases eq_of_layout_table hc hl hl' hsame
    have hways : hops = hops' := by
      cases hembeddable : t.properties.isEmbeddable with
      | false =>
        rw [hchain.own_of_not_embeddable hc ht hembeddable,
          hchain'.own_of_not_embeddable hc ht hembeddable]
      | true => exact hchain.eq_of_held hc hchain' ht hembeddable hreads hreads' (hheld hembeddable)
    cases hways
    exact hreads.unique hc hnames hchain hreads'

def person : Table :=
  { name := "person", columns := [⟨"id", .integer, false⟩, ⟨"boss", .integer, false⟩]
    primaryKey := ["id"], foreignKeys := [⟨"person_boss", ["boss"], "person", ["id"]⟩] }

def maker : Table :=
  { name := "maker", columns := [⟨"id", .integer, false⟩], primaryKey := ["id"]
    properties := { embeddable := true } }

def firm : Catalog :=
  .ofTables
    [person,
     { name := "orders", columns := [⟨"id", .integer, false⟩, ⟨"maker_id", .integer, false⟩]
       primaryKey := ["id"], foreignKeys := [⟨"orders_maker", ["maker_id"], "maker", ["id"]⟩] },
     { name := "items"
       columns := [⟨"no", .integer, false⟩, ⟨"order_id", .integer, false⟩, ⟨"maker_id", .integer, false⟩]
       primaryKey := ["no"]
       foreignKeys := [⟨"items_order", ["order_id"], "orders", ["id"]⟩, ⟨"items_maker", ["maker_id"], "maker", ["id"]⟩]
       properties := { mergeInto := some "orders" } }, maker]

def equal (a b : ColumnRef) : Option Expression := some (.comparison .eq (.column a) (.column b))

def bosses : FromClause where
  base := ⟨"person", some "p"⟩
  joins := [⟨.inner, ⟨"person", some "b"⟩, equal ⟨"p", "boss"⟩ ⟨"b", "id"⟩⟩]

def bossPlacement : Placement where
  top := "person"
  sources := [⟨"p", "person", [], false⟩, ⟨"b", "person", [], false⟩]
  joins := [⟨"b", false, equal ⟨"p", "boss"⟩ ⟨"b", "id"⟩, false⟩]

def makers : FromClause where
  base := ⟨"orders", none⟩
  joins := [⟨.inner, ⟨"items", none⟩, none⟩,
    ⟨.inner, ⟨"maker", some "m"⟩, equal ⟨"orders", "maker_id"⟩ ⟨"m", "id"⟩⟩,
    ⟨.inner, ⟨"maker", some "n"⟩, equal ⟨"items", "maker_id"⟩ ⟨"n", "id"⟩⟩]

def makerHop (holder name : String) : Hop :=
  ⟨.embed, { name := name, parent := holder, child := "maker", columns := ["maker_id"]
             referencedColumns := ["id"], association := .one }⟩

def itemsHop : Hop :=
  ⟨.merge, { name := "items_order", parent := "orders", child := "items", columns := ["order_id"]
             referencedColumns := ["id"], association := .many }⟩

def makerPlacement : Placement where
  top := "orders"
  sources := [⟨"orders", "orders", [], false⟩, ⟨"items", "items", [itemsHop], false⟩,
    ⟨"m", "maker", [makerHop "orders" "orders_maker"], false⟩,
    ⟨"n", "maker", [itemsHop, makerHop "items" "items_maker"], false⟩]
  joins := [⟨"items", false, none, true⟩,
    ⟨"m", false, equal ⟨"orders", "maker_id"⟩ ⟨"m", "id"⟩, false⟩,
    ⟨"n", false, equal ⟨"items", "maker_id"⟩ ⟨"n", "id"⟩, false⟩]
  prestages := [.flatten "items", .present "maker", .present "items.maker"]

/-- A person and the boss are read from the same document. The makers of an order and of its items are
read from different places. -/
theorem same_place_bosses :
    firm.Indexed ∧ firm.PlainlyNamed ∧ firm.place bosses = .ok bossPlacement ∧
      firm.place makers = .ok makerPlacement ∧
      (∀ s ∈ bossPlacement.sources, ∀ s' ∈ bossPlacement.sources, s.hops = s'.hops) ∧
      makerPlacement.sources.Pairwise fun s s' => s.hops ≠ s'.hops := by
  have hc : firm.Indexed := indexed_ofTables _
  have hnames : firm.PlainlyNamed := by decide +kernel
  have hbosses : firm.place bosses = .ok bossPlacement := rfl
  have hmakers : firm.place makers = .ok makerPlacement := rfl
  refine ⟨hc, hnames, hbosses, hmakers, fun s hs s' hs' => ?_, ?_⟩
  · have htables : ∀ s ∈ bossPlacement.sources, s.table = "person" := by decide +kernel
    have ht : firm.table s.table = .ok person := by rw [htables s hs]; rfl
    refine ((same_place_iff hc hbosses).2 hnames s hs s' hs' person ht).mpr ⟨?_, nofun⟩
    rw [htables s hs, htables s' hs']
  · have hapart : makerPlacement.sources.Pairwise fun s s' =>
        s.table ≠ s'.table ∨ s.table = "maker" ∧ s.hops.dropLast ≠ s'.hops.dropLast := by
      decide +kernel
    refine hapart.imp_of_mem fun {s s'} hs hs' hne hhops => ?_
    rcases hne with htable | ⟨htable, hheld⟩
    · exact htable ((same_place_iff hc hmakers).1 s hs s' hs' hhops)
    · have ht : firm.table s.table = .ok maker := by rw [htable]; rfl
      exact hheld (((same_place_iff hc hmakers).2 hnames s hs s' hs' maker ht).mp hhops |>.2 rfl)

end Pushdown.Catalog
