import Mathlib.Data.List.Induction
import Pushdown.Proofs.CopyLinks
import Pushdown.Proofs.Path
import Pushdown.Query.Placement

/-!
# Where a FROM clause finds its tables

`Chain`: the hops by which a table is reached in the documents of a collection, by merges to its own rows, and from
rows to the copies that they hold. The fields on the way determine the chain (`eq_of_fields`). What taking a seat
keeps holds of all tables when they have their places (`Seated`), and planning reads the hops of a chain, apart from
arrays that are read under another field (`Reads`).
-/

namespace Pushdown

open List Candidate Hop HopPlan

def Hop.plain (h : Hop) : Hop := { h with link := { h.link with readAs := none } }

theorem Hop.map_field_of_plain {hops hops' : List Hop} (h : hops.map plain = hops'.map plain) :
    hops.map field = hops'.map field := by
  have hfields := congrArg (List.map field) h
  rwa [map_map, map_map] at hfields

variable {above : List Hop}

theorem Hop.eq_append_of_plain {hops : List Hop} {kind : HopKind} {k : Link}
    (h : hops.map plain = (above ++ [(⟨kind, k⟩ : Hop)]).map plain) :
    ∃ above' read, hops = above' ++ [⟨kind, { k with readAs := read }⟩] ∧
      above'.map Hop.kind = above.map Hop.kind := by
  rw [map_append] at h
  obtain ⟨above', rest, rfl, habove, hrest⟩ := map_eq_append_iff.mp h
  obtain ⟨⟨kind', k'⟩, rfl, hlast⟩ := map_eq_singleton_iff.mp hrest
  have hkinds := congrArg (List.map Hop.kind) habove
  rw [map_map, map_map] at hkinds
  refine ⟨above', k'.readAs, ?_, hkinds⟩
  simp only [plain, Hop.mk.injEq, Link.mk.injEq] at hlast
  obtain ⟨rfl, hname, hparent, hchild, hcolumns, hreferenced, hassociation, -⟩ := hlast
  rw [← hname, ← hparent, ← hchild, ← hcolumns, ← hreferenced, ← hassociation]

namespace Catalog

variable {c : Catalog} {top : String} {l : Layout} {hops : List Hop} {name : String}
  {joins : List JoinStep} {required : List String} {k : Link} {t : Candidate}
  {others : List Candidate}

/-- The hops by which rows of a table, or copies of them, are reached in the documents of `top`. -/
inductive Chain (c : Catalog) (top : String) : Layout → List Hop → Prop
  | own {name : String} {l : Layout} :
      c.layout name = .ok l → l.collection = top → Chain c top l l.hops
  | copy {l held : Layout} {hops : List Hop} {name : String} {k : Link} :
      Chain c top l hops → k ∈ l.embeddedKeys → c.layout name = .ok held → k.child = held.table →
      Chain c top held (hops ++ [⟨.embed, k⟩])

variable {a b : String} {l' : Layout} {hop : Hop} {motive : Candidate → Prop} {layouts : List Layout}
  {before : List Hop}

theorem eq_of_layout_table (hc : c.Indexed) {l : Layout} (hl : c.layout a = .ok l) (hl' : c.layout b = .ok l')
    (htable : l.table = l'.table) : l = l' := by
  have hsame := layout_layout_table hc.keyed hl
  rw [htable, layout_layout_table hc.keyed hl'] at hsame
  exact (Except.ok.inj hsame).symm

theorem exists_held (hc : c.Indexed) (hl : c.layout a = .ok l) (hk : k ∈ l.embeddedKeys) :
    ∃ held, c.table k.child = .ok held ∧ held.name = k.child ∧ held.properties.isEmbeddable := by
  obtain ⟨_, _, hown⟩ := exists_outlines hl
  exact hown.exists_held hc hk

theorem hops_of_held (hc : c.Indexed) {l held : Layout} (hl : c.layout a = .ok l) (hk : k ∈ l.embeddedKeys)
    (hheld : c.layout b = .ok held) (hchild : k.child = held.table) : held.hops = [] := by
  obtain ⟨t, ht, -, hembeddable⟩ := exists_held hc hl hk
  have hout := layout_eq_ok_iff.mp (layout_layout_table hc.keyed hheld)
  rw [hchild] at ht
  exact (hout.hops_of_top ht ((hout.outlines ht).exclusive hembeddable)).1

namespace Chain

variable {hops' : List Hop}

theorem exists_layout (h : c.Chain top l hops) : ∃ name, c.layout name = .ok l := by
  cases h with
  | own hl _ | copy _ _ hl _ => exact ⟨_, hl⟩

theorem outlined (h : c.Chain top l hops) : ∃ name t, c.table name = .ok t ∧ c.Outlines t l.toTableLayout := by
  obtain ⟨name, hl⟩ := h.exists_layout
  exact ⟨name, exists_outlines hl⟩

theorem table_eq (h : c.Chain top l hops) : l.table = ((hops.map Hop.field).getLast?).getD top := by
  cases h with
  | own hl htop => rw [← htop, ← (layout_eq_ok_iff.mp hl).table_eq]
  | copy _ _ _ hchild =>
    rw [map_append, map_singleton, getLast?_concat]
    exact hchild.symm

theorem init (h : c.Chain top l (hops ++ [hop])) : ∃ above, c.Chain top above hops := by
  generalize hall : hops ++ [hop] = all at h
  cases h with
  | own hl htop =>
    obtain ⟨_, parent, hparent, rfl, hcollection⟩ := (layout_eq_ok_iff.mp hl).exists_of_hops_append hall.symm
    exact ⟨parent, .own (layout_eq_ok_iff.mpr hparent) (hcollection.trans htop)⟩
  | copy hholder _ _ _ =>
    cases (append_inj' hall rfl).1
    exact ⟨_, hholder⟩

theorem of_append {rest : List Hop} (h : c.Chain top l (hops ++ rest)) : ∃ above, c.Chain top above hops := by
  induction rest using List.reverseRecOn generalizing l with
  | nil => exact ⟨l, by rwa [append_nil] at h⟩
  | append_singleton rest hop ih =>
    rw [← append_assoc] at h
    obtain ⟨above, habove⟩ := h.init
    exact ih habove

theorem holder {k : Link} (h : c.Chain top l (hops ++ [⟨.embed, k⟩])) :
    ∃ holder, c.Chain top holder hops ∧ k ∈ holder.embeddedKeys := by
  generalize hall : hops ++ [(⟨.embed, k⟩ : Hop)] = all at h
  cases h with
  | own hl _ =>
    have hmem : (⟨.embed, k⟩ : Hop) ∈ l.hops := by simp [← hall]
    cases ((layout_eq_ok_iff.mp hl).of_mem_hops hmem).1
  | copy hholder hk _ _ =>
    obtain ⟨rfl, hlast⟩ := append_inj' hall rfl
    cases hlast
    exact ⟨_, hholder, hk⟩

theorem own_of_merges (h : c.Chain top l hops) (hmerges : ∀ hop ∈ hops, hop.kind = .merge) :
    hops = l.hops ∧ l.collection = top := by
  cases h with
  | own _ htop => exact ⟨rfl, htop⟩
  | copy _ _ _ _ => cases hmerges _ (mem_append_right _ (mem_singleton_self _))

theorem fields_ne (hc : c.Indexed) {name : String} {held : Layout} {k : Link} (hl : c.layout name = .ok l)
    (htop : l.collection = top) (hholder : c.Chain top l' hops) (hk : k ∈ l'.embeddedKeys)
    (hheld : c.layout b = .ok held) (hchild : k.child = held.table) :
    l.hops.map Hop.field ≠ (hops ++ [(⟨.embed, k⟩ : Hop)]).map Hop.field := by
  intro hfields
  have htable : l.table = held.table := by
    rw [(Chain.own hl htop).table_eq, hfields, ← (hholder.copy hk hheld hchild).table_eq]
  obtain ⟨_, hl'⟩ := hholder.exists_layout
  rw [eq_of_layout_table hc hl hheld htable, hops_of_held hc hl' hk hheld hchild] at hfields
  simp at hfields

variable (hc : c.Indexed) (h : c.Chain top l hops) (h' : c.Chain top l' hops')
  (hfields : hops.map Hop.field = hops'.map Hop.field)

include hc h h' hfields

theorem layout_eq_of_fields : l = l' := by
  obtain ⟨_, hl⟩ := h.exists_layout
  obtain ⟨_, hl'⟩ := h'.exists_layout
  exact eq_of_layout_table hc hl hl' (by rw [h.table_eq, h'.table_eq, hfields])

theorem eq_of_fields : hops = hops' := by
  -- along the chain from its end: the last field tells rows from copies, and a holder has at most one
  -- link to the table of that name
  induction h generalizing l' hops' with
  | own hl htop =>
    cases h' with
    | own hl' htop' => rw [layout_eq_of_fields hc (.own hl htop) (.own hl' htop') hfields]
    | copy hholder hk hheld hchild =>
      cases fields_ne hc hl htop hholder hk hheld hchild hfields
  | copy hholder hk hheld hchild ih =>
    cases h' with
    | own hl htop => cases fields_ne hc hl htop hholder hk hheld hchild hfields.symm
    | copy hholder' hk' _ hchild' =>
      rw [map_append, map_append] at hfields
      obtain ⟨habove, hlast⟩ := append_inj' hfields rfl
      cases layout_eq_of_fields hc hholder hholder' habove
      cases ih hholder' habove
      obtain ⟨_, _, -, hown⟩ := hholder.outlined
      cases hown.eq_of_child hk hk' (head_eq_of_cons_eq hlast)
      rfl

end Chain

/-- A table of a FROM clause that is reached by a chain, if it has its place. -/
structure Seated (c : Catalog) (top : String) (t : Candidate) : Prop where
  layout : ∃ name, c.layout name = .ok t.layout
  chain : ∀ hops, t.hops = some hops → c.Chain top t.layout hops

theorem Indexed.name_eq_of_same (hc : c.Indexed) (ha : ∃ t ∈ c.tables, t.name = a) (hb : ∃ t ∈ c.tables, t.name = b)
    (hsame : Text.same a b) : a = b := by
  obtain ⟨t, ht, rfl⟩ := ha
  obtain ⟨u, hu, rfl⟩ := hb
  exact congrArg Table.name (hc.eq_of_same ht hu hsame)

theorem layout_table_mem (hl : c.layout name = .ok l) : ∃ t ∈ c.tables, t.name = l.table := by
  obtain ⟨t, ht, hname⟩ := layout_table hl
  exact ⟨t, mem_tables_of_table ht, hname.symm⟩

theorem child_mem (hc : c.Indexed) (hl : c.layout name = .ok l) (hk : k ∈ l.embeddedKeys) :
    ∃ t ∈ c.tables, t.name = k.child := by
  obtain ⟨t, ht, hname, -⟩ := exists_held hc hl hk
  exact ⟨t, mem_tables_of_table ht, hname⟩

theorem of_seatBelow? {table : String} {holder : Candidate} (h : seatBelow? table holder = some hops) :
    ∃ above k, holder.hops = some above ∧ k ∈ holder.layout.embeddedKeys ∧ Text.same k.child table ∧
      hops = above ++ [⟨.embed, k⟩] := by
  rw [seatBelow?] at h
  split at h
  · cases h
  · rename_i above habove
    obtain ⟨k, hfound, rfl⟩ := Option.map_eq_some_iff.mp h
    exact ⟨above, k, habove, mem_of_find?_eq_some hfound, by simpa using find?_some hfound, rfl⟩

theorem of_seat? (h : seat? joins others t = some hops) :
    ∃ holder ∈ others, seatBelow? t.layout.table holder = some hops := by
  rw [seat?] at h
  split at h
  · rename_i hfound
    cases h
    obtain ⟨holder, hholder, hseat⟩ := exists_of_findSome?_eq_some hfound
    exact ⟨holder, mem_of_mem_filter hholder, hseat⟩
  · exact exists_of_findSome?_eq_some h

section

variable (hc : c.Indexed) (hothers : ∀ o ∈ others, c.Seated top o) (ht : c.Seated top t)
  (h : Candidate.seat? joins others t = some hops)

include hc hothers ht h

theorem Seated.of_seat? :
    ∃ holder ∈ others, ∃ above k, holder.hops = some above ∧ k ∈ holder.layout.embeddedKeys ∧
      k.child = t.layout.table ∧ hops = above ++ [⟨.embed, k⟩] := by
  obtain ⟨holder, hmem, hbelow⟩ := Catalog.of_seat? h
  obtain ⟨above, k, habove, hk, hsame, rfl⟩ := of_seatBelow? hbelow
  obtain ⟨_, hl⟩ := (hothers holder hmem).layout
  obtain ⟨_, hheld⟩ := ht.layout
  exact ⟨holder, hmem, above, k, habove, hk,
    hc.name_eq_of_same (child_mem hc hl hk) (layout_table_mem hheld) hsame, rfl⟩

theorem Seated.seat : c.Seated top { t with hops := some hops } := by
  refine ⟨ht.layout, fun hops' heq => ?_⟩
  cases heq
  obtain ⟨holder, hmem, above, k, habove, hk, hchild, rfl⟩ := ht.of_seat? hc hothers h
  obtain ⟨_, hheld⟩ := ht.layout
  exact ((hothers holder hmem).chain above habove).copy hk hheld hchild

end

section

variable
  (hseat : ∀ others t hops, (∀ o ∈ others, motive o) → motive t → Candidate.seat? joins others t = some hops →
      motive { t with hops := some hops })

include hseat

theorem forall_placeRound {before rest : List Candidate} (h : ∀ t ∈ before ++ rest, motive t) :
    ∀ t ∈ placeRound joins before rest, motive t := by
  induction rest generalizing before with
  | nil => simpa [placeRound] using h
  | cons t rest ih =>
    rw [placeRound]
    have ht := h t (by simp)
    refine ih fun o ho => ?_
    rw [append_assoc, mem_append, singleton_append, mem_cons] at ho
    rcases ho with ho | rfl | ho
    · exact h o (mem_append_left _ ho)
    · split
      · exact ht
      · rename_i hnone
        cases hfound : seat? joins (before ++ t :: rest) t with
        | none => rwa [← hnone]
        | some hops => exact hseat _ t hops h ht hfound
    · exact h o (by simp [ho])

theorem forall_placeRounds {rounds : Nat} {tables placed : List Candidate} (htables : ∀ t ∈ tables, motive t)
    (h : placeRounds joins rounds tables = some placed) : ∀ t ∈ placed, motive t ∧ t.isPlaced := by
  induction rounds generalizing tables with
  | zero =>
    rw [placeRounds] at h
    split at h
    · rename_i hall
      cases h
      exact fun t ht => ⟨htables t ht, List.all_eq_true.mp hall t ht⟩
    · cases h
  | succ rounds ih =>
    rw [placeRounds] at h
    split at h
    · rename_i hall
      cases h
      exact fun t ht => ⟨htables t ht, List.all_eq_true.mp hall t ht⟩
    · extract_lets next at h
      split at h
      · cases h
      · exact ih (forall_placeRound hseat htables) h

end

theorem commonTop?_ok (hc : c.Indexed) (hlayouts : ∀ l ∈ layouts, ∃ name, c.layout name = .ok l)
    (h : commonTop? layouts = some top) :
    (∃ t ∈ c.tables, t.name = top) ∧ ∀ l ∈ layouts, l.isEmbeddable = false → l.collection = top := by
  unfold commonTop? at h
  split at h
  · rename_i first rest hfilter
    have hmem (l : Layout) (hl : l ∈ layouts) (hown : l.isEmbeddable = false) : l ∈ first :: rest := by
      rw [← hfilter]
      exact mem_filter.mpr ⟨hl, by rw [hown]; rfl⟩
    split at h
    · rename_i hall
      cases h
      have htop (l : Layout) (hl : l ∈ first :: rest) : ∃ t ∈ c.tables, t.name = l.collection := by
        obtain ⟨_, hl⟩ := hlayouts l (mem_of_mem_filter (hfilter ▸ hl))
        exact (layout_eq_ok_iff.mp hl).collection_mem
      have hfirst := htop first (mem_cons_self ..)
      refine ⟨hfirst, fun l hl hown => hc.name_eq_of_same (htop l (hmem l hl hown)) hfirst ?_⟩
      rcases mem_cons.mp (hmem l hl hown) with rfl | hl
      · exact Text.same_refl _
      · exact List.all_eq_true.mp hall l hl
    · cases h
  · rename_i hfilter
    have hnone (l : Layout) (hl : l ∈ layouts) : ¬l.isEmbeddable = false := fun hown => by
      have : l ∈ layouts.filter (!·.isEmbeddable) := mem_filter.mpr ⟨hl, by rw [hown]; rfl⟩
      rw [hfilter] at this
      cases this
    split at h
    · rename_i l
      cases h
      obtain ⟨_, hl⟩ := hlayouts l (mem_singleton_self _)
      exact ⟨layout_table_mem hl, fun l hl hown => absurd hown (hnone l hl)⟩
    · cases h

theorem chain_of_ownHops? (hc : c.Indexed) (hl : c.layout name = .ok l)
    (htop : ∃ t ∈ c.tables, t.name = top) (hown : l.isEmbeddable = false → l.collection = top)
    (h : ownHops? top l = some hops) : c.Chain top l hops := by
  rw [ownHops?] at h
  split at h
  · rename_i hembeddable
    cases h
    exact .own hl (hown (by simpa using hembeddable))
  · rename_i hembeddable
    split at h
    · rename_i hsame
      cases h
      obtain ⟨hhops, hcollection⟩ := (layout_eq_ok_iff.mp hl).hops_of_embeddable (by simpa using hembeddable)
      rw [← hhops]
      exact .own hl (hcollection.trans (hc.name_eq_of_same (layout_table_mem hl) htop hsame))
    · cases h

def PlainlyNamed (c : Catalog) : Prop := ∀ t ∈ c.tables, Path.IsName t.name

instance (c : Catalog) : Decidable c.PlainlyNamed := inferInstanceAs (Decidable (∀ t ∈ _, _))

theorem Chain.field_mem (hc : c.Indexed) (h : c.Chain top l hops) (hhop : hop ∈ hops) :
    ∃ t ∈ c.tables, t.name = hop.field := by
  induction h with
  | own hl _ =>
    exact ((layout_eq_ok_iff.mp hl).of_mem_hops hhop).2
  | copy hholder hk _ _ ih =>
    rcases mem_append.mp hhop with hhop | hhop
    · exact ih hhop
    · rw [mem_singleton.mp hhop]
      obtain ⟨_, hl⟩ := hholder.exists_layout
      exact child_mem hc hl hk

theorem Chain.isName (hc : c.Indexed) (hnames : c.PlainlyNamed) (h : c.Chain top l hops) :
    ∀ s ∈ hops.map Hop.field, Path.IsName s := by
  intro s hs
  obtain ⟨hop, hhop, rfl⟩ := mem_map.mp hs
  obtain ⟨t, ht, hname⟩ := h.field_mem hc hhop
  exact hname ▸ hnames t ht

theorem Chain.eq_of_fieldPath (hc : c.Indexed) (hnames : c.PlainlyNamed) {l : Layout} {hops hops' : List Hop}
    {hop' : Hop} (h : c.Chain top l (hops ++ [hop])) (h' : c.Chain top l' (hops' ++ [hop']))
    (hpath : fieldPath (hops ++ [hop]) = fieldPath (hops' ++ [hop'])) : hops ++ [hop] = hops' ++ [hop'] :=
  h.eq_of_fields hc h' (Path.join_injective (by simp) (by simp) (h.isName hc hnames) (h'.isName hc hnames) hpath)

/-- How a hop is read below hops that are read as `above`: under its own field, when it is required or
leads to a single row, or else as an array at the same path that is read under a field of its own. -/
inductive ReadsHop (c : Catalog) (top : String) (required : List String) (above : List Hop)
    (hop : Hop) : Hop → Prop
  | own : Hop.fieldPath (above ++ [hop]) ∈ required ∨ hop.isArray = false → ReadsHop c top required above hop hop
  | aliased {name : String} {l : Layout} {before : List Hop} {array : Hop} :
      c.layout name = .ok l → l.collection = top → l.hops = before ++ [array] → array.isArray →
      Hop.fieldPath l.hops = Hop.fieldPath (above ++ [hop]) → Hop.fieldPath l.hops ∉ required →
      ReadsHop c top required above hop (array.aliased ("__" ++ array.field))

/-- How the hops of a chain are read. -/
inductive Reads (c : Catalog) (top : String) (required : List String) : List Hop → List Hop → Prop
  | nil : Reads c top required [] []
  | concat {hops read : List Hop} {hop hop' : Hop} : Reads c top required hops read →
      ReadsHop c top required read hop hop' → Reads c top required (hops ++ [hop]) (read ++ [hop'])

/-- The hops that are read under another field are found by the fields on the way to them. -/
def Knows (c : Catalog) (top : String) (required : List String) (plan : HopPlan) : Prop :=
  ∀ e ∈ plan.aliased, ∃ (name : String) (l : Layout) (before : List Hop) (array : Hop),
    c.layout name = .ok l ∧ l.collection = top ∧ l.hops = before ++ [array] ∧ array.isArray ∧
      e = (Hop.fieldPath l.hops, array.aliased ("__" ++ array.field)) ∧ Hop.fieldPath l.hops ∉ required

theorem isArray_of_mem_embeddedKeys (hl : c.layout name = .ok l) (hk : k ∈ l.embeddedKeys) :
    isArray ⟨.embed, k⟩ = false := by
  obtain ⟨_, _, hown⟩ := exists_outlines hl
  obtain ⟨ref, -, target, -, -, rfl⟩ := (hown.embedsFor.mem_iff k).mp hk
  rfl

theorem Chain.own_of_isArray (h : c.Chain top l (hops ++ [hop])) (harray : hop.isArray) :
    ∃ name, c.layout name = .ok l ∧ l.collection = top ∧ l.hops = hops ++ [hop] := by
  generalize hall : hops ++ [hop] = all at h
  cases h with
  | own hl htop => exact ⟨_, hl, htop, rfl⟩
  | copy hholder hk _ _ =>
    obtain ⟨_, hl⟩ := hholder.exists_layout
    cases (append_inj' hall rfl).2
    rw [isArray_of_mem_embeddedKeys hl hk] at harray
    cases harray

theorem Reads.eq_of_plain {hops read : List Hop} (h : c.Reads top required hops read)
    (hplain : ∀ hop ∈ read, hop.link.readAs = none) : read = hops := by
  induction h with
  | nil => rfl
  | concat hreads hhop ih =>
    rw [ih fun hop hmem => hplain hop (mem_append_left _ hmem)]
    cases hhop with
    | own _ => rfl
    | aliased _ _ _ _ _ _ => cases hplain _ (mem_append_right _ (mem_singleton_self _))

theorem hop_eq_of_fieldPath (hc : c.Indexed) (hnames : c.PlainlyNamed) {l : Layout} {hops : List Hop} {array : Hop}
    (hl : c.layout name = .ok l) (htop : l.collection = top) (hhops : l.hops = before ++ [array])
    (hpath : fieldPath l.hops = fieldPath (above ++ [hop])) (hfields : above.map Hop.field = hops.map Hop.field)
    (hchain : c.Chain top l' (hops ++ [hop])) : array = hop := by
  have harray := Chain.own hl htop
  rw [hhops] at harray hpath
  have hsame : fieldPath (above ++ [hop]) = fieldPath (hops ++ [hop]) := by
    rw [fieldPath, fieldPath, map_append, map_append, hfields]
  obtain ⟨-, hlast⟩ := append_inj'
    (harray.eq_of_fieldPath hc hnames hchain (hpath.trans hsame)) rfl
  exact head_eq_of_cons_eq hlast

theorem Reads.plain_eq (hc : c.Indexed) (hnames : c.PlainlyNamed) {hops read : List Hop}
    (h : c.Reads top required hops read) (hchain : c.Chain top l hops) : read.map plain = hops.map plain := by
  induction h generalizing l with
  | nil => rfl
  | @concat hops read hop hop' hreads hhop ih =>
    obtain ⟨above, habove⟩ := hchain.init
    have hsame := ih habove
    rw [map_append, map_append, hsame, map_singleton, map_singleton]
    cases hhop with
    | own _ => rfl
    | aliased hl htop hhops _ hpath _ =>
      cases hop_eq_of_fieldPath hc hnames hl htop hhops hpath (map_field_of_plain hsame) hchain
      rfl

theorem planHops_ok {rest hops : List Hop} {plan plan' : HopPlan} (hchain : c.Chain top l (before ++ rest))
    (habove : c.Reads top required before above) (hknows : c.Knows top required plan)
    (h : planHops required above rest plan = .ok (hops, plan')) :
    c.Reads top required (before ++ rest) hops ∧ c.Knows top required plan' := by
  induction rest generalizing above before plan with
  | nil =>
    cases h
    rw [append_nil]
    exact ⟨habove, hknows⟩
  | cons hop rest ih =>
    rw [append_cons] at hchain ⊢
    rw [planHops] at h
    extract_lets prestages name read at h
    split at h
    · rename_i known hknown
      obtain ⟨_, _, _, _, hl, htop, hhops, harray, heq, hfree⟩ := hknows _ (mem_of_lookup hknown)
      obtain ⟨hkey, rfl⟩ := Prod.mk.inj heq
      exact ih hchain (habove.concat (.aliased hl htop hhops harray hkey.symm hfree)) hknows h
    · split at h
      · rename_i hrequired
        refine ih hchain (habove.concat (.own (.inl (by simpa using hrequired)))) ?_ h
        exact hknows
      · rename_i hfree
        split at h
        · rename_i harray
          split at h
          · cases h
          · rename_i hread
            -- nothing above is read under another field, so that this is where the array lies
            have hsame := habove.eq_of_plain (by simpa using hread)
            obtain ⟨l', hstart⟩ := hchain.of_append
            obtain ⟨table, hl', htop, hhops⟩ := hstart.own_of_isArray harray
            have hkey : fieldPath l'.hops = fieldPath (above ++ [hop]) := by
              rw [hhops, ← hsame]
            have hnew : fieldPath l'.hops ∉ required := by rw [hkey]; simpa using hfree
            refine ih hchain (habove.concat (.aliased hl' htop hhops harray hkey hnew)) ?_ h
            refine forall_mem_cons.mpr ⟨?_, hknows⟩
            exact ⟨table, l', before, hop, hl', htop, hhops, harray, by rw [hkey], hnew⟩
        · rename_i harray
          exact ih hchain (habove.concat (.own (.inr (by simpa using harray)))) hknows h

theorem planSources_ok {sources planned : List Source} {plan plan' : HopPlan}
    (hchains : ∀ s ∈ sources, ∃ l, c.Chain top l s.hops) (hknows : c.Knows top required plan)
    (h : planSources required sources plan = .ok (planned, plan')) :
    List.Forall₂ (fun s s' => s' = { s with hops := s'.hops } ∧ c.Reads top required s.hops s'.hops)
      sources planned := by
  induction sources generalizing planned plan with
  | nil =>
    cases h
    exact .nil
  | cons s sources ih =>
    rw [planSources] at h
    obtain ⟨⟨hops, plan₁⟩, hhops, h⟩ := exists_of_bind_ok h
    obtain ⟨⟨rest, plan₂⟩, hrest, h⟩ := exists_of_bind_ok h
    cases h
    obtain ⟨⟨l, hchain⟩, hchains⟩ := forall_mem_cons.mp hchains
    have hfromTop : c.Chain top l ([] ++ s.hops) := hchain
    obtain ⟨hreads, hknows₁⟩ := planHops_ok hfromTop .nil hknows hhops
    exact .cons ⟨rfl, hreads⟩ (ih hchains hknows₁ hrest)

/-- A table of a FROM clause with the place that its own layout gives it. -/
def candidate (top : String) (t : TableRef × Bool) (l : Layout) : Candidate :=
  { ref := t.1, optional := t.2, layout := l, hops := ownHops? top l }

theorem seated_candidates (hc : c.Indexed) {tables : List (TableRef × Bool)}
    (hlayouts : ∀ l ∈ layouts, ∃ name, c.layout name = .ok l) (h : commonTop? layouts = some top) :
    ∀ t ∈ List.zipWith (candidate top) tables layouts, c.Seated top t := by
  obtain ⟨htop, hown⟩ := commonTop?_ok hc hlayouts h
  intro t ht
  rw [← map_uncurry_zip_eq_zipWith] at ht
  obtain ⟨⟨x, l⟩, hx, rfl⟩ := mem_map.mp ht
  have hl := (of_mem_zip hx).2
  obtain ⟨name, hname⟩ := hlayouts l hl
  exact ⟨⟨name, hname⟩, fun _ => chain_of_ownHops? hc hname htop (hown l hl)⟩

theorem place_eq_ok_iff {source : FromClause} {placement : Placement} :
    c.place source = .ok placement ↔
      ∃ (tables : List (TableRef × Bool)) (joins : List JoinStep) (layouts : List Layout) (placed : List Candidate),
        source.normalize = .ok (tables, joins) ∧
        (tables.mapM fun t => c.layout t.1.name) = .ok layouts ∧
        commonTop? layouts = some placement.top ∧
        placeRounds joins tables.length
          (List.zipWith (candidate placement.top) tables layouts) = some placed ∧
        plan (placed.map sourceOf) = .ok (placement.sources, placement.prestages) ∧
        placement.joins = joins.map fun j => { j with many := readsArray placement.sources j.name } := by
  constructor
  · intro h
    rw [place] at h
    obtain ⟨⟨tables, joins⟩, hnormalize, h⟩ := exists_of_bind_ok h
    obtain ⟨layouts, hlayouts, h⟩ := exists_of_bind_ok h
    extract_lets apart at h
    split at h
    · cases h
    · rename_i top htop
      extract_lets candidates at h
      split at h
      · cases h
      · rename_i placed hplaced
        obtain ⟨⟨sources, prestages⟩, hplan, h⟩ := exists_of_bind_ok h
        cases h
        exact ⟨tables, joins, layouts, placed, hnormalize, ok_of_mapError hlayouts, htop, hplaced, hplan, rfl⟩
  · obtain ⟨top, sources, joins, prestages⟩ := placement
    rintro ⟨tables, steps, layouts, placed, hnormalize, hlayouts, htop, hplaced, hplan, hjoins⟩
    dsimp only at htop hplaced hplan hjoins
    subst hjoins
    have hcandidates : List.zipWith (fun (t : TableRef × Bool) l =>
        ({ ref := t.1, optional := t.2, layout := l, hops := ownHops? top l } : Candidate)) tables layouts =
        List.zipWith (candidate top) tables layouts := rfl
    rw [place, hnormalize]
    simp only [bind, Except.bind, hlayouts, Except.mapError, htop, hcandidates, hplaced, hplan]
    rfl

end Catalog

end Pushdown
