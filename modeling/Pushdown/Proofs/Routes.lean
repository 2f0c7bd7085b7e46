import Mathlib.Data.List.Nodup
import Pushdown.Proofs.LinkGraph

/-!
# Routes

`IsRoute`: a route leads from the documents of a table down to rows of another, hop by hop (`LeadsOut`), along
merges and along copies, and ends where it first comes to that table. `routes_listed`: the search for routes goes
down every hop in turn, puts the hop in front of what it finds below, and lists each route once (`ListsRoutes`).
-/

namespace Pushdown.Catalog

open Relation List

variable {c : Catalog} {a name target : String} {l : Layout} {h : Hop} {hops : List Hop}

/-- The hop leads out of the documents of the named table, to a table merged into it or to copies that its
rows hold. -/
inductive LeadsOut (c : Catalog) (name : String) : Hop → Prop
  | merge {l below : Layout} {child : String} {key : Link} : c.layout name = .ok l →
      child ∈ l.mergedChildren → c.layout child = .ok below → below.mergeKey? = some key →
      LeadsOut c name ⟨.merge, key⟩
  | embed {l : Layout} {key : Link} : c.layout name = .ok l → key ∈ l.embeddedKeys → LeadsOut c name ⟨.embed, key⟩

/-- Each hop leads out of the documents that the hop before it leads to, the first out of those of the
named table. -/
def LeadOn (c : Catalog) : String → List Hop → Prop
  | _, [] => True
  | name, h :: hops => c.LeadsOut name h ∧ LeadOn c h.link.child hops

/-- The hops lead from the documents of the named table to `target`, and not there before their end. -/
structure IsRoute (c : Catalog) (name target : String) (hops : List Hop) : Prop where
  leads : c.LeadOn name hops
  arrives : hops.getLast?.map (·.link.child) = some target
  notBefore : ∀ h ∈ hops.dropLast, h.link.child ≠ target

theorem not_isRoute_nil : ¬c.IsRoute name target [] := fun h => by cases h.arrives

theorem isRoute_singleton (hchild : h.link.child = target) :
    c.IsRoute name target (h :: hops) ↔ c.LeadsOut name h ∧ hops = [] := by
  constructor
  · rintro ⟨⟨hout, -⟩, -, hbefore⟩
    refine ⟨hout, ?_⟩
    cases hops with
    | nil => rfl
    | cons next hops => exact absurd hchild (hbefore h (mem_cons_self ..))
  · rintro ⟨hout, rfl⟩
    exact ⟨⟨hout, trivial⟩, congrArg some hchild, fun _ hmem => (not_mem_nil hmem).elim⟩

theorem isRoute_cons (hne : h.link.child ≠ target) :
    c.IsRoute name target (h :: hops) ↔ c.LeadsOut name h ∧ c.IsRoute h.link.child target hops := by
  cases hops with
  | nil =>
    constructor
    · rintro ⟨-, harrives, -⟩
      exact absurd (Option.some.inj harrives) hne
    · rintro ⟨-, hroute⟩
      exact (not_isRoute_nil hroute).elim
  | cons next hops =>
    constructor
    · rintro ⟨⟨hout, hleads⟩, harrives, hbefore⟩
      exact ⟨hout, hleads, harrives, fun g hg => hbefore g (mem_cons_of_mem _ hg)⟩
    · rintro ⟨hout, hleads, harrives, hbefore⟩
      exact ⟨⟨hout, hleads⟩, harrives, forall_mem_cons.mpr ⟨hne, hbefore⟩⟩

theorem LeadsOut.of_lower (hname : Text.lower a = Text.lower name) (hout : c.LeadsOut a h) : c.LeadsOut name h := by
  cases hout with
  | merge hl hchild hbelow hkey => exact .merge (layout_of_lower hname hl) hchild hbelow hkey
  | embed hl hkey => exact .embed (layout_of_lower hname hl) hkey

theorem IsRoute.of_lower (hname : Text.lower a = Text.lower name) (h : c.IsRoute a target hops) :
    c.IsRoute name target hops := by
  refine ⟨?_, h.arrives, h.notBefore⟩
  cases hops with
  | nil => trivial
  | cons next hops => exact ⟨h.leads.1.of_lower hname, h.leads.2⟩

theorem mem_nextHops (hl : c.layout name = .ok l) (hhops : c.nextHops l = .ok hops) :
    h ∈ hops ↔ c.LeadsOut name h := by
  rw [nextHops] at hhops
  obtain ⟨below, hbelow, hhops⟩ := exists_of_bind_ok hhops
  cases hhops
  rw [mem_append, mem_map, mem_map]
  constructor
  · rintro (⟨key, hkey, rfl⟩ | ⟨key, hkey, rfl⟩)
    · obtain ⟨lower, hlower, hkey⟩ := mem_filterMap.mp hkey
      obtain ⟨child, hchild, hlayout⟩ := exists_of_mem_mapM hbelow hlower
      exact .merge hl hchild hlayout hkey
    · exact .embed hl hkey
  · intro hout
    cases hout with
    | merge hl' hchild hlayout hkey =>
      cases hl.symm.trans hl'
      exact .inl ⟨_, mem_filterMap.mpr ⟨_, mem_of_mapM_ok hbelow hchild hlayout, hkey⟩, rfl⟩
    | embed hl' hkey =>
      cases hl.symm.trans hl'
      exact .inr ⟨_, hkey, rfl⟩

theorem exists_nextHops (hc : c.Indexed) (hall : c.AllLaidOut) (hl : c.layout name = .ok l) :
    ∃ hops, c.nextHops l = .ok hops := by
  have hbelow : ∃ below, l.mergedChildren.mapM c.layout = .ok below := by
    refine exists_mapM_ok_iff.mpr fun child hchild => ?_
    obtain ⟨_, t, -, ht, rfl, -⟩ := exists_of_mem_mergedChildren hc hl hchild
    exact hall t (mem_tables_of_table ht)
  obtain ⟨below, hbelow⟩ := hbelow
  exact ⟨_, by rw [nextHops, hbelow]; rfl⟩

theorem LeadsOut.linksTo (hc : c.Indexed) (hout : c.LeadsOut name h) : c.LinksTo name h.link.child := by
  cases hout with
  | merge hl hchild hbelow hkey =>
    obtain ⟨_, t, -, ht, hspelled, -⟩ := exists_of_mem_mergedChildren hc hl hchild
    have hkeyed := ((layout_eq_ok_iff.mp hbelow).child_of_mergeKey? ht hkey).trans hspelled
    exact .inl ⟨_, hl, hkeyed ▸ hchild⟩
  | embed hl hkey => exact .inr ⟨_, hl, _, hkey, rfl⟩

theorem LinksTo.exists_table (hc : c.Indexed) (hlink : c.LinksTo a name) : ∃ t ∈ c.tables, t.name = name := by
  rcases hlink with ⟨l, hl, hchild⟩ | hembeds
  · obtain ⟨_, t, -, ht, hspelled, -⟩ := exists_of_mem_mergedChildren hc hl hchild
    exact ⟨t, mem_tables_of_table ht, hspelled⟩
  · obtain ⟨t, ht, hspelled, -⟩ := hembeds.exists_table hc
    exact ⟨t, mem_tables_of_table ht, hspelled⟩

theorem pairwise_tables (hc : c.Indexed) : c.tables.Pairwise fun t u => Text.lower t.name ≠ Text.lower u.name := by
  refine pairwise_map.mpr (hc.ordered.imp_of_mem fun {e e'} he he' hlt hsame => ?_)
  rw [hc.keyed e he, hc.keyed e' he', hsame] at hlt
  exact lt_irrefl _ hlt

theorem nodup_nextHops (hc : c.Indexed) (hl : c.layout name = .ok l) (hhops : c.nextHops l = .ok hops) :
    hops.Nodup := by
  rw [nextHops] at hhops
  obtain ⟨below, hbelow, hhops⟩ := exists_of_bind_ok hhops
  cases hhops
  obtain ⟨_, _, hown⟩ := exists_outlines hl
  have hchildren : l.mergedChildren.Pairwise fun a b => Text.lower a ≠ Text.lower b := by
    rw [hown.mergedChildren, mergedChildren]
    exact pairwise_map.mpr ((pairwise_tables hc).filter _)
  -- merges are told apart by the tables they lead to, and so are copies
  have hmerges : (below.filterMap (·.mergeKey?)).Nodup := by
    refine List.Pairwise.filterMap _ (fun l₁ l₂ hne k₁ hk₁ k₂ hk₂ heq => ?_)
      (pairwise_of_forall₂ (mapM_ok_iff.mp hbelow) hchildren
        (q := fun l₁ l₂ => ∀ k₁ ∈ l₁.mergeKey?, ∀ k₂ ∈ l₂.mergeKey?, k₁ ≠ k₂) ?_)
    · exact hne k₁ hk₁ k₂ hk₂ heq
    · intro a₁ l₁ a₂ l₂ hl₁ hl₂ hne k₁ hk₁ k₂ hk₂ heq
      obtain ⟨t₁, ht₁, -⟩ := layout_table hl₁
      obtain ⟨t₂, ht₂, -⟩ := layout_table hl₂
      have hk₁ := (layout_eq_ok_iff.mp hl₁).child_of_mergeKey? ht₁ hk₁
      have hk₂ := (layout_eq_ok_iff.mp hl₂).child_of_mergeKey? ht₂ hk₂
      apply hne
      rw [lower_of_table hc.keyed ht₁, lower_of_table hc.keyed ht₂, ← hk₁, ← hk₂, heq]
  have hembeds : l.embeddedKeys.Nodup :=
    hown.embedsFor.apart.imp fun {k k'} hne (heq : k = k') => hne (heq ▸ Text.same_refl _)
  have hkinds (kind : HopKind) : Function.Injective (Hop.mk kind) := fun _ _ heq => (Hop.mk.inj heq).2
  refine (hmerges.map (hkinds .merge)).append (hembeds.map (hkinds .embed)) fun hop hmerge hembed => ?_
  obtain ⟨_, -, rfl⟩ := mem_map.mp hmerge
  obtain ⟨_, -, heq⟩ := mem_map.mp hembed
  cases heq

section Search

variable {o : Table} {fuel : Nat}

theorem LeadsOut.same_iff (hc : c.Indexed) (ho : o ∈ c.tables) (htarget : Text.same target o.name)
    (hout : c.LeadsOut name h) : Text.same h.link.child target ↔ h.link.child = o.name := by
  obtain ⟨t, ht, hname⟩ := (hout.linksTo hc).exists_table hc
  rw [← hname]
  constructor
  · intro hsame
    exact congrArg Table.name (hc.eq_of_same ht ho (Text.same_trans hsame htarget))
  · intro heq
    rwa [heq, Text.same_comm]

theorem LeadsOut.exists_layout (hc : c.Indexed) (hall : c.AllLaidOut) (hout : c.LeadsOut name h) :
    ∃ l, c.layout h.link.child = .ok l := by
  obtain ⟨t, ht, hname⟩ := (hout.linksTo hc).exists_table hc
  exact hname ▸ hall t ht

def routesThrough (c : Catalog) (target : String) (fuel : Nat) (h : Hop) : Except LayoutError (List (List Hop)) :=
  if Text.same h.link.child target then
    pure [[h]]
  else do
    let below ← c.routesWithin target fuel h.link.child
    return below.map (h :: ·)

/-- The list has every route of at most `fuel` hops once, and nothing else. -/
structure ListsRoutes (c : Catalog) (name target : String) (fuel : Nat) (routes : List (List Hop)) :
    Prop where
  nodup : routes.Nodup
  mem_iff : ∀ hops, hops ∈ routes ↔ c.IsRoute name target hops ∧ hops.length ≤ fuel

/-- The list has every route of at most `fuel` hops that starts with `h` once, and nothing else. -/
structure ListsThrough (c : Catalog) (name target : String) (fuel : Nat) (h : Hop)
    (routes : List (List Hop)) : Prop where
  nodup : routes.Nodup
  mem_iff : ∀ hops, hops ∈ routes ↔ hops.head? = some h ∧ c.IsRoute name target hops ∧ hops.length ≤ fuel

theorem listsThrough_singleton (hout : c.LeadsOut name h) (hchild : h.link.child = target) :
    c.ListsThrough name target (fuel + 1) h [[h]] := by
  refine ⟨nodup_singleton _, fun hops => ?_⟩
  rw [mem_singleton]
  constructor
  · rintro rfl
    exact ⟨rfl, (isRoute_singleton hchild).mpr ⟨hout, rfl⟩, Nat.le_add_left ..⟩
  · rintro ⟨hhead, hroute, -⟩
    obtain ⟨rest, rfl⟩ := head?_eq_some_iff.mp hhead
    rw [((isRoute_singleton hchild).mp hroute).2]

theorem ListsRoutes.through {below : List (List Hop)} (hout : c.LeadsOut name h)
    (hchild : h.link.child ≠ target) (hbelow : c.ListsRoutes h.link.child target fuel below) :
    c.ListsThrough name target (fuel + 1) h (below.map (h :: ·)) := by
  refine ⟨hbelow.nodup.map (cons_injective), fun hops => ?_⟩
  rw [mem_map]
  constructor
  · rintro ⟨rest, hrest, rfl⟩
    obtain ⟨hroute, hlength⟩ := (hbelow.mem_iff rest).mp hrest
    exact ⟨rfl, (isRoute_cons hchild).mpr ⟨hout, hroute⟩, Nat.succ_le_succ hlength⟩
  · rintro ⟨hhead, hroute, hlength⟩
    obtain ⟨rest, rfl⟩ := head?_eq_some_iff.mp hhead
    exact ⟨rest, (hbelow.mem_iff rest).mpr ⟨((isRoute_cons hchild).mp hroute).2, Nat.le_of_succ_le_succ hlength⟩, rfl⟩

theorem ListsThrough.flatten {found : List (List (List Hop))} (hnodup : hops.Nodup)
    (hmem : ∀ h, c.LeadsOut name h → h ∈ hops) (hfound : List.Forall₂ (c.ListsThrough name target fuel) hops found) :
    c.ListsRoutes name target fuel found.flatten := by
  constructor
  · refine nodup_flatten.mpr ⟨fun routes hroutes => ?_, ?_⟩
    · obtain ⟨h, -, hlists⟩ := exists_left_of_forall₂ hfound hroutes
      exact hlists.nodup
    · refine pairwise_of_forall₂ hfound hnodup fun {h r h' r'} hr hr' hne route hroute hroute' => hne ?_
      exact Option.some.inj (((hr.mem_iff route).mp hroute).1.symm.trans ((hr'.mem_iff route).mp hroute').1)
  · intro route
    rw [mem_flatten]
    constructor
    · rintro ⟨routes, hroutes, hroute⟩
      obtain ⟨h, -, hlists⟩ := exists_left_of_forall₂ hfound hroutes
      exact ((hlists.mem_iff route).mp hroute).2
    · rintro ⟨hroute, hlength⟩
      cases route with
      | nil => exact (not_isRoute_nil hroute).elim
      | cons h rest =>
        obtain ⟨routes, hroutes, hlists⟩ := exists_right_of_forall₂ hfound (hmem h hroute.leads.1)
        exact ⟨routes, (of_mem_zip hroutes).2, (hlists.mem_iff _).mpr ⟨rfl, hroute, hlength⟩⟩

theorem exists_routesWithin (hc : c.Indexed) (hall : c.AllLaidOut) (ho : o ∈ c.tables)
    (htarget : Text.same target o.name) (fuel : Nat) (hl : c.layout name = .ok l) :
    ∃ routes, c.routesWithin target fuel name = .ok routes ∧ c.ListsRoutes name o.name fuel routes := by
  induction fuel generalizing name l with
  | zero =>
    refine ⟨[], rfl, nodup_nil, fun hops => ⟨fun h => (not_mem_nil h).elim, ?_⟩⟩
    rintro ⟨hroute, hlength⟩
    cases length_eq_zero_iff.mp (Nat.le_zero.mp hlength)
    exact (not_isRoute_nil hroute).elim
  | succ fuel ih =>
    obtain ⟨hops, hhops⟩ := exists_nextHops hc hall hl
    have hthrough (h : Hop) (hh : h ∈ hops) : ∃ routes, c.routesThrough target fuel h = .ok routes ∧
        c.ListsThrough name o.name (fuel + 1) h routes := by
      have hout := (mem_nextHops hl hhops).mp hh
      rw [routesThrough]
      split
      · rename_i hsame
        exact ⟨_, rfl, listsThrough_singleton hout ((hout.same_iff hc ho htarget).mp hsame)⟩
      · rename_i hother
        obtain ⟨l', hl'⟩ := hout.exists_layout hc hall
        obtain ⟨below, hbelow, hlists⟩ := ih hl'
        refine ⟨below.map (h :: ·), by rw [hbelow]; rfl, hlists.through hout fun heq => hother ?_⟩
        exact (hout.same_iff hc ho htarget).mpr heq
    obtain ⟨found, hfound⟩ := exists_forall₂ hthrough
    have hmapM : hops.mapM (c.routesThrough target fuel) = .ok found := mapM_ok_iff.mpr (hfound.imp fun _ _ hr => hr.1)
    refine ⟨found.flatten, ?_, ListsThrough.flatten (nodup_nextHops hc hl hhops)
      (fun h hout => (mem_nextHops hl hhops).mpr hout) (hfound.imp fun _ _ hr => hr.2)⟩
    rw [routesWithin, hl]
    show (c.nextHops l >>= fun hops => hops.mapM (c.routesThrough target fuel) >>= _) = _
    rw [hhops]
    show (hops.mapM (c.routesThrough target fuel) >>= _) = _
    rw [hmapM]
    rfl

end Search

theorem LeadOn.length_add_lt (hc : c.Indexed) (hacyclic : c.Acyclic) {visited : List String}
    (hvisited : c.Distinct visited) (hway : ∀ key ∈ visited, ∃ a, Text.lower a = key ∧ TransGen c.LinksTo a name)
    (ht : ∃ t, c.table name = .ok t) (hleads : c.LeadOn name hops) :
    visited.length + hops.length < c.entries.length := by
  obtain ⟨t, ht⟩ := ht
  have hdistinct := hvisited.cons (hacyclic.not_mem_visited hway) ht
  induction hops generalizing name visited t with
  | nil => exact hdistinct.length_le
  | cons h hops ih =>
    obtain ⟨hout, hleads⟩ := hleads
    have hlink := hout.linksTo hc
    have hway' := exists_way_cons hlink hway
    obtain ⟨u, hu, hname⟩ := hlink.exists_table hc
    have hu' : c.table h.link.child = .ok u := hname ▸ hc.table_of_mem hu
    have hlength := ih hdistinct hway' hleads u hu' (hdistinct.cons (hacyclic.not_mem_visited hway') hu')
    simp only [length_cons] at hlength ⊢
    omega

section Routes

variable {b : String} {t o : Table} {routes : List (List Hop)}

theorem exists_routes (hc : c.Indexed) (hall : c.AllLaidOut) (hacyclic : c.Acyclic)
    (ha : c.table a = .ok t) (ho : o ∈ c.tables) (hb : Text.same b o.name) :
    ∃ routes, c.routes a b = .ok routes ∧ routes.Nodup ∧ ∀ hops, hops ∈ routes ↔ c.IsRoute t.name o.name hops := by
  have hname := lower_of_table hc.keyed ha
  obtain ⟨l, hl⟩ := hall t (mem_tables_of_table ha)
  obtain ⟨routes, hroutes, hlists⟩ :=
    exists_routesWithin hc hall ho hb (c.entries.length + 1) (layout_of_lower hname.symm hl)
  refine ⟨routes, hroutes, hlists.nodup, fun hops => (hlists.mem_iff hops).trans ⟨?_, ?_⟩⟩
  · rintro ⟨hroute, -⟩
    exact hroute.of_lower hname
  · intro hroute
    have hroute := hroute.of_lower hname.symm
    have hlength := hroute.leads.length_add_lt hc hacyclic (.nil c) (by simp) ⟨t, ha⟩
    exact ⟨hroute, by simp only [length_nil] at hlength; omega⟩

theorem contains_of_routes (h : c.routes a b = .ok routes) :
    ∃ found, c.contains a b = .ok found ∧ (found ↔ ∃ hops, hops ∈ routes) := by
  refine ⟨!routes.isEmpty, by rw [contains, h]; rfl, ?_⟩
  rw [Bool.not_eq_true', isEmpty_eq_false_iff_exists_mem]

theorem embeds_of_routes (h : c.routes a b = .ok routes) :
    ∃ found, c.embeds a b = .ok found ∧ (found ↔ ∃ hops, hops ∈ routes ∧ ∃ h ∈ hops, h.kind = .embed) :=
  ⟨_, by rw [embeds, h]; rfl, by simp⟩

theorem route?_of_routes (h : c.routes a b = .ok routes) (hnodup : routes.Nodup) :
    (∀ hops, c.route? a b = .ok (some hops) ↔ hops ∈ routes ∧ ∀ other ∈ routes, other = hops) ∧
      (c.route? a b = .ok none ↔ ¬∃ hops, hops ∈ routes) ∧
      (c.route? a b = .error (.ambiguousReachability a b) ↔ ∃ hops ∈ routes, ∃ other ∈ routes, hops ≠ other) := by
  rw [route?, h]
  rcases routes with _ | ⟨first, _ | ⟨second, rest⟩⟩
  · simp [bind, Except.bind, pure, Except.pure]
  · simp [bind, Except.bind, pure, Except.pure, eq_comm]
  · have hne : first ≠ second := by
      rintro rfl
      simp at hnodup
    refine ⟨fun hops => ⟨fun h => ?_, ?_⟩, ⟨fun h => ?_, fun h => ?_⟩,
      ⟨fun _ => ⟨first, by simp, second, by simp, hne⟩, fun _ => rfl⟩⟩
    · cases h
    · rintro ⟨-, honly⟩
      exact absurd ((honly first (by simp)).trans (honly second (by simp)).symm) hne
    · cases h
    · exact absurd ⟨first, by simp⟩ h

/-- Where all layouts can be built and links are `Acyclic`, the search lists each route from a table to another
once, and nothing else. A table is contained in the documents of another when there is a route, and copies of it
are, when there is a route with a copy on it; the route is given when it is the only one, and several are an error.
No hops lead on for longer than there are tables, so that the search ends. -/
theorem routes_listed (hc : c.Indexed) (hall : c.AllLaidOut) (hacyclic : c.Acyclic)
    (ha : c.table a = .ok t) (ho : o ∈ c.tables) (hb : Text.same b o.name) :
    (∃ routes, c.routes a b = .ok routes ∧ routes.Nodup ∧
      ∀ hops, hops ∈ routes ↔ c.IsRoute t.name o.name hops) ∧
    (∃ found, c.contains a b = .ok found ∧ (found ↔ ∃ hops, c.IsRoute t.name o.name hops)) ∧
    (∃ found, c.embeds a b = .ok found ∧
      (found ↔ ∃ hops, c.IsRoute t.name o.name hops ∧ ∃ h ∈ hops, h.kind = .embed)) ∧
    (∀ hops, c.route? a b = .ok (some hops) ↔
      c.IsRoute t.name o.name hops ∧ ∀ other, c.IsRoute t.name o.name other → other = hops) ∧
    (c.route? a b = .ok none ↔ ¬∃ hops, c.IsRoute t.name o.name hops) ∧
    (c.route? a b = .error (.ambiguousReachability a b) ↔
      ∃ hops, c.IsRoute t.name o.name hops ∧ ∃ other, c.IsRoute t.name o.name other ∧ hops ≠ other) ∧
    ∀ hops, c.LeadOn t.name hops → hops.length < c.entries.length := by
  obtain ⟨routes, hroutes, hnodup, hmem⟩ := exists_routes hc hall hacyclic ha ho hb
  have hcontains := contains_of_routes hroutes
  have hembeds := embeds_of_routes hroutes
  have hroute := route?_of_routes hroutes hnodup
  simp only [hmem] at hcontains hembeds hroute
  refine ⟨⟨routes, hroutes, hnodup, hmem⟩, hcontains, hembeds, hroute.1, hroute.2.1, hroute.2.2,
    fun hops hleads => ?_⟩
  have hlength := hleads.length_add_lt hc hacyclic (.nil c) (by simp) ⟨t, table_name hc.keyed ha⟩
  simpa using hlength

end Routes

def artwork (name : String) (above : Option String) : Table where
  name := name
  columns := [⟨"no", .integer, false⟩, ⟨"artist_no", .integer, false⟩, ⟨"up", .integer, false⟩]
  primaryKey := ["no"]
  foreignKeys := ⟨"of_artist", ["artist_no"], "artist", ["no"]⟩ ::
    above.toList.map fun parent => ⟨"part_of", ["up"], parent, ["no"]⟩
  properties := { mergeInto := above }

def shows : Catalog :=
  .ofTables
    [{ name := "artist", columns := [⟨"no", .integer, false⟩], primaryKey := ["no"]
       properties := { embeddable := true } },
      artwork "show" none, artwork "piece" (some "show")]

def artistHop (holder : String) : Hop where
  kind := .embed
  link := { name := "of_artist", parent := holder, child := "artist", columns := ["artist_no"]
            referencedColumns := ["no"], association := .one }

def pieceHop : Hop where
  kind := .merge
  link := { name := "part_of", parent := "show", child := "piece", columns := ["up"]
            referencedColumns := ["no"], association := .many }

/-- Two routes lead from shows to artists, and one to pieces. -/
theorem routes_listed_shows :
    shows.Indexed ∧ shows.AllLaidOut ∧ shows.Acyclic ∧ shows.table "SHOW" = .ok (artwork "show" none) ∧
      (∀ hops, shows.IsRoute "show" "artist" hops ↔
        hops ∈ [[pieceHop, artistHop "piece"], [artistHop "show"]]) ∧
      shows.route? "SHOW" "Artist" = .error (.ambiguousReachability "SHOW" "Artist") ∧
      ∀ hops, shows.IsRoute "show" "piece" hops → hops = [pieceHop] := by
  have hc : shows.Indexed := indexed_ofTables _
  have hall : shows.AllLaidOut := by decide +kernel
  have hnone : ∀ t ∈ shows.tables, ∀ l ∈ (shows.layout t.name).toOption,
      l.isEmbeddable → l.mergedChildren = [] := by decide +kernel
  have hacyclic : shows.Acyclic :=
    acyclic_of_nothing_below_copies hc hall fun a l hl => forall_layout hc.keyed hnone hl
  have hshow : shows.table "SHOW" = .ok (artwork "show" none) := rfl
  have hartist : ∃ o ∈ shows.tables, o.name = "artist" := by decide +kernel
  have hpiece : ∃ o ∈ shows.tables, o.name = "piece" := by decide +kernel
  obtain ⟨o, ho, hname⟩ := hartist
  obtain ⟨p, hp, hname'⟩ := hpiece
  obtain ⟨⟨routes, hroutes, -, hmem⟩, -, -, -, -, hambiguous, -⟩ :=
    routes_listed hc hall hacyclic hshow ho (b := "Artist") (by rw [hname]; decide)
  obtain ⟨-, -, -, honly, -, -, -⟩ :=
    routes_listed hc hall hacyclic hshow hp (b := "PIECE") (by rw [hname']; decide)
  have hfound : shows.routes "SHOW" "Artist" =
      .ok [[pieceHop, artistHop "piece"], [artistHop "show"]] := rfl
  cases hfound.symm.trans hroutes
  rw [hname] at hmem hambiguous
  rw [hname'] at honly
  refine ⟨hc, hall, hacyclic, hshow, fun hops => (hmem hops).symm, hambiguous.mpr ?_, fun hops hroute => ?_⟩
  · exact ⟨_, (hmem _).mp (.head _), _, (hmem _).mp (.tail _ (.head _)), by decide⟩
  · exact ((honly [pieceHop]).mp rfl).2 hops hroute

end Pushdown.Catalog
