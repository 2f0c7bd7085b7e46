import Pushdown.Layout.Route
import Pushdown.Proofs.CopyLinks

/-!
# The graph of links

`LinksTo`: from each table, links lead to the tables merged into it (`MergesDown`) and to the tables of which its
rows hold copies (`EmbedsDown`). A merge leads one step further from the top-level documents, and a copy leads back
to the top, since embeddable tables are not merged. `links_acyclic_iff` says when links are `Acyclic`, though the
construction of layouts follows merges and copies only by themselves.
-/

namespace Pushdown.Catalog

open Relation List TransGen

variable {c : Catalog} {a b : String} {l : Layout} {visited : List String}

def AllLaidOut (c : Catalog) : Prop := ∀ t ∈ c.tables, ∃ l, c.layout t.name = .ok l

instance (c : Catalog) : Decidable c.AllLaidOut :=
  decidable_of_iff (∀ t ∈ c.tables, (c.layout t.name).isOk) <|
    forall₂_congr fun t _ => by cases c.layout t.name <;> simp [Except.isOk, Except.toBool]

def MergesDown (c : Catalog) (a b : String) : Prop := ∃ l, c.layout a = .ok l ∧ b ∈ l.mergedChildren

def EmbedsDown (c : Catalog) (a b : String) : Prop :=
  ∃ l, c.layout a = .ok l ∧ ∃ k ∈ l.embeddedKeys, k.child = b

def LinksTo (c : Catalog) (a b : String) : Prop := c.MergesDown a b ∨ c.EmbedsDown a b

/-- No way along links leads back to where it started. -/
def Acyclic (c : Catalog) : Prop := ∀ a, ¬TransGen c.LinksTo a a

def depth (c : Catalog) (name : String) : Nat :=
  match c.layout name with
  | .ok l => l.ancestors.length
  | .error _ => 0

theorem depth_of_layout (h : c.layout a = .ok l) : c.depth a = l.ancestors.length := by
  rw [depth, h]

theorem depth_pos_iff (h : c.layout a = .ok l) : 0 < c.depth a ↔ l.isMerged := by
  rw [depth_of_layout h, (layout_eq_ok_iff.mp h).isMerged_iff]

theorem LinksTo.of_lower {other : String} (hab : Text.lower a = Text.lower other)
    (h : c.LinksTo a b) : c.LinksTo other b := by
  rcases h with ⟨l, hl, hb⟩ | ⟨l, hl, hb⟩
  · exact .inl ⟨l, layout_of_lower hab hl, hb⟩
  · exact .inr ⟨l, layout_of_lower hab hl, hb⟩

section

variable (hc : c.Indexed)

include hc

theorem exists_of_mem_mergedChildren (hl : c.layout a = .ok l) (hb : b ∈ l.mergedChildren) :
    ∃ t child, c.table a = .ok t ∧ c.table b = .ok child ∧ child.name = b ∧ child.properties.mergesInto t.name := by
  obtain ⟨t, ht, hown⟩ := exists_outlines hl
  rw [hown.mergedChildren, mergedChildren] at hb
  obtain ⟨child, hchild, rfl⟩ := mem_map.mp hb
  obtain ⟨hmem, hmerges⟩ := mem_filter.mp hchild
  exact ⟨t, child, ht, hc.table_of_mem hmem, rfl, hmerges⟩

theorem MergesDown.depth_eq (hall : c.AllLaidOut) (h : c.MergesDown a b) : c.depth b = c.depth a + 1 := by
  obtain ⟨l, hl, hb⟩ := h
  obtain ⟨t, child, ht, hchild, rfl, hmerges⟩ := exists_of_mem_mergedChildren hc hl hb
  obtain ⟨l', hl'⟩ := hall child (mem_tables_of_table hchild)
  rw [TableProperties.mergesInto] at hmerges
  split at hmerges
  · rename_i above habove
    obtain ⟨parent, hparent, hancestors⟩ := (layout_eq_ok_iff.mp hl').exists_parent hchild habove
    have hsame : Text.lower above = Text.lower a :=
      (Text.lower_eq_of_same hmerges).trans (lower_of_table hc.keyed ht).symm
    cases (hparent.of_lower hsame).unique (layout_eq_ok_iff.mp hl)
    rw [depth_of_layout hl', depth_of_layout hl, hancestors, Layout.chain, length_cons]
  · cases hmerges

theorem EmbedsDown.exists_table (h : c.EmbedsDown a b) :
    ∃ t, c.table b = .ok t ∧ t.name = b ∧ t.properties.isEmbeddable := by
  obtain ⟨l, hl, k, hk, rfl⟩ := h
  obtain ⟨_, _, hown⟩ := exists_outlines hl
  exact hown.exists_held hc hk

theorem EmbedsDown.layout (hall : c.AllLaidOut) (h : c.EmbedsDown a b) :
    ∃ l, c.layout b = .ok l ∧ l.ancestors = [] ∧ l.isEmbeddable := by
  obtain ⟨t, ht, hname, hembeddable⟩ := h.exists_table hc
  obtain ⟨l, hl⟩ := hall t (mem_tables_of_table ht)
  rw [hname] at hl
  have hout := layout_eq_ok_iff.mp hl
  exact ⟨l, hl, (hout.role_of_top ht ((hout.outlines ht).exclusive hembeddable)).1,
    hout.isEmbeddable_of_table ht hembeddable⟩

theorem EmbedsDown.depth_eq (hall : c.AllLaidOut) (h : c.EmbedsDown a b) : c.depth b = 0 := by
  obtain ⟨l, hl, hancestors, -⟩ := h.layout hc hall
  rw [depth_of_layout hl, hancestors, length_nil]

theorem EmbedsDown.keepsCopies (h : c.EmbedsDown a b) : c.KeepsCopies a b := by
  obtain ⟨l, hl, k, hk, rfl⟩ := h
  obtain ⟨_, ht, hown⟩ := exists_outlines hl
  exact hown.keepsCopies_of_mem hc ht hk

theorem not_transGen_embedsDown (a : String) : ¬TransGen c.EmbedsDown a a := by
  intro h
  obtain ⟨b, hab, hba⟩ := head'_iff.mp h
  obtain ⟨x, -, hxa⟩ := tail'_iff.mp h
  obtain ⟨t, ht, hname, -⟩ := hxa.exists_table hc
  have hkeeps := hab.keepsCopies hc
  have hback : TransGen c.KeepsCopies b a := by
    rcases reflTransGen_iff_eq_or_transGen.mp hba with rfl | hba
    · exact .single hkeeps
    · exact mono (fun _ _ h => EmbedsDown.keepsCopies hc h) _ _ hba
  obtain ⟨l, hl, k, hk, rfl⟩ := hab
  have hnot := ((layout_eq_ok_iff.mp hl).outlines ht).not_same_of_mem hk hback
  exact hnot (hname ▸ Text.same_refl _)

end

/-- A link that is not a copy held by a merged table. -/
def PlainlyLinksTo (c : Catalog) (a b : String) : Prop :=
  c.MergesDown a b ∨ c.EmbedsDown a b ∧ c.depth a = 0

theorem depth_le_of_plain (hc : c.Indexed) (hall : c.AllLaidOut) (h : TransGen c.PlainlyLinksTo a b) :
    c.depth a ≤ c.depth b ∧ (c.depth a = c.depth b → TransGen c.EmbedsDown a b) := by
  induction h with
  | single h =>
    rcases h with h | ⟨h, htop⟩
    · have hdepth := h.depth_eq hc hall
      exact ⟨by omega, fun heq => by omega⟩
    · exact ⟨by omega, fun _ => .single h⟩
  | tail _ h ih =>
    rcases h with h | ⟨h, htop⟩
    · have hdepth := h.depth_eq hc hall
      exact ⟨by omega, fun heq => by omega⟩
    · have hdepth := h.depth_eq hc hall
      exact ⟨by omega, fun _ => (ih.2 (by omega)).tail h⟩

theorem plain_or_copy (h : TransGen c.LinksTo a b) :
    TransGen c.PlainlyLinksTo a b ∨ ∃ x y, c.EmbedsDown x y ∧ 0 < c.depth x ∧
      ReflTransGen c.LinksTo a x ∧ ReflTransGen c.LinksTo y b := by
  have hstep (x y : String) (h : c.LinksTo x y) :
      c.PlainlyLinksTo x y ∨ c.EmbedsDown x y ∧ 0 < c.depth x := by
    rcases h with h | h
    · exact .inl (.inl h)
    · rcases Nat.eq_zero_or_pos (c.depth x) with htop | hmerged
      · exact .inl (.inr ⟨h, htop⟩)
      · exact .inr ⟨h, hmerged⟩
  induction h with
  | single h =>
    rcases hstep _ _ h with h | ⟨h, hmerged⟩
    · exact .inl (.single h)
    · exact .inr ⟨_, _, h, hmerged, .refl, .refl⟩
  | tail hway h ih =>
    rcases ih with ih | ⟨x, y, hxy, hmerged, hax, hyb⟩
    · rcases hstep _ _ h with h | ⟨h, hmerged⟩
      · exact .inl (ih.tail h)
      · exact .inr ⟨_, _, h, hmerged, hway.to_reflTransGen, .refl⟩
    · exact .inr ⟨x, y, hxy, hmerged, hax, hyb.tail h⟩

theorem acyclic_iff (hc : c.Indexed) (hall : c.AllLaidOut) :
    c.Acyclic ↔
      ∀ a l, c.layout a = .ok l → l.isMerged → ∀ k ∈ l.embeddedKeys, ¬ReflTransGen c.LinksTo k.child a := by
  constructor
  · intro hacyclic a l hl _ k hk hback
    exact hacyclic a (head' (.inr ⟨l, hl, k, hk, rfl⟩) hback)
  · intro hback a ha
    rcases plain_or_copy ha with hplain | ⟨x, y, ⟨l, hl, k, hk, rfl⟩, hmerged, hax, hya⟩
    · exact not_transGen_embedsDown hc a ((depth_le_of_plain hc hall hplain).2 rfl)
    · exact hback x l hl ((depth_pos_iff hl).mp hmerged) k hk (hya.trans hax)

theorem acyclic_of_nothing_below_copies (hc : c.Indexed) (hall : c.AllLaidOut)
    (hnone : ∀ a l, c.layout a = .ok l → l.isEmbeddable → l.mergedChildren = []) : c.Acyclic := by
  refine (acyclic_iff hc hall).mpr fun a l hl hmerged k hk hback => ?_
  -- from a copy on, the way leads along copies only
  have hcopies (x : String) (h : ReflTransGen c.LinksTo k.child x) :
      ∃ l, c.layout x = .ok l ∧ l.ancestors = [] ∧ l.isEmbeddable := by
    induction h with
    | refl => exact EmbedsDown.layout hc hall ⟨l, hl, k, hk, rfl⟩
    | tail _ hlink ih =>
      obtain ⟨l', hl', -, hembeddable⟩ := ih
      rcases hlink with ⟨l'', hl'', hb⟩ | hlink
      · cases hl'.symm.trans hl''
        rw [hnone _ _ hl' hembeddable] at hb
        cases hb
      · exact hlink.layout hc hall
  obtain ⟨l', hl', hancestors, -⟩ := hcopies a hback
  cases hl.symm.trans hl'
  rw [(layout_eq_ok_iff.mp hl).isMerged_iff, hancestors] at hmerged
  cases hmerged

theorem forall_layout (hc : c.WellKeyed) {p : Layout → Prop}
    (h : ∀ t ∈ c.tables, ∀ l ∈ (c.layout t.name).toOption, p l) (hl : c.layout a = .ok l) : p l := by
  obtain ⟨t, ht, hname⟩ := layout_table hl
  have hlayout := layout_layout_table hc hl
  rw [hname] at hlayout
  exact h t (mem_tables_of_table ht) l (by rw [hlayout]; rfl)

theorem linksTo_of_nextHops (hc : c.Indexed) (hl : c.layout a = .ok l) {hops : List Hop}
    (hhops : c.nextHops l = .ok hops) {h : Hop} (hh : h ∈ hops) : c.LinksTo a h.link.child := by
  rw [nextHops] at hhops
  obtain ⟨children, hchildren, hhops⟩ := exists_of_bind_ok hhops
  cases hhops
  rcases mem_append.mp hh with hh | hh
  · obtain ⟨key, hkey, rfl⟩ := mem_map.mp hh
    obtain ⟨child, hchild, hkey⟩ := mem_filterMap.mp hkey
    obtain ⟨name, hname, hlayout⟩ := exists_of_mem_mapM hchildren hchild
    obtain ⟨_, t, -, ht, hspelled, -⟩ := exists_of_mem_mergedChildren hc hl hname
    have hkeyed : key.child = name := ((layout_eq_ok_iff.mp hlayout).child_of_mergeKey? ht hkey).trans hspelled
    exact .inl ⟨l, hl, hkeyed ▸ hname⟩
  · obtain ⟨k, hk, rfl⟩ := mem_map.mp hh
    exact .inr ⟨l, hl, k, hk, rfl⟩

variable {name : String}

theorem Acyclic.not_mem_visited (hacyclic : c.Acyclic)
    (hway : ∀ key ∈ visited, ∃ a, Text.lower a = key ∧ TransGen c.LinksTo a name) : Text.lower name ∉ visited := by
  intro hmem
  obtain ⟨a, ha, hname⟩ := hway _ hmem
  obtain ⟨b, hab, hba⟩ := head'_iff.mp hname
  exact hacyclic name (head' (hab.of_lower ha) hba)

theorem exists_way_cons {next : String} (hlink : c.LinksTo name next)
    (hway : ∀ key ∈ visited, ∃ a, Text.lower a = key ∧ TransGen c.LinksTo a name) :
    ∀ key ∈ Text.lower name :: visited, ∃ a, Text.lower a = key ∧ TransGen c.LinksTo a next := by
  intro key hkey
  rcases mem_cons.mp hkey with rfl | hkey
  · exact ⟨name, rfl, .single hlink⟩
  · obtain ⟨a, ha, hname⟩ := hway key hkey
    exact ⟨a, ha, hname.tail hlink⟩

/-- One more step makes no difference to a search that has come to the named table through the tables
in `visited`, when links form no cycle. -/
theorem routesWithin_succ (hc : c.Indexed) (hacyclic : c.Acyclic) {target : String} {fuel : Nat}
    (hvisited : c.Distinct visited) (hway : ∀ key ∈ visited, ∃ a, Text.lower a = key ∧ TransGen c.LinksTo a name)
    (hfuel : c.entries.length < fuel + visited.length) :
    c.routesWithin target fuel name = c.routesWithin target (fuel + 1) name := by
  induction fuel generalizing name visited with
  | zero =>
    have hle := hvisited.length_le
    omega
  | succ fuel ih =>
    rw [routesWithin, routesWithin]
    cases hl : c.layout name with
    | error e => rfl
    | ok l =>
      have hnew := hacyclic.not_mem_visited hway
      obtain ⟨t, ht, -⟩ := layout_table hl
      show (c.nextHops l >>= _) = (c.nextHops l >>= _)
      cases hhops : c.nextHops l with
      | error e => rfl
      | ok hops =>
        have hbelow (h : Hop) (hh : h ∈ hops) : c.routesWithin target fuel h.link.child =
            c.routesWithin target (fuel + 1) h.link.child := by
          have hlink := linksTo_of_nextHops hc hl hhops hh
          exact ih (hvisited.cons hnew ht) (exists_way_cons hlink hway) (by rw [length_cons]; omega)
        refine congrArg (· >>= fun found => pure found.flatten) (mapM_congr fun h hh => ?_)
        rw [hbelow h hh]

theorem routesWithin_eq_routes (hc : c.Indexed) (hacyclic : c.Acyclic)
    (name target : String) {fuel : Nat} (hfuel : c.entries.length < fuel) :
    c.routesWithin target fuel name = c.routes name target := by
  obtain ⟨n, rfl⟩ := Nat.exists_eq_add_of_lt hfuel
  induction n with
  | zero => rfl
  | succ n ih =>
    rw [← ih (by omega)]
    exact (routesWithin_succ hc hacyclic (.nil c) (by simp) (by simp)).symm

/-- When all layouts can be built, links form a cycle just when a copy held by a merged table leads back to this
table. They form none where no table is merged into an embeddable one; and without cycles the search for routes ends
by itself. -/
theorem links_acyclic_iff (hc : c.Indexed) (hall : c.AllLaidOut) :
    (c.Acyclic ↔ ∀ a l, c.layout a = .ok l → l.isMerged → ∀ k ∈ l.embeddedKeys,
        ¬ReflTransGen c.LinksTo k.child a) ∧
      ((∀ a l, c.layout a = .ok l → l.isEmbeddable → l.mergedChildren = []) → c.Acyclic) ∧
      (c.Acyclic → ∀ name target fuel, c.entries.length < fuel →
        c.routesWithin target fuel name = c.routes name target) :=
  ⟨acyclic_iff hc hall, acyclic_of_nothing_below_copies hc hall,
    fun hacyclic name target _ hfuel => routesWithin_eq_routes hc hacyclic name target hfuel⟩

/-- A city of a region of a country. A capital refers to the country as well. -/
def city (capital : Bool) : Table where
  name := "city"
  columns := [⟨"no", .integer, false⟩, ⟨"region_no", .integer, false⟩, ⟨"capital_of", .integer, false⟩]
  primaryKey := ["no"]
  foreignKeys := ⟨"in_region", ["region_no"], "region", ["no"]⟩ ::
    if capital then [⟨"capital", ["capital_of"], "country", ["no"]⟩] else []
  properties := { mergeInto := some "region" }

/-- Countries hold their regions, and regions their cities. Rows that refer to a country hold a copy
of it. -/
def lands (capitals : Bool) : Catalog :=
  .ofTables
    [{ name := "country", columns := [⟨"no", .integer, false⟩], primaryKey := ["no"]
       properties := { embeddable := true } },
      { name := "region"
        columns := [⟨"no", .integer, false⟩, ⟨"country_no", .integer, false⟩], primaryKey := ["no"]
        foreignKeys := [⟨"in_country", ["country_no"], "country", ["no"]⟩]
        properties := { mergeInto := some "country" } },
      city capitals]

/-- With capitals the links form a cycle, and without them the search for routes ends by itself. -/
theorem links_acyclic_lands :
    (lands true).Indexed ∧ (lands true).AllLaidOut ∧ ¬(lands true).Acyclic ∧
      (lands false).Indexed ∧ (lands false).AllLaidOut ∧ (lands false).Acyclic ∧
      (lands false).routesWithin "city" 9 "country" = (lands false).routes "country" "city" := by
  have hc (capitals : Bool) : (lands capitals).Indexed := indexed_ofTables _
  have hall (capitals : Bool) : (lands capitals).AllLaidOut := by
    cases capitals <;> decide +kernel
  have hcyclic : ¬(lands true).Acyclic := by
    intro hacyclic
    obtain ⟨l, hl, hmerged, k, hk, hchild⟩ : ∃ l, (lands true).layout "city" = .ok l ∧ l.isMerged ∧
        ∃ k ∈ l.embeddedKeys, k.child = "country" := ⟨_, rfl, rfl, _, .head _, rfl⟩
    have hregion : (lands true).LinksTo "country" "region" := .inl ⟨_, rfl, .head _⟩
    have hcity : (lands true).LinksTo "region" "city" := .inl ⟨_, rfl, .head _⟩
    refine (links_acyclic_iff (hc true) (hall true)).1.mp hacyclic "city" l hl hmerged k hk ?_
    rw [hchild]
    exact (ReflTransGen.single hregion).tail hcity
  have hacyclic : (lands false).Acyclic := by
    have hnone : ∀ t ∈ (lands false).tables, ∀ l ∈ ((lands false).layout t.name).toOption,
        l.isMerged → l.embeddedKeys = [] := by decide +kernel
    refine (links_acyclic_iff (hc false) (hall false)).1.mpr fun a l hl hmerged k hk => ?_
    obtain ⟨t, ht, hname⟩ := layout_table hl
    have hlayout := layout_layout_table (hc false).keyed hl
    rw [hname] at hlayout
    rw [hnone t (mem_tables_of_table ht) l (by rw [hlayout]; rfl) hmerged] at hk
    cases hk
  exact ⟨hc true, hall true, hcyclic, hc false, hall false, hacyclic,
    (links_acyclic_iff (hc false) (hall false)).2.2 hacyclic _ _ _ (by decide +kernel)⟩

end Pushdown.Catalog
