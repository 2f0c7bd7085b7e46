import Mathlib.Data.List.Chain
import Pushdown.Proofs.ColumnLocations
import Pushdown.Proofs.EmbedSearch
import Pushdown.Proofs.LayoutCache

/-!
# The construction of layouts ends

`Ends` and `Searches` say step by step how a layout and a search along copies come to an answer, with no bound on
the steps. Nothing in a catalog keeps merges or foreign keys from leading round in a circle; `construction_ends`
rests on the sets of tables that are under construction and of tables that were visited (`ends_request`,
`searches_embedSearch`).
-/

namespace Pushdown

open Relation List

section Fuel

variable {α : Type} {f : Nat → α} {r r' : α}

theorem exists_fuel_succ (h : ∃ n, ∀ fuel, n ≤ fuel → f (fuel + 1) = r) : ∃ n, ∀ fuel, n ≤ fuel → f fuel = r := by
  obtain ⟨n, hn⟩ := h
  refine ⟨n + 1, fun fuel hfuel => ?_⟩
  obtain ⟨fuel, rfl⟩ := Nat.exists_eq_add_of_le' hfuel
  exact hn (fuel + n) (Nat.le_add_left ..)

theorem eq_of_exists_fuel (h : ∃ n, ∀ fuel, n ≤ fuel → f fuel = r)
    (h' : ∃ n, ∀ fuel, n ≤ fuel → f fuel = r') : r = r' := by
  obtain ⟨n, hn⟩ := h
  obtain ⟨m, hm⟩ := h'
  rw [← hn (max n m) (le_max_left ..), hm (max n m) (le_max_right ..)]

end Fuel

variable {r : Except LayoutError (Bool × List String)}

namespace Catalog

variable {c : Catalog} {goal : String}

/-- What is searched for copies: a table, or the foreign keys of a table that are left. -/
inductive SearchTask where
  | table (name : String)
  | keys (holder : Table) (fks : List ForeignKey)

/-- A search comes to its end, when the tables in the list were visited before. -/
inductive Searches (c : Catalog) (goal : String) :
    SearchTask → List String → Except LayoutError (Bool × List String) → Prop
  | seen {name visited} : Text.lower name ∈ visited → Searches c goal (.table name) visited (.ok (false, visited))
  | unknown {name visited e} : Text.lower name ∉ visited → c.table name = .error e →
      Searches c goal (.table name) visited (.error e)
  | fresh {name visited t r} : Text.lower name ∉ visited → c.table name = .ok t →
      Searches c goal (.keys t t.foreignKeys) (Text.lower name :: visited) r →
      Searches c goal (.table name) visited r
  | done {holder visited} : Searches c goal (.keys holder []) visited (.ok (false, visited))
  | dangling {holder fk fks visited e} : c.table fk.referencedTable = .error e →
      Searches c goal (.keys holder (fk :: fks)) visited (.error e)
  | skip {holder target fk fks visited r} : c.table fk.referencedTable = .ok target →
      ¬target.properties.embedsInto holder.name → Searches c goal (.keys holder fks) visited r →
      Searches c goal (.keys holder (fk :: fks)) visited r
  | found {holder target fk fks visited} : c.table fk.referencedTable = .ok target →
      target.properties.embedsInto holder.name → Text.same target.name goal →
      Searches c goal (.keys holder (fk :: fks)) visited (.ok (true, visited))
  | settled {holder target fk fks visited r} : c.table fk.referencedTable = .ok target →
      target.properties.embedsInto holder.name → ¬Text.same target.name goal →
      Searches c goal (.table target.name) visited r → (∀ after, r ≠ .ok (false, after)) →
      Searches c goal (.keys holder (fk :: fks)) visited r
  | onward {holder target fk fks visited after r} : c.table fk.referencedTable = .ok target →
      target.properties.embedsInto holder.name → ¬Text.same target.name goal →
      Searches c goal (.table target.name) visited (.ok (false, after)) →
      Searches c goal (.keys holder fks) after r → Searches c goal (.keys holder (fk :: fks)) visited r

def SearchTask.run (c : Catalog) (goal : String) (fuel : Nat) :
    SearchTask → List String → Except LayoutError (Bool × List String)
  | .table name => c.embedSearch goal fuel name
  | .keys holder fks => c.searchKeys goal holder (c.embedSearch goal fuel) fks

theorem run_keys_cons {holder target : Table} {fk : ForeignKey} (fks : List ForeignKey)
    (visited : List String) (ht : c.table fk.referencedTable = .ok target)
    (hembeds : target.properties.embedsInto holder.name) (hgoal : ¬Text.same target.name goal) (fuel : Nat) :
    (SearchTask.keys holder (fk :: fks)).run c goal fuel visited =
      (SearchTask.table target.name).run c goal fuel visited >>= fun found =>
        if found.1 then .ok (true, found.2) else (SearchTask.keys holder fks).run c goal fuel found.2 := by
  show c.searchKeys goal holder _ (fk :: fks) visited = _
  rw [searchKeys, ht]
  simp only [bind, Except.bind, hembeds, hgoal]
  rfl

theorem Searches.exists_fuel {task : SearchTask} {visited : List String} (h : Searches c goal task visited r) :
    ∃ n, ∀ fuel, n ≤ fuel → task.run c goal fuel visited = r := by
  induction h with
  | @seen name visited hmem =>
    refine exists_fuel_succ ⟨0, fun fuel _ => ?_⟩
    show c.embedSearch goal (fuel + 1) name visited = _
    rw [embedSearch, if_pos (contains_iff_mem.mpr hmem)]
  | @unknown name visited e hnew ht =>
    refine exists_fuel_succ ⟨0, fun fuel _ => ?_⟩
    show c.embedSearch goal (fuel + 1) name visited = _
    rw [embedSearch, if_neg (by simpa using hnew), ht]
    rfl
  | @fresh name visited t r hnew ht _ ih =>
    obtain ⟨n, hn⟩ := ih
    refine exists_fuel_succ ⟨n, fun fuel hfuel => ?_⟩
    show c.embedSearch goal (fuel + 1) name visited = _
    rw [embedSearch, if_neg (by simpa using hnew), ht]
    exact hn fuel hfuel
  | done => exact ⟨0, fun _ _ => rfl⟩
  | @dangling holder fk fks visited e ht =>
    refine ⟨0, fun fuel _ => ?_⟩
    show c.searchKeys goal holder _ (fk :: fks) visited = _
    rw [searchKeys, ht]
    rfl
  | @skip holder target fk fks visited r ht hembeds _ ih =>
    obtain ⟨n, hn⟩ := ih
    refine ⟨n, fun fuel hfuel => ?_⟩
    show c.searchKeys goal holder _ (fk :: fks) visited = _
    rw [searchKeys, ht]
    exact (if_pos (by simpa using hembeds)).trans (hn fuel hfuel)
  | @found holder target fk fks visited ht hembeds hgoal =>
    refine ⟨0, fun fuel _ => ?_⟩
    show c.searchKeys goal holder _ (fk :: fks) visited = _
    rw [searchKeys, ht]
    exact (if_neg (by simpa using hembeds)).trans (if_pos hgoal)
  | @settled holder target fk fks visited r ht hembeds hgoal _ hstop ih =>
    obtain ⟨n, hn⟩ := ih
    refine ⟨n, fun fuel hfuel => ?_⟩
    rw [run_keys_cons fks visited ht hembeds hgoal, hn fuel hfuel]
    rcases r with e | ⟨_ | _, after⟩
    · rfl
    · exact absurd rfl (hstop after)
    · rfl
  | @onward holder target fk fks visited after r ht hembeds hgoal _ _ ih ihrest =>
    obtain ⟨n, hn⟩ := ih
    obtain ⟨m, hm⟩ := ihrest
    refine ⟨max n m, fun fuel hfuel => ?_⟩
    rw [run_keys_cons fks visited ht hembeds hgoal, hn fuel (le_of_max_le_left hfuel)]
    exact hm fuel (le_of_max_le_right hfuel)

variable {before : List String}

theorem searches_searchKeys {holder : Table} {visit : String → List String → Except LayoutError (Bool × List String)}
    (steps : Nat) (hvisit : ∀ name before, c.Distinct before → steps ≤ before.length →
      Searches c goal (.table name) before (visit name before))
    (hkeeps : ∀ name before after, c.Distinct before → steps ≤ before.length →
      visit name before = .ok (false, after) → c.Distinct after ∧ before.length ≤ after.length)
    {fks : List ForeignKey} (hbefore : c.Distinct before) (hsteps : steps ≤ before.length) :
    Searches c goal (.keys holder fks) before (c.searchKeys goal holder visit fks before) := by
  induction fks generalizing before with
  | nil => exact .done
  | cons fk fks ih =>
    rw [searchKeys]
    cases ht : c.table fk.referencedTable with
    | error e => exact .dangling ht
    | ok target =>
      simp only [bind, Except.bind]
      split
      · rename_i hembeds
        exact .skip ht (by simpa using hembeds) (ih hbefore hsteps)
      · rename_i hembeds
        have hembeds : target.properties.embedsInto holder.name := by simpa using hembeds
        split
        · rename_i hgoal
          exact .found ht hembeds hgoal
        · rename_i hgoal
          have hbelow := hvisit target.name before hbefore hsteps
          cases hfound : visit target.name before with
          | error e =>
            rw [hfound] at hbelow
            exact .settled ht hembeds hgoal hbelow fun _ h => by cases h
          | ok found =>
            rw [hfound] at hbelow
            obtain ⟨_ | _, after⟩ := found
            · obtain ⟨hafter, hle⟩ := hkeeps target.name before after hbefore hsteps hfound
              exact .onward ht hembeds hgoal hbelow (ih hafter (hsteps.trans hle))
            · exact .settled ht hembeds hgoal hbelow fun _ h => by cases h

/-- Every search inside another has visited one more table, so that the steps allowed for are enough. -/
theorem searches_embedSearch {fuel : Nat} {name : String} (hbefore : c.Distinct before)
    (hfuel : c.entries.length < fuel + before.length) :
    Searches c goal (.table name) before (c.embedSearch goal fuel name before) := by
  induction fuel generalizing name before with
  | zero =>
    have hle := hbefore.length_le
    omega
  | succ fuel ih =>
    rw [embedSearch]
    split
    · rename_i hmem
      exact .seen (contains_iff_mem.mp hmem)
    · rename_i hnew
      have hnew : Text.lower name ∉ before := by simpa using hnew
      cases ht : c.table name with
      | error e => exact .unknown hnew ht
      | ok t =>
        refine .fresh hnew ht (searches_searchKeys (before.length + 1)
          (fun name visited hdistinct hsteps => ih hdistinct (by omega))
          (fun name visited after hdistinct hsteps hfound => ?_) (hbefore.cons hnew ht) le_rfl)
        obtain ⟨hextends, -⟩ := embedSearch_extends hdistinct (by omega) hfound
        exact ⟨hextends.visited, hextends.length_le⟩

end Catalog

namespace LayoutCache

variable {c : Catalog} {cache : LayoutCache} {name : String} {fuel : Nat}

/-! What is constructed, by the reasons for it. -/

theorem construct_of_error {e : LayoutError} (h : c.table name >>= c.outline = .error e) :
    (construct c fuel name).run cache = (.error e, cache) := by
  rw [construct]
  cases ht : c.table name with
  | error e' =>
    rw [ht] at h
    cases h
    rfl
  | ok t =>
    rw [ht] at h
    have h : c.outline t = .error e := h
    simp only [h]
    rfl

variable {own : TableLayout} {r : Except LayoutError Layout × LayoutCache}

theorem construct_of_top {t : Table} (ht : c.table name = .ok t) (hown : c.outline t = .ok own)
    (hmerge : t.properties.mergeInto = none) :
    (construct c fuel name).run cache = (Catalog.placeBelow t own none, cache) := by
  simp only [construct, ht, hown, hmerge]
  rfl

theorem construct_of_merged {name above : String} {t : Table} (ht : c.table name = .ok t) (hown : c.outline t = .ok own)
    (hmerge : t.properties.mergeInto = some above) :
    (construct c fuel name).run cache =
      (((request c fuel above).run cache).1 >>= fun parent => Catalog.placeBelow t own (some parent),
        ((request c fuel above).run cache).2) := by
  simp only [construct, ht, hown, hmerge, StateT.run_bind]
  rcases (request c fuel above).run cache with ⟨_ | _, after⟩ <;> rfl

/-- A request for the layout of a table comes to its end, with an answer and with the cache after it. -/
inductive Ends (c : Catalog) : LayoutCache → String → Except LayoutError Layout × LayoutCache → Prop
  | known {cache : LayoutCache} {name : String} {l : Layout} :
      cache.known.lookup (Text.lower name) = some l → Ends c cache name (.ok l, cache)
  | cyclic {cache : LayoutCache} {name : String} : cache.known.lookup (Text.lower name) = none →
      Text.lower name ∈ cache.building → Ends c cache name (.error (.cyclic name), cache)
  | failed {cache : LayoutCache} {name : String} {e : LayoutError} :
      cache.known.lookup (Text.lower name) = none → Text.lower name ∉ cache.building →
      c.table name >>= c.outline = .error e →
      Ends c cache name (.error e, (cache.start (Text.lower name)).finish (Text.lower name))
  | top {cache : LayoutCache} {name : String} {t : Table} {own : TableLayout} :
      cache.known.lookup (Text.lower name) = none → Text.lower name ∉ cache.building →
      c.table name = .ok t → c.outline t = .ok own → t.properties.mergeInto = none →
      Ends c cache name (Catalog.placeBelow t own none,
        settle (Text.lower name) (cache.start (Text.lower name)) (Catalog.placeBelow t own none))
  | merged {cache : LayoutCache} {name above : String} {t : Table} {own : TableLayout}
      {r : Except LayoutError Layout × LayoutCache} :
      cache.known.lookup (Text.lower name) = none → Text.lower name ∉ cache.building →
      c.table name = .ok t → c.outline t = .ok own → t.properties.mergeInto = some above →
      Ends c (cache.start (Text.lower name)) above r →
      Ends c cache name (r.1 >>= fun parent => Catalog.placeBelow t own (some parent),
        settle (Text.lower name) r.2 (r.1 >>= fun parent => Catalog.placeBelow t own (some parent)))

theorem Ends.exists_fuel (h : Ends c cache name r) : ∃ n, ∀ fuel, n ≤ fuel → (request c fuel name).run cache = r := by
  induction h with
  | known hknown =>
    refine exists_fuel_succ ⟨0, fun fuel _ => ?_⟩
    rw [request_succ, hknown]
  | cyclic hnew hbuilding =>
    refine exists_fuel_succ ⟨0, fun fuel _ => ?_⟩
    rw [request_succ, hnew]
    exact if_pos (contains_iff_mem.mpr hbuilding)
  | failed hnew hfree hfailed =>
    refine exists_fuel_succ ⟨0, fun fuel _ => ?_⟩
    rw [request_succ, hnew]
    refine (if_neg (by simpa using hfree)).trans ?_
    rw [construct_of_error hfailed]
    rfl
  | top hnew hfree ht hown hmerge =>
    refine exists_fuel_succ ⟨0, fun fuel _ => ?_⟩
    rw [request_succ, hnew]
    refine (if_neg (by simpa using hfree)).trans ?_
    rw [construct_of_top ht hown hmerge]
  | merged hnew hfree ht hown hmerge _ ih =>
    obtain ⟨n, hn⟩ := ih
    refine exists_fuel_succ ⟨n, fun fuel hfuel => ?_⟩
    rw [request_succ, hnew]
    refine (if_neg (by simpa using hfree)).trans ?_
    rw [construct_of_merged ht hown hmerge, hn fuel hfuel]

/-- Every request inside another has one more table under construction, so that the steps allowed for are
enough. -/
theorem ends_request (hbuilding : c.Distinct cache.building)
    (hfuel : c.entries.length < fuel + cache.building.length) :
    Ends c cache name ((request c fuel name).run cache) := by
  induction fuel generalizing cache name with
  | zero =>
    -- more tables would be under construction than there are
    have hle := hbuilding.length_le
    omega
  | succ fuel ih =>
    rw [request_succ]
    cases hknown : cache.known.lookup (Text.lower name) with
    | some l => exact .known hknown
    | none =>
      by_cases hmem : Text.lower name ∈ cache.building
      · rw [if_pos (contains_iff_mem.mpr hmem)]
        exact .cyclic hknown hmem
      · rw [if_neg (by simpa using hmem)]
        cases hown : c.table name >>= c.outline with
        | error e =>
          rw [construct_of_error hown]
          exact .failed hknown hmem hown
        | ok own =>
          obtain ⟨t, ht, hown⟩ := exists_of_bind_ok hown
          cases hmerge : t.properties.mergeInto with
          | none =>
            rw [construct_of_top ht hown hmerge]
            exact .top hknown hmem ht hown hmerge
          | some above =>
            rw [construct_of_merged ht hown hmerge]
            refine .merged hknown hmem ht hown hmerge (ih (hbuilding.cons hmem ht) ?_)
            show c.entries.length < fuel + (cache.building.length + 1)
            omega

theorem ends_iff (hbuilding : cache.building = []) : Ends c cache name r ↔ r = layout c name cache := by
  have hends : Ends c cache name (layout c name cache) := ends_request (hbuilding ▸ .nil c) (by omega)
  constructor
  · exact fun h => eq_of_exists_fuel h.exists_fuel hends.exists_fuel
  · rintro rfl
    exact hends

end LayoutCache

namespace Catalog

variable {c : Catalog}

theorem searches_iff {goal name : String} :
    Searches c goal (.table name) [] r ↔ r = c.embedSearch goal (c.entries.length + 1) name [] := by
  have hsearches : Searches c goal (.table name) [] _ := searches_embedSearch (.nil c) (Nat.lt_succ_self _)
  constructor
  · exact fun h => eq_of_exists_fuel h.exists_fuel hsearches.exists_fuel
  · rintro rfl
    exact hsearches

end Catalog

/-- The rows of `a` lie in rows of `b`, by a key that pairs as many columns with as many. -/
def TableLayout.LiesIn (a b : TableLayout) : Prop :=
  ∃ key, a.role = .merged key ∧ key.child = a.table ∧ key.parent = b.table ∧
    key.columns.length = key.referencedColumns.length

namespace Catalog

variable {c : Catalog} {name : String} {l : Layout} {above : String}

theorem LaysOut.isChain (h : c.LaysOut name l) : l.chain.IsChain TableLayout.LiesIn := by
  induction h with
  | top => exact .singleton _
  | @merged _ _ t own parent key ht hown hmerge _ hkey ih =>
    refine .cons_cons ⟨key, rfl, ?_, (mergeKey_ok hkey).1, ?_⟩ ih
    · exact (mergeKey_ok hkey).2.trans (outline_ok hown).1.table.symm
    · obtain ⟨ref, href, -, hcolumns, hreferenced, -⟩ := mergeKey_reference hkey
      obtain ⟨fk, -, hfk⟩ := exists_of_mem_mapM (outline_ok hown).1.references href
      rw [hcolumns, hreferenced]
      exact length_of_reference hfk

theorem LaysOut.not_isMerged_last (h : c.LaysOut name l) : ∀ last ∈ l.chain.getLast?, last.isMerged = false := by
  induction h with
  | top ht hown hmerge =>
    intro last hlast
    cases hlast
    have hmerged := (LaysOut.top ht hown hmerge).isMerged_iff
    simpa using hmerged
  | merged _ _ _ _ _ ih => rwa [Layout.chain, Layout.chain, getLast?_cons_cons]

theorem LaysOut.exists_of_mem_ancestors (hc : c.WellKeyed) (h : c.LaysOut name l) {above : TableLayout}
    (habove : above ∈ l.ancestors) :
    ∃ parent, c.LaysOut above.table parent ∧ parent.ancestors.length < l.ancestors.length := by
  induction h with
  | top => cases habove
  | @merged _ _ _ _ parent _ _ _ _ hparent _ ih =>
    have hlength : parent.chain.length = parent.ancestors.length + 1 := length_cons
    rcases mem_cons.mp habove with rfl | habove
    · have hself := layout_eq_ok_iff.mp (layout_layout_table hc (layout_eq_ok_iff.mpr hparent))
      exact ⟨parent, hself, by simp only [hlength]; omega⟩
    · obtain ⟨further, hfurther, hlt⟩ := ih habove
      exact ⟨further, hfurther, by simp only [hlength]; omega⟩

theorem LaysOut.pairwise_lower_ne (hc : c.WellKeyed) (h : c.LaysOut name l) :
    l.chain.Pairwise fun a b => Text.lower a.table ≠ Text.lower b.table := by
  induction h with
  | top => exact pairwise_singleton ..
  | merged ht hown hmerge hparent hkey ih =>
    refine pairwise_cons.mpr ⟨fun above habove hsame => ?_, ih⟩
    have hself := layout_eq_ok_iff.mp
      (layout_layout_table hc (layout_eq_ok_iff.mpr (LaysOut.merged ht hown hmerge hparent hkey)))
    obtain ⟨parent, habove, hlt⟩ := hself.exists_of_mem_ancestors hc habove
    cases (habove.of_lower hsame.symm).unique hself
    exact Nat.lt_irrefl _ hlt

/-- `a` is merged into `b`, as `a` spells its name. -/
def MergesUp (c : Catalog) (a b : String) : Prop :=
  ∃ t, c.table a = .ok t ∧ t.properties.mergeInto = some b

theorem LaysOut.exists_above (h : c.LaysOut name l) (hup : c.MergesUp name above) :
    ∃ parent, c.LaysOut above parent ∧ parent.ancestors.length < l.ancestors.length := by
  obtain ⟨t, ht, hmerge⟩ := hup
  obtain ⟨parent, hparent, hancestors⟩ := h.exists_parent ht hmerge
  refine ⟨parent, hparent, ?_⟩
  rw [hancestors, Layout.chain, length_cons]
  exact Nat.lt_succ_self _

theorem LaysOut.exists_of_mergesUp (h : c.LaysOut name l) (hup : ReflTransGen c.MergesUp name above) :
    ∃ parent, c.LaysOut above parent ∧ parent.ancestors.length ≤ l.ancestors.length := by
  induction hup with
  | refl => exact ⟨l, h, le_rfl⟩
  | tail _ hstep ih =>
    obtain ⟨parent, hparent, hle⟩ := ih
    obtain ⟨further, hfurther, hlt⟩ := hparent.exists_above hstep
    exact ⟨further, hfurther, hlt.le.trans hle⟩

theorem LaysOut.lower_ne_of_mergesUp (h : c.LaysOut name l) (hup : TransGen c.MergesUp name above) :
    Text.lower name ≠ Text.lower above := by
  obtain ⟨next, hstep, hup⟩ := TransGen.head'_iff.mp hup
  obtain ⟨parent, hparent, hlt⟩ := h.exists_above hstep
  obtain ⟨further, hfurther, hle⟩ := hparent.exists_of_mergesUp hup
  intro hsame
  cases (hfurther.of_lower hsame.symm).unique h
  omega

/-- Every request for a layout `Ends` with one answer, whatever was asked for before, and so does every search along
copies. The tables on the way up from a table that has a layout are different, in whatever case their names are
written; each but the last `LiesIn` the next, and the last is not merged. A table from which merges lead to one
table twice has no layout. -/
theorem construction_ends (c : Catalog) (asked : List String) (name : String) :
    (∀ r, LayoutCache.Ends c (LayoutCache.after c asked) name r ↔
      r = LayoutCache.layout c name (LayoutCache.after c asked)) ∧
    (∀ start goal, ∃ found, (∀ r, c.Searches goal (.table start) [] r ↔ r = found) ∧
      c.embedChainReaches start goal = (·.1) <$> found) ∧
    (∀ l, (LayoutCache.layout c name (LayoutCache.after c asked)).1 = .ok l →
      (c.WellKeyed → l.chain.Pairwise fun a b => Text.lower a.table ≠ Text.lower b.table) ∧
      l.chain.IsChain TableLayout.LiesIn ∧ ∀ last ∈ l.chain.getLast?, last.isMerged = false) ∧
    (∀ a b, ReflTransGen c.MergesUp name a → TransGen c.MergesUp a b → Text.lower a = Text.lower b →
      ∃ e, (LayoutCache.layout c name (LayoutCache.after c asked)).1 = .error e) := by
  obtain ⟨hsound, hbuilding⟩ := LayoutCache.after_sound c asked
  have hanswer := (LayoutCache.answers_layout name hsound hbuilding).answer
  rw [hanswer]
  refine ⟨fun r => LayoutCache.ends_iff hbuilding,
    fun start goal => ⟨_, fun r => searches_iff, rfl⟩, fun l hl => ?_, fun a b hname hround hsame => ?_⟩
  · have hout := layout_eq_ok_iff.mp hl
    exact ⟨fun hc => hout.pairwise_lower_ne hc, hout.isChain, hout.not_isMerged_last⟩
  · cases hlayout : c.layout name with
    | error e => exact ⟨e, rfl⟩
    | ok l =>
      obtain ⟨l', hl', -⟩ := (layout_eq_ok_iff.mp hlayout).exists_of_mergesUp hname
      exact absurd hsame (hl'.lower_ne_of_mergesUp hround)

def sheet (name : String) (above : Option String) : Table where
  name := name
  columns := [⟨"no", .integer, false⟩, ⟨"up", .integer, false⟩]
  primaryKey := ["no"]
  foreignKeys := above.toList.map fun parent => ⟨"on_top", ["up"], parent, ["no"]⟩
  properties := { mergeInto := above }

def boxes : Catalog :=
  .ofTables [sheet "box" none, sheet "folder" (some "BOX"), sheet "letter" (some "folder")]

def nestedBoxes : Catalog :=
  .ofTables [sheet "box" (some "Folder"), sheet "folder" (some "box"), sheet "letter" (some "folder")]

theorem construction_ends_boxes :
    (boxes.WellKeyed ∧ ∃ l,
      (LayoutCache.layout boxes "Letter" (LayoutCache.after boxes ["stamp", "folder"])).1 = .ok l ∧
        l.chain.map (·.table) = ["letter", "folder", "box"] ∧
        (l.chain.Pairwise fun a b => Text.lower a.table ≠ Text.lower b.table) ∧
        l.chain.IsChain TableLayout.LiesIn ∧ ∀ last ∈ l.chain.getLast?, last.isMerged = false) ∧
      (ReflTransGen nestedBoxes.MergesUp "letter" "folder" ∧
        TransGen nestedBoxes.MergesUp "folder" "Folder" ∧ Text.lower "folder" = Text.lower "Folder" ∧
        ∃ e, (LayoutCache.layout nestedBoxes "letter" (LayoutCache.after nestedBoxes ["box"])).1 =
          .error e) := by
  have hc : boxes.WellKeyed := wellKeyed_ofTables _
  have hletter : nestedBoxes.MergesUp "letter" "folder" := ⟨_, rfl, rfl⟩
  have hfolder : nestedBoxes.MergesUp "folder" "box" := ⟨_, rfl, rfl⟩
  have hbox : nestedBoxes.MergesUp "box" "Folder" := ⟨_, rfl, rfl⟩
  have hsame : Text.lower "folder" = Text.lower "Folder" := by decide +kernel
  have hround : TransGen nestedBoxes.MergesUp "folder" "Folder" := (TransGen.single hfolder).tail hbox
  obtain ⟨l, hl, htables⟩ : ∃ l,
      (LayoutCache.layout boxes "Letter" (LayoutCache.after boxes ["stamp", "folder"])).1 = .ok l ∧
        l.chain.map (·.table) = ["letter", "folder", "box"] := ⟨_, rfl, rfl⟩
  obtain ⟨-, -, hchain, -⟩ := construction_ends boxes ["stamp", "folder"] "Letter"
  obtain ⟨-, -, -, herror⟩ := construction_ends nestedBoxes ["box"] "letter"
  obtain ⟨hapart, hmerged, hlast⟩ := hchain l hl
  exact ⟨⟨hc, l, hl, htables, hapart hc, hmerged, hlast⟩,
    .single hletter, hround, hsame, herror _ _ (.single hletter) hround hsame⟩

end Catalog

end Pushdown
