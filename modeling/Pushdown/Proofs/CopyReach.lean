import Pushdown.Proofs.Construction

/-!
# What the search along copies decides

`copy_search_decides`: the search along copies finds a table just when foreign keys along which copies are kept
(`KeepsCopies`) lead to it. It goes on at no table twice, also where it was not done with it yet: what such a table
leads to is found from there.
-/

namespace Pushdown.Catalog

open Relation List

variable {c : Catalog} {goal : String}

def TargetsFound (c : Catalog) : Prop :=
  ∀ t ∈ c.tables, ∀ fk ∈ t.foreignKeys, (c.table fk.referencedTable).isOk

instance (c : Catalog) : Decidable c.TargetsFound := inferInstanceAs (Decidable (∀ t ∈ _, _))

/-- What is searched belongs to the table `t`, which is looked up under the name. -/
def SearchTask.IsAt (name : String) (t : Table) : SearchTask → Prop
  | .table other => other = name
  | .keys holder fks => holder = t ∧ fks ⊆ t.foreignKeys

theorem Searches.sound (hc : c.WellKeyed) (hfound : c.TargetsFound) {task : SearchTask}
    {visited : List String} {r : Except LayoutError (Bool × List String)}
    (h : c.Searches goal task visited r) {name : String} {t : Table} (ht : c.table name = .ok t)
    (hat : task.IsAt name t) :
    ∃ found after, r = .ok (found, after) ∧
      (found = true → ∃ b, TransGen c.KeepsCopies name b ∧ Text.same b goal) := by
  induction h generalizing name t with
  | seen _ | done => exact ⟨false, _, rfl, by simp⟩
  | unknown _ hunknown =>
    cases hat
    rw [ht] at hunknown
    cases hunknown
  | fresh _ ht' _ ih =>
    cases hat
    cases ht.symm.trans ht'
    exact ih ht ⟨rfl, List.Subset.refl _⟩
  | dangling hunknown =>
    obtain ⟨rfl, hfks⟩ := hat
    have hok := hfound _ (mem_tables_of_table ht) _ (cons_subset.mp hfks).1
    rw [hunknown] at hok
    cases hok
  | skip _ _ _ ih =>
    obtain ⟨rfl, hfks⟩ := hat
    exact ih ht ⟨rfl, (cons_subset.mp hfks).2⟩
  | found htarget hembeds hgoal =>
    obtain ⟨rfl, hfks⟩ := hat
    exact ⟨true, _, rfl, fun _ => ⟨_, .single ⟨_, _, _, ht, (cons_subset.mp hfks).1, htarget, hembeds, rfl⟩, hgoal⟩⟩
  | settled htarget hembeds _ _ _ ih =>
    obtain ⟨rfl, hfks⟩ := hat
    obtain ⟨found, after, hr, hchain⟩ := ih (table_name hc htarget) rfl
    refine ⟨found, after, hr, fun h => ?_⟩
    obtain ⟨b, hb, hsame⟩ := hchain h
    exact ⟨b, .head ⟨_, _, _, ht, (cons_subset.mp hfks).1, htarget, hembeds, rfl⟩ hb, hsame⟩
  | onward _ _ _ _ _ _ ih =>
    obtain ⟨rfl, hfks⟩ := hat
    exact ih ht ⟨rfl, (cons_subset.mp hfks).2⟩

theorem KeepsCopies.exists_table {a b : String} (h : c.KeepsCopies a b) : ∃ t ∈ c.tables, t.name = b := by
  obtain ⟨_, _, target, -, -, htarget, -, hname⟩ := h
  exact ⟨target, mem_tables_of_table htarget, hname⟩

theorem copy_search_decides (hc : c.Indexed) (hfound : c.TargetsFound) {a b : Table} (ha : a ∈ c.tables)
    (hb : b ∈ c.tables) :
    ∃ found visited, c.Searches b.name (.table a.name) [] (.ok (found, visited)) ∧
      c.embedChainReaches a.name b.name = .ok found ∧
      (found = true ↔ TransGen c.KeepsCopies a.name b.name) := by
  have hsearch : c.Searches b.name (.table a.name) [] _ := searches_iff.mpr rfl
  obtain ⟨found, visited, hr, hchain⟩ := hsearch.sound hc.keyed hfound (hc.table_of_mem ha) rfl
  rw [hr] at hsearch
  have hreaches : c.embedChainReaches a.name b.name = .ok found := by
    rw [embedChainReaches, hr]
    rfl
  refine ⟨found, visited, hsearch, hreaches, fun hyes => ?_, fun hpath => ?_⟩
  · obtain ⟨last, hpath, hsame⟩ := hchain hyes
    obtain ⟨_, -, hstep⟩ := TransGen.tail'_iff.mp hpath
    obtain ⟨t, ht, rfl⟩ := hstep.exists_table
    rwa [← hc.eq_of_same ht hb hsame]
  · by_contra hno
    rw [Bool.not_eq_true] at hno
    exact not_same_of_embedChainReaches (hno ▸ hreaches) hpath (Text.same_refl _)

def part (name : String) (others : List String) : Table where
  name := name
  columns := [⟨"no", .integer, false⟩, ⟨"of", .integer, false⟩]
  primaryKey := ["no"]
  foreignKeys := others.map fun other => ⟨"made_of", ["of"], other, ["no"]⟩
  properties := { embeddable := true }

def machine : Catalog := .ofTables [part "Wheel" ["bolt"], part "bolt" ["NUT"], part "nut" ["bolt"]]

/-- Bolts and nuts lead to each other, and from wheels the search finds nuts all the same. -/
theorem copy_search_decides_machine :
    machine.Indexed ∧ machine.TargetsFound ∧
      machine.embedChainReaches "Wheel" "nut" = .ok true ∧ TransGen machine.KeepsCopies "Wheel" "nut" ∧
      machine.embedChainReaches "nut" "Wheel" = .ok false ∧ ¬TransGen machine.KeepsCopies "nut" "Wheel" := by
  have hc : machine.Indexed := indexed_ofTables _
  have hfound : machine.TargetsFound := by decide +kernel
  have hwheel : part "Wheel" ["bolt"] ∈ machine.tables := by decide +kernel
  have hnut : part "nut" ["bolt"] ∈ machine.tables := by decide +kernel
  have hyes : machine.embedChainReaches "Wheel" "nut" = .ok true := rfl
  have hno : machine.embedChainReaches "nut" "Wheel" = .ok false := rfl
  obtain ⟨_, -, -, hreaches, hpath⟩ := copy_search_decides hc hfound hwheel hnut
  cases hyes.symm.trans hreaches
  obtain ⟨_, -, -, hreaches', hpath'⟩ := copy_search_decides hc hfound hnut hwheel
  cases hno.symm.trans hreaches'
  exact ⟨hc, hfound, hyes, hpath.mp rfl, hno, fun h => by cases hpath'.mpr h⟩

end Pushdown.Catalog
