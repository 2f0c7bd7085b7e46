import Mathlib.Data.List.Perm.Subperm
import Mathlib.Data.String.Basic
import Pushdown.Layout.Build
import Pushdown.Proofs.Outcome

/-!
# Tables by name

`Catalog.WellKeyed`: a catalog keeps its tables by their names in lower case. Names that are told apart by nothing
but the case of ASCII letters have the same lower case (`lower_eq_of_same`), so that wherever two names of tables
are compared without regard to it, they are names of the same table.
-/

namespace Pushdown

open List

namespace Text

/-- What holds of the capital letters of ASCII and of their lower case holds of any character and
its lower case, since other characters stay as they are. -/
theorem toLower_invariant {α : Type} {f : Char → α}
    (h : ∀ n < 91, 65 ≤ n → f (Char.ofNat n).toLower = f (Char.ofNat n)) (c : Char) : f c.toLower = f c := by
  by_cases hc : 65 ≤ c.toNat ∧ c.toNat < 91
  · have hletter := h c.toNat hc.2 hc.1
    rwa [Char.ofNat_toNat] at hletter
  · have hsame : c.toLower = c := dif_neg fun ⟨hfirst, hlast⟩ => hc ⟨hfirst, Nat.lt_succ_of_le hlast⟩
    rw [hsame]

theorem isCased_toLower (c : Char) : isCased c.toLower = isCased c :=
  toLower_invariant (by decide +kernel) c

theorem isIgnorable_toLower (c : Char) : isIgnorable c.toLower = isIgnorable c :=
  toLower_invariant (by decide +kernel) c

theorem lowerChar_toLower (c : Char) : lowerChar c.toLower = lowerChar c :=
  toLower_invariant (by decide +kernel) c

theorem toLower_eq_sigma (c : Char) : (c.toLower = 'Σ') = (c = 'Σ') :=
  toLower_invariant (f := (· = 'Σ')) (by decide +kernel) c

theorem meetsCased_map_toLower (cs : List Char) : meetsCased (cs.map Char.toLower) = meetsCased cs := by
  have hpast : (isIgnorable ∘ Char.toLower) = isIgnorable := funext isIgnorable_toLower
  rw [meetsCased, meetsCased, dropWhile_map, hpast]
  cases cs.dropWhile isIgnorable with
  | nil => rfl
  | cons c _ => exact isCased_toLower c

theorem lowerAfter_map_toLower (before cs : List Char) :
    lowerAfter (before.map Char.toLower) (cs.map Char.toLower) = lowerAfter before cs := by
  induction cs generalizing before with
  | nil => rfl
  | cons c cs ih =>
    rw [map_cons, lowerAfter, lowerAfter, ← map_cons (f := Char.toLower), ih (c :: before),
      meetsCased_map_toLower, meetsCased_map_toLower, lowerChar_toLower]
    simp only [toLower_eq_sigma]

theorem lower_eq_of_same {a b : String} (h : same a b) : lower a = lower b := by
  have hletters : a.toList.map Char.toLower = b.toList.map Char.toLower := eq_of_beq h
  rw [lower, lower, ← lowerAfter_map_toLower, hletters, lowerAfter_map_toLower]

end Text

variable {key : String}

theorem mem_of_lookup {α : Type} {value : α} {entries : List (String × α)} (h : entries.lookup key = some value) :
    (key, value) ∈ entries := by
  obtain ⟨before, after, rfl, -⟩ := lookup_eq_some_iff.mp h
  exact mem_append_right _ (mem_cons_self ..)

def Catalog.WellKeyed (c : Catalog) : Prop := ∀ e ∈ c.entries, e.1 = Text.lower e.2.name

/-- Tables are kept under their own names and in the order of these. -/
structure Catalog.Indexed (c : Catalog) : Prop where
  keyed : c.WellKeyed
  ordered : c.entries.Pairwise (·.1 < ·.1)

namespace Catalog

variable {c : Catalog} {t : Table} {name : String}

def keys (c : Catalog) : List String := c.entries.map (·.1)

section

variable (h : c.table name = .ok t)

include h

theorem table_ok : c.table? name = some t := by
  rw [table] at h
  split at h
  · cases h; assumption
  · cases h

theorem mem_entries_of_table : (Text.lower name, t) ∈ c.entries :=
  mem_of_lookup (table_ok h)

theorem mem_keys_of_table : Text.lower name ∈ c.keys :=
  mem_map_of_mem (mem_entries_of_table h)

theorem mem_tables_of_table : t ∈ c.tables :=
  mem_map_of_mem (mem_entries_of_table h)

end

theorem table_of_lower {a b : String} (hab : Text.lower a = Text.lower b) (h : c.table a = .ok t) :
    c.table b = .ok t := by
  have hfound := table_ok h
  rw [table?, hab] at hfound
  rw [table, table?, hfound]

theorem lower_of_table (hc : c.WellKeyed) (h : c.table name = .ok t) : Text.lower name = Text.lower t.name :=
  hc _ (mem_entries_of_table h)

theorem table_name (hc : c.WellKeyed) (h : c.table name = .ok t) : c.table t.name = .ok t :=
  table_of_lower (lower_of_table hc h) h

theorem Indexed.table_of_mem (hc : c.Indexed) (ht : t ∈ c.tables) : c.table t.name = .ok t := by
  obtain ⟨⟨key, t⟩, he, rfl⟩ := mem_map.mp ht
  obtain ⟨before, after, hentries⟩ := append_of_mem he
  have hfound : c.table? t.name = some t := by
    rw [table?, ← hc.keyed _ he, lookup_eq_some_iff]
    refine ⟨before, after, hentries, fun e hbefore => ?_⟩
    have hlt : e.1 < key := by
      have hordered := hc.ordered
      rw [hentries] at hordered
      exact (pairwise_append.mp hordered).2.2 e hbefore _ (mem_cons_self ..)
    exact bne_iff_ne.mpr hlt.ne'
  rw [table, hfound]

theorem Indexed.eq_of_same (hc : c.Indexed) {t u : Table} (ht : t ∈ c.tables) (hu : u ∈ c.tables)
    (h : Text.same t.name u.name) : t = u := by
  have hfound := table_of_lower (Text.lower_eq_of_same h) (hc.table_of_mem ht)
  rw [hc.table_of_mem hu] at hfound
  exact (Except.ok.inj hfound).symm

/-- Names in lower case of tables, each there once. -/
structure Distinct (c : Catalog) (names : List String) : Prop where
  nodup : names.Nodup
  subset : names ⊆ c.keys

theorem Distinct.nil (c : Catalog) : c.Distinct [] := ⟨.nil, nil_subset _⟩

variable {names : List String} {entries : List (String × Table)}

theorem Distinct.cons (h : c.Distinct names) (hnew : Text.lower name ∉ names) (ht : c.table name = .ok t) :
    c.Distinct (Text.lower name :: names) :=
  ⟨nodup_cons.mpr ⟨hnew, h.nodup⟩, cons_subset.mpr ⟨mem_keys_of_table ht, h.subset⟩⟩

theorem Distinct.length_le (h : c.Distinct names) : names.length ≤ c.entries.length := by
  have hle := (subperm_of_subset h.nodup h.subset).length_le
  rwa [keys, length_map] at hle

theorem mem_insertEntry {value : Table} {e : String × Table} (h : e ∈ insertEntry key value entries) :
    e = (key, value) ∨ e ∈ entries := by
  induction entries with
  | nil => exact .inl (mem_singleton.mp h)
  | cons entry entries ih =>
    rw [insertEntry] at h
    split at h
    · exact (mem_cons.mp h).imp_right (mem_cons_of_mem _)
    · split at h
      · exact mem_cons.mp h
      · rcases mem_cons.mp h with rfl | h
        · exact .inr (mem_cons_self ..)
        · exact (ih h).imp_right (mem_cons_of_mem _)

theorem pairwise_insertEntry {value : Table} (h : entries.Pairwise (·.1 < ·.1)) :
    (insertEntry key value entries).Pairwise (·.1 < ·.1) := by
  induction entries with
  | nil => exact pairwise_singleton ..
  | cons entry entries ih =>
    obtain ⟨hfirst, hrest⟩ := pairwise_cons.mp h
    rw [insertEntry]
    split
    · rename_i heq
      subst heq
      exact pairwise_cons.mpr ⟨hfirst, hrest⟩
    · rename_i hne
      split
      · rename_i hlt
        refine pairwise_cons.mpr ⟨fun e he => ?_, h⟩
        rcases mem_cons.mp he with rfl | he
        · exact hlt
        · exact hlt.trans (hfirst e he)
      · rename_i hlt
        refine pairwise_cons.mpr ⟨fun e he => ?_, ih hrest⟩
        rcases mem_insertEntry he with rfl | he
        · exact lt_of_le_of_ne (not_lt.mp hlt) (Ne.symm hne)
        · exact hfirst e he

theorem WellKeyed.insert (hc : c.WellKeyed) (t : Table) : (c.insert t).WellKeyed := by
  intro e he
  rcases mem_insertEntry he with rfl | he
  · rfl
  · exact hc e he

theorem Indexed.insert (hc : c.Indexed) (t : Table) : (c.insert t).Indexed :=
  ⟨hc.keyed.insert t, pairwise_insertEntry hc.ordered⟩

theorem indexed_ofTables (tables : List Table) : (ofTables tables).Indexed := by
  have hfold : ∀ c : Catalog, c.Indexed → (tables.foldl insert c).Indexed := by
    induction tables with
    | nil => exact fun c hc => hc
    | cons t tables ih => exact fun c hc => ih _ (hc.insert t)
  exact hfold empty ⟨fun e he => (nomatch he), .nil⟩

theorem wellKeyed_ofTables (tables : List Table) : (ofTables tables).WellKeyed :=
  (indexed_ofTables tables).keyed

end Catalog

end Pushdown
