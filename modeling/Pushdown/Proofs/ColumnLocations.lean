import Mathlib.Data.List.Induction
import Pushdown.Layout.Location
import Pushdown.Proofs.Layouts
import Pushdown.Proofs.Path

/-!
# Where columns lie

`heldField`: where a row holds a column itself, inside the `_id` when it belongs to the key. A column that the row
takes over lies where its partner does (`locate_concat_cases`). `location_ne`, `path_ne`: two columns of a table
that is reached by hops lie in different places, and those of a merged table also under different paths, as long as
no name can be taken for the `_id` or for a path (`PlainColumns`).
-/

namespace Pushdown

open List Pushdown.Path TableLayout Text

variable {t : Table}

/-! ### Names -/

variable {a b name : String} {α : Type} {col : Column}

namespace Text

/-- No two of the names are the same up to the case of ASCII letters. -/
def Apart (names : List String) : Prop := names.Pairwise fun a b => ¬same a b

instance (names : List String) : Decidable (Apart names) :=
  inferInstanceAs (Decidable (List.Pairwise ..))

theorem same_congr (h : same a b) (x : String) : same x a = same x b := by
  rw [Bool.eq_iff_iff]
  exact ⟨fun hx => same_trans hx h, fun hx => same_trans hx (by rwa [same_comm])⟩

theorem hasName_congr (h : same a b) (names : List String) : hasName names a = hasName names b := by
  simp only [hasName, same_congr h]

end Text

theorem find?_same {name : α → String} (h : Text.same a b) (l : List α) :
    l.find? (fun x => Text.same (name x) a) = l.find? fun x => Text.same (name x) b := by
  simp only [same_congr h]

theorem find?_of_apart {name : α → String} {l : List α} (hapart : Text.Apart (l.map name)) {a : α} (ha : a ∈ l)
    (hname : Text.same (name a) b) : l.find? (fun x => Text.same (name x) b) = some a := by
  induction l with
  | nil => cases ha
  | cons x l ih =>
    obtain ⟨hx, hrest⟩ := pairwise_cons.mp hapart
    rcases mem_cons.mp ha with rfl | ha
    · rw [find?_cons_of_pos (by simpa using hname)]
    · have hother : ¬Text.same (name x) b := fun hsame =>
        hx (name a) (mem_map_of_mem ha) (same_trans hsame (by rwa [same_comm]))
      rw [find?_cons_of_neg (by simpa using hother)]
      exact ih hrest ha

theorem Table.same_of_column? {column : Column} (h : t.column? name = some column) : Text.same column.name name := by
  simpa using find?_some h

theorem Table.not_same_of_column? {column column' : Column} (hab : ¬Text.same a b) (h : t.column? a = some column)
    (h' : t.column? b = some column') : ¬Text.same column.name column'.name := by
  intro hsame
  have ha := t.same_of_column? h
  rw [same_comm] at ha
  exact hab (same_trans ha (same_trans hsame (t.same_of_column? h')))

/-- A name that a column can have among the fields of a row: without a dot, and not that of the key. -/
def IsFieldName (s : String) : Prop := '.' ∉ s.toList ∧ s ≠ "_id"

instance (s : String) : Decidable (IsFieldName s) := inferInstanceAs (Decidable (_ ∧ _))

def Table.PlainColumns (t : Table) : Prop := ∀ column ∈ t.columns, IsFieldName column.name

instance (t : Table) : Decidable t.PlainColumns := inferInstanceAs (Decidable (∀ column ∈ _, _))

theorem Table.PlainColumns.isFieldName (ht : t.PlainColumns) {column : String} (hcol : t.column? column = some col) :
    IsFieldName col.name :=
  ht col (mem_of_find?_eq_some hcol)

/-! ### Fields of a row -/

namespace TableLayout

variable {t : TableLayout} {inherited : List String} {column : String}

/-- The field that holds a column of the rows of `t`, when `inherited` columns are not held in `_id`. -/
def heldField (t : TableLayout) (inherited : List String) (column : String) : String :=
  (t.idField? inherited column).getD column

theorem heldField_of_not_id (h : Text.hasName t.idColumns column = false) : t.heldField inherited column = column := by
  simp [heldField, idField?, h]

theorem heldField_of_id (h : Text.hasName t.idColumns column) (hown : Text.hasName inherited column = false) :
    t.heldField inherited column = if t.idColumns.length = 1 then "_id" else Path.extend "_id" column := by
  rw [heldField, idField?, hown, h]
  by_cases hone : t.idColumns.length = 1 <;> simp [hone]

theorem heldField_cases (t : TableLayout) (inherited : List String) (column : String) :
    t.heldField inherited column = column ∨
      Text.hasName t.idColumns column ∧
        t.heldField inherited column = if t.idColumns.length = 1 then "_id" else Path.extend "_id" column := by
  cases hid : Text.hasName t.idColumns column with
  | false => exact .inl (heldField_of_not_id hid)
  | true =>
    cases hown : Text.hasName inherited column with
    | false => exact .inr ⟨rfl, heldField_of_id hid hown⟩
    | true => exact .inl (by simp [heldField, idField?, hown])

theorem not_inherited_of_id (h : Text.hasName t.idColumns column) :
    Text.hasName t.inheritedColumns column = false := by
  obtain ⟨k, hk, hsame⟩ := any_eq_true.mp h
  have hfree := (mem_filter.mp hk).2
  rw [← hasName_congr hsame]
  simpa using hfree

end TableLayout

theorem Path.extend_id (column : String) : Path.extend "_id" column = "_id" ++ "." ++ column := rfl

theorem Path.split_extend_id {column : String} (h : '.' ∉ column.toList) :
    split (extend "_id" column) = ["_id", column] := by
  rw [extend_id, split_append_dot, split_of_not_mem h, split_of_not_mem (by decide)]
  rfl

def IsShallow (f : String) : Prop := Path.split f = [f] ∨ ∃ column, Path.split f = ["_id", column]

namespace TableLayout

variable {t : TableLayout} {inherited : List String}

theorem same_of_id {k : String} (hids : t.idColumns = [k]) (hid : Text.hasName t.idColumns a) : Text.same k a := by
  simpa [hids, Text.hasName] using hid

theorem ne_of_id (ha : IsFieldName a) (b : String) :
    a ≠ if t.idColumns.length = 1 then "_id" else Path.extend "_id" b := by
  split
  · exact ha.2
  · rintro rfl
    exact ha.1 (by simp [extend_id, String.toList_append])

theorem isShallow_heldField (ha : '.' ∉ a.toList) : IsShallow (t.heldField inherited a) := by
  rcases t.heldField_cases inherited a with hfield | ⟨-, hfield⟩ <;> rw [hfield]
  · exact .inl (split_of_not_mem ha)
  · split
    · exact .inl (split_of_not_mem (by decide))
    · exact .inr ⟨a, split_extend_id ha⟩

theorem same_of_heldField (ha : IsFieldName a) (hb : IsFieldName b)
    (h : t.heldField inherited a = t.heldField inherited b) : Text.same a b := by
  rcases t.heldField_cases inherited a with hfa | ⟨hida, hfa⟩ <;>
    rcases t.heldField_cases inherited b with hfb | ⟨hidb, hfb⟩ <;> rw [hfa, hfb] at h
  · exact h ▸ Text.same_refl a
  · exact absurd h (ne_of_id ha b)
  · exact absurd h.symm (ne_of_id hb a)
  · split at h
    · rename_i hone
      obtain ⟨k, hk⟩ := length_eq_one_iff.mp hone
      exact same_trans (by rw [same_comm]; exact same_of_id hk hida) (same_of_id hk hidb)
    · have hsplit := congrArg Path.split h
      rw [split_extend_id ha.1, split_extend_id hb.1] at hsplit
      simp only [List.cons.injEq, true_and, and_true] at hsplit
      exact hsplit ▸ Text.same_refl a

end TableLayout

namespace Hop

/-- The columns by which the rows that the hop leads to are linked to those that hold them. -/
def linkedColumns (h : Hop) : List String :=
  match h.kind with
  | .merge => h.link.columns
  | .embed => h.link.referencedColumns

/-- The columns of the rows that hold others from which those are read, in the same order. -/
def partnerColumns (h : Hop) : List String :=
  match h.kind with
  | .merge => h.link.referencedColumns
  | .embed => h.link.columns

/-- The field that holds a column of the rows that the hop leads to. Copies have no `_id`. -/
def heldField (h : Hop) (l : TableLayout) (column : String) : String :=
  match h.kind with
  | .merge => l.heldField h.link.columns column
  | .embed => column

variable {h : Hop} {l : TableLayout}

theorem isShallow_heldField (ha : '.' ∉ a.toList) : IsShallow (h.heldField l a) := by
  rw [heldField]
  cases h.kind with
  | merge => exact TableLayout.isShallow_heldField ha
  | embed => exact .inl (split_of_not_mem ha)

theorem same_of_heldField (ha : IsFieldName a) (hb : IsFieldName b)
    (heq : h.heldField l a = h.heldField l b) : Text.same a b := by
  rw [heldField, heldField] at heq
  cases hkind : h.kind with
  | merge =>
    simp only [hkind] at heq
    exact TableLayout.same_of_heldField ha hb heq
  | embed =>
    simp only [hkind] at heq
    exact heq ▸ Text.same_refl a

end Hop

/-! ### Paths of locations -/

namespace Hop

theorem pathNames_of_plain {hops : List Hop} (h : ∀ hop ∈ hops, hop.link.readAs = none) :
    pathNames hops = hops.map field := by
  induction hops using List.reverseRecOn with
  | nil => rfl
  | append_singleton hops hop ih =>
    simp only [forall_mem_append, forall_mem_singleton] at h
    have hstart := ih h.1
    rw [pathNames] at hstart ⊢
    rw [foldl_append, hstart]
    simp [h.2]

end Hop

/-- The field of a hop cannot be taken for the `_id` or for no field at all. -/
structure Hop.Clear (h : Hop) : Prop where
  nonempty : h.field ≠ ""
  notId : h.field ≠ "_id"

instance (h : Hop) : Decidable h.Clear :=
  decidable_of_iff (h.field ≠ "" ∧ h.field ≠ "_id") ⟨fun ⟨a, b⟩ => ⟨a, b⟩, fun ⟨a, b⟩ => ⟨a, b⟩⟩

theorem IsShallow.not_below {f : String} (hf : IsShallow f) {hop : Hop} (hclear : hop.Clear)
    {rest : List String} (hrest : rest ≠ []) : Path.split f ≠ Path.split hop.field ++ rest := by
  intro heq
  have hhead := length_pos_iff.mpr (split_ne_nil hop.field)
  have hlast := length_pos_iff.mpr hrest
  have hlen := congrArg List.length heq
  rw [length_append] at hlen
  rcases hf with hone | ⟨column, htwo⟩
  · rw [hone, length_singleton] at hlen
    omega
  · rw [htwo] at hlen heq
    simp only [length_cons, length_nil] at hlen
    have hid : ["_id"] = Path.split hop.field :=
      (append_inj (show ["_id"] ++ [column] = _ from heq) (by simp; omega)).1
    have hfield := split_injective ((split_of_not_mem (by decide)).trans hid)
    exact hclear.notId hfield.symm

namespace Location

variable {p q : Location} {hops : List Hop}

variable (hplain : ∀ h ∈ hops, h.link.readAs = none) (hclear : ∀ h ∈ hops, h.Clear)

include hplain hclear

theorem split_path :
    Path.split (p.path hops) = ((hops.take p.depth).map Hop.field).flatMap Path.split ++ Path.split p.field := by
  have hnames : ∀ s ∈ (hops.take p.depth).map Hop.field, s ≠ "" := by
    intro s hs
    obtain ⟨h, hh, rfl⟩ := mem_map.mp hs
    exact (hclear h (mem_of_mem_take hh)).nonempty
  rw [path, Hop.path, Hop.pathNames_of_plain fun h hh => hplain h (mem_of_mem_take hh),
    extend_join hnames, split_join_flatMap (by simp), flatMap_append,
    flatMap_singleton]

theorem path_ne_of_lt (hp : IsShallow p.field) (hlt : p.depth < q.depth) (hle : q.depth ≤ hops.length) :
    p.path hops ≠ q.path hops := by
  intro heq
  have hsplit := congrArg Path.split heq
  obtain ⟨n, hn⟩ : ∃ n, q.depth = p.depth + (n + 1) := ⟨q.depth - p.depth - 1, by omega⟩
  have hnext : hops.drop p.depth = hops[p.depth] :: hops.drop (p.depth + 1) := drop_eq_getElem_cons (by omega)
  rw [split_path hplain hclear, split_path hplain hclear, hn, take_add, hnext, take_succ_cons,
    map_append, flatMap_append, append_assoc, map_cons, flatMap_cons,
    append_assoc] at hsplit
  -- what is left of the longer path starts with the name of the next hop, and does not end there
  exact hp.not_below (hclear hops[p.depth] (getElem_mem _))
    (append_ne_nil_of_right_ne_nil _ (split_ne_nil q.field)) (append_cancel_left hsplit)

theorem path_injective (hp : IsShallow p.field) (hq : IsShallow q.field) (hple : p.depth ≤ hops.length)
    (hqle : q.depth ≤ hops.length) (h : p.path hops = q.path hops) : p = q := by
  rcases Nat.lt_trichotomy p.depth q.depth with hlt | heq | hlt
  · exact absurd h (path_ne_of_lt hplain hclear hp hlt hqle)
  · have hsplit := congrArg Path.split h
    rw [split_path hplain hclear, split_path hplain hclear, heq] at hsplit
    have hfield := split_injective (append_cancel_left hsplit)
    cases p
    cases q
    cases heq
    cases hfield
    rfl
  · exact absurd h.symm (path_ne_of_lt hplain hclear hq hlt hple)

end Location

/-! ### Columns of a table -/

namespace Catalog

variable {c : Catalog} {partners columns : List String} {column : String}

theorem spelledColumn_same {c : Catalog} {table column : String} (hab : Text.same a b)
    (h : c.spelledColumn table a = .ok column) : c.spelledColumn table b = .ok column := by
  rw [spelledColumn] at h ⊢
  obtain ⟨t, ht, h⟩ := exists_of_bind_ok h
  have hcolumn : t.column? a = t.column? b := find?_same hab t.columns
  rw [hcolumn] at h
  rw [ht]
  simp only [bind, Except.bind]
  cases hfound : t.column? b with
  | none => rw [hfound] at h; cases h
  | some found => rw [hfound] at h; exact h

theorem locate_same {c : Catalog} {top : String} {hops : List Hop} {l : Location} (hab : Text.same a b)
    (h : c.locate top hops a = .ok l) : c.locate top hops b = .ok l := by
  rw [locate] at h ⊢
  cases hr : hops.reverse with
  | nil | cons hop above =>
    rw [hr, locateUp] at h
    obtain ⟨layout, hlayout, h⟩ := exists_of_bind_ok h
    obtain ⟨column, hcolumn, h⟩ := exists_of_bind_ok h
    rw [locateUp, hlayout, spelledColumn_same hab hcolumn]
    exact h

theorem spelledColumn_of_table {column : String} {t : Table} (ht : c.table name = .ok t)
    (hcol : t.column? column = some col) : c.spelledColumn name column = .ok col.name := by
  rw [spelledColumn, ht]
  simp only [bind, Except.bind, hcol]
  rfl

theorem spelledColumn_ok {column spelled : String} {t : Table} (ht : c.table name = .ok t)
    (h : c.spelledColumn name column = .ok spelled) : ∃ col, t.column? column = some col ∧ spelled = col.name := by
  rw [spelledColumn, ht] at h
  simp only [bind, Except.bind] at h
  cases hcol : t.column? column with
  | none => rw [hcol] at h; cases h
  | some col =>
    rw [hcol] at h
    cases h
    exact ⟨col, rfl, rfl⟩

theorem counterpart?_congr (h : Text.same a b) (partners columns : List String) :
    counterpart? partners columns a = counterpart? partners columns b := by
  simp only [counterpart?, same_congr h]

variable {other : String}

theorem counterpart?_some {column : String} (h : counterpart? partners columns column = some other) :
    ∃ (i : Nat) (hi : i < partners.length), Text.same partners[i] column ∧ columns[i]? = some other := by
  obtain ⟨i, hi, hother⟩ := Option.bind_eq_some_iff.mp h
  obtain ⟨hlt, hsame, -⟩ := findIdx?_eq_some_iff_getElem.mp hi
  exact ⟨i, hlt, hsame, hother⟩

theorem mem_zip_of_partner {partners : List String} {others : List α} {other : α}
    (h : (partners.findIdx? (Text.same · column)).bind (others[·]?) = some other) :
    ∃ partner, (partner, other) ∈ partners.zip others ∧ Text.same partner column := by
  obtain ⟨i, hi, hother⟩ := Option.bind_eq_some_iff.mp h
  obtain ⟨hi, hsame, -⟩ := findIdx?_eq_some_iff_getElem.mp hi
  obtain ⟨hi', rfl⟩ := List.getElem?_eq_some_iff.mp hother
  refine ⟨partners[i], ?_, hsame⟩
  rw [← getElem_zip (h := by simp [hi, hi'])]
  exact getElem_mem _

theorem mem_zip_of_counterpart? {column : String} (h : counterpart? partners columns column = some other) :
    ∃ partner, (partner, other) ∈ partners.zip columns ∧ Text.same partner column :=
  mem_zip_of_partner h

theorem exists_counterpart (hlen : partners.length = columns.length) (h : Text.hasName partners column) :
    ∃ other, counterpart? partners columns column = some other := by
  rw [counterpart?]
  cases hidx : partners.findIdx? (Text.same · column) with
  | none =>
    obtain ⟨partner, hmem, hsame⟩ := any_eq_true.mp h
    exact absurd hsame (by simpa using findIdx?_eq_none_iff.mp hidx partner hmem)
  | some i =>
    obtain ⟨hlt, -, -⟩ := findIdx?_eq_some_iff_getElem.mp hidx
    exact ⟨columns[i], getElem?_eq_getElem (hlen ▸ hlt)⟩

theorem counterpart?_none {partners : List String} (h : Text.hasName partners column = false) (columns : List String) :
    counterpart? partners columns column = none := by
  rw [counterpart?, findIdx?_eq_none_iff.mpr]
  · rfl
  · simpa [Text.hasName] using h

theorem counterpart?_apart (hcolumns : Text.Apart columns) {a' b' : String} (hab : ¬Text.same a b)
    (ha : counterpart? partners columns a = some a') (hb : counterpart? partners columns b = some b') :
    ¬Text.same a' b' := by
  obtain ⟨i, hi, hsa, ha'⟩ := counterpart?_some ha
  obtain ⟨j, hj, hsb, hb'⟩ := counterpart?_some hb
  obtain ⟨hi', rfl⟩ := List.getElem?_eq_some_iff.mp ha'
  obtain ⟨hj', rfl⟩ := List.getElem?_eq_some_iff.mp hb'
  rcases Nat.lt_trichotomy i j with hlt | rfl | hlt
  · exact pairwise_iff_getElem.mp hcolumns i j hi' hj' hlt
  · exact absurd (same_trans (by rwa [same_comm]) hsb) hab
  · rw [same_comm]
    exact pairwise_iff_getElem.mp hcolumns j i hj' hi' hlt

/-! ### Columns below hops -/

section Below

variable {top : String} {hops : List Hop} {hop : Hop} {location p q : Location}

theorem spelledColumn_found {spelled : String} (h : c.spelledColumn name column = .ok spelled) :
    ∃ t col, c.table name = .ok t ∧ t.column? column = some col ∧ spelled = col.name := by
  obtain ⟨t, ht, -⟩ := exists_of_bind_ok h
  obtain ⟨col, hcol, hspelled⟩ := spelledColumn_ok ht h
  exact ⟨t, col, ht, hcol, hspelled⟩

theorem locate_nil_cases (h : c.locate top [] column = .ok location) :
    ∃ (l : Layout) (t : Table) (col : Column), c.layout top = .ok l ∧ c.table top = .ok t ∧
      t.column? column = some col ∧ location = ⟨0, l.heldField [] col.name⟩ := by
  rw [locate, reverse_nil, locateUp] at h
  obtain ⟨l, hl, h⟩ := exists_of_bind_ok h
  obtain ⟨spelled, hspelled, h⟩ := exists_of_bind_ok h
  obtain ⟨t, col, ht, hcol, rfl⟩ := spelledColumn_found hspelled
  cases h
  exact ⟨l, t, col, hl, ht, hcol, rfl⟩

theorem locate_concat_cases (h : c.locate top (hops ++ [hop]) column = .ok location) :
    ∃ (l : Layout) (t : Table) (col : Column), c.layout hop.link.child = .ok l ∧
      c.table hop.link.child = .ok t ∧ t.column? column = some col ∧
      ((∃ other, counterpart? hop.linkedColumns hop.partnerColumns column = some other ∧
          c.locate top hops other = .ok location) ∨
        location = ⟨hops.length + 1, hop.heldField l.toTableLayout col.name⟩) := by
  rw [locate, reverse_concat, locateUp] at h
  obtain ⟨l, hl, h⟩ := exists_of_bind_ok h
  obtain ⟨spelled, hspelled, h⟩ := exists_of_bind_ok h
  obtain ⟨t, col, ht, hcol, rfl⟩ := spelledColumn_found hspelled
  refine ⟨l, t, col, hl, ht, hcol, ?_⟩
  rw [← counterpart?_congr (Table.same_of_column? hcol)]
  unfold Hop.linkedColumns Hop.partnerColumns Hop.heldField
  cases hkind : hop.kind with
  | merge =>
    simp only [hkind] at h ⊢
    split at h
    · rename_i other hother
      exact .inl ⟨other, hother, h⟩
    · cases h
      exact .inr (by rw [length_reverse]; rfl)
  | embed =>
    simp only [hkind] at h ⊢
    split at h
    · rename_i other hother
      exact .inl ⟨other, hother, h⟩
    · cases h
      exact .inr (by rw [length_reverse])

theorem depth_le_of_locate (h : c.locate top hops column = .ok location) : location.depth ≤ hops.length := by
  induction hops using List.reverseRecOn generalizing column with
  | nil =>
    obtain ⟨_, _, _, -, -, -, rfl⟩ := locate_nil_cases h
    exact le_rfl
  | append_singleton hops hop ih =>
    rw [length_append, length_singleton]
    obtain ⟨_, _, _, -, -, -, ⟨other, -, h⟩ | rfl⟩ := locate_concat_cases h
    · exact (ih h).trans (Nat.le_succ _)
    · exact le_rfl

def DotFreeColumns (c : Catalog) : Prop := ∀ t ∈ c.tables, ∀ column ∈ t.columns, '.' ∉ column.name.toList

instance (c : Catalog) : Decidable c.DotFreeColumns := inferInstanceAs (Decidable (∀ t ∈ _, _))

theorem DotFreeColumns.not_mem (hdots : c.DotFreeColumns) {t : Table} (ht : c.table name = .ok t)
    (hcol : t.column? column = some col) : '.' ∉ col.name.toList :=
  hdots t (mem_tables_of_table ht) col (mem_of_find?_eq_some hcol)

theorem isShallow_of_locate (hdots : c.DotFreeColumns) (h : c.locate top hops column = .ok location) :
    IsShallow location.field := by
  induction hops using List.reverseRecOn generalizing column with
  | nil =>
    obtain ⟨l, t, col, -, ht, hcol, rfl⟩ := locate_nil_cases h
    exact TableLayout.isShallow_heldField (hdots.not_mem ht hcol)
  | append_singleton hops hop ih =>
    obtain ⟨l, t, col, -, ht, hcol, ⟨other, -, h⟩ | rfl⟩ := locate_concat_cases h
    · exact ih h
    · exact Hop.isShallow_heldField (hdots.not_mem ht hcol)

def PlainColumns (c : Catalog) : Prop := ∀ t ∈ c.tables, t.PlainColumns

instance (c : Catalog) : Decidable c.PlainColumns := inferInstanceAs (Decidable (∀ t ∈ _, _))

theorem PlainColumns.dotFree (hplain : c.PlainColumns) : c.DotFreeColumns :=
  fun t ht column hcolumn => (hplain t ht column hcolumn).1

theorem PlainColumns.isFieldName (hplain : c.PlainColumns) {t : Table} (ht : c.table name = .ok t)
    (hcol : t.column? column = some col) : IsFieldName col.name :=
  (hplain t (mem_tables_of_table ht)).isFieldName hcol

theorem location_ne_above (h : c.locate top hops column = .ok location) (field : String) :
    ⟨hops.length + 1, field⟩ ≠ location := by
  rintro rfl
  exact absurd (depth_le_of_locate h) (Nat.not_succ_le_self _)

theorem location_ne (hplain : c.PlainColumns) (hapart : ∀ hop ∈ hops, Text.Apart hop.partnerColumns)
    (hab : ¬Text.same a b) (ha : c.locate top hops a = .ok p) (hb : c.locate top hops b = .ok q) : p ≠ q := by
  induction hops using List.reverseRecOn generalizing a b with
  | nil =>
    obtain ⟨l, t, col, hl, ht, hcol, rfl⟩ := locate_nil_cases ha
    obtain ⟨_, _, col', hl', ht', hcol', rfl⟩ := locate_nil_cases hb
    cases hl.symm.trans hl'
    cases ht.symm.trans ht'
    intro heq
    exact Table.not_same_of_column? hab hcol hcol' (TableLayout.same_of_heldField
      (hplain.isFieldName ht hcol) (hplain.isFieldName ht hcol') (Location.mk.inj heq).2)
  | append_singleton hops hop ih =>
    obtain ⟨l, t, col, hl, ht, hcol, hp⟩ := locate_concat_cases ha
    obtain ⟨_, _, col', hl', ht', hcol', hq⟩ := locate_concat_cases hb
    cases hl.symm.trans hl'
    cases ht.symm.trans ht'
    rcases hp with ⟨up, hup, ha⟩ | rfl <;> rcases hq with ⟨up', hup', hb⟩ | rfl
    · -- both are read one row up, from different columns
      have hups := counterpart?_apart (hapart hop (by simp)) hab hup hup'
      exact ih (fun hop hhop => hapart hop (mem_append_left _ hhop)) hups ha hb
    · exact (location_ne_above ha _).symm
    · exact location_ne_above hb _
    · intro heq
      exact Table.not_same_of_column? hab hcol hcol' (Hop.same_of_heldField
        (hplain.isFieldName ht hcol) (hplain.isFieldName ht hcol') (Location.mk.inj heq).2)

end Below

theorem length_of_reference {t : Table} {fk : ForeignKey} {ref : Reference}
    (h : c.reference t fk = .ok ref) : ref.columns.length = ref.referencedColumns.length := by
  rw [reference] at h
  obtain ⟨target, -, h⟩ := exists_of_bind_ok h
  split at h
  · cases h
  · extract_lets referenced at h
    split at h
    · rename_i hlen
      cases h
      exact hlen.symm
    · cases h

def ReferencesApart (c : Catalog) : Prop :=
  ∀ t ∈ c.tables, ∀ fk ∈ t.foreignKeys, ∀ ref ∈ (c.reference t fk).toOption, Text.Apart ref.referencedColumns

instance (c : Catalog) : Decidable c.ReferencesApart := inferInstanceAs (Decidable (∀ t ∈ _, _))

namespace LaysOut

variable {l : Layout} {location : Location} {hop : Hop}

theorem reference_of_mem_hops (h : c.LaysOut name l) (hhop : hop ∈ l.hops) :
    ∃ t ∈ c.tables, ∃ fk ∈ t.foreignKeys, ∃ ref, c.reference t fk = .ok ref ∧
      hop.link.columns = ref.columns ∧ hop.link.referencedColumns = ref.referencedColumns ∧
      hop.link.readAs = none := by
  induction h with
  | top ht hown hmerge =>
    rw [((LaysOut.top ht hown hmerge).hops_of_top ht hmerge).1] at hhop
    cases hhop
  | merged ht hown _ _ hkey ih =>
    rw [hops_merged] at hhop
    rcases mem_append.mp hhop with hhop | hhop
    · exact ih hhop
    · rw [mem_singleton.mp hhop]
      obtain ⟨ref, href, -, hlink⟩ := mergeKey_reference hkey
      obtain ⟨fk, hfk, href⟩ := exists_of_mem_mapM (outline_ok hown).1.references href
      exact ⟨_, mem_tables_of_table ht, fk, hfk, ref, href, hlink⟩

theorem readAs_of_mem_hops (h : c.LaysOut name l) (hhop : hop ∈ l.hops) : hop.link.readAs = none := by
  obtain ⟨-, -, -, -, -, -, -, -, hread⟩ := h.reference_of_mem_hops hhop
  exact hread

theorem apart_of_mem_hops (hapart : c.ReferencesApart) (h : c.LaysOut name l) (hhop : hop ∈ l.hops) :
    Text.Apart hop.link.referencedColumns := by
  obtain ⟨t, ht, fk, hfk, ref, href, -, hreferenced, -⟩ := h.reference_of_mem_hops hhop
  exact hreferenced ▸ hapart t ht fk hfk ref (by rw [href]; rfl)

theorem length_of_mem_hops (h : c.LaysOut name l) (hhop : hop ∈ l.hops) :
    hop.link.columns.length = hop.link.referencedColumns.length := by
  obtain ⟨t, -, fk, -, ref, href, hcolumns, hreferenced, -⟩ := h.reference_of_mem_hops hhop
  rw [hcolumns, hreferenced, length_of_reference href]

theorem hops_of_mergeKey? (h : c.LaysOut name l) {key : Link} (hkey : l.mergeKey? = some key) :
    ∃ hops, l.hops = hops ++ [⟨.merge, key⟩] := by
  cases h with
  | top ht hown hmerge =>
    cases (LaysOut.top ht hown hmerge).isMerged_iff.mp (congrArg Option.isSome hkey)
  | merged _ _ _ _ _ =>
    cases hkey
    exact ⟨_, hops_merged⟩

section

variable (h : c.LaysOut name l) (ht : c.table name = .ok t) (hmerge : t.properties.mergeInto = none)

include h ht hmerge

theorem inheritedColumns_of_top : l.inheritedColumns = [] := by
  rw [inheritedColumns, mergeKey?, (h.role_of_top ht hmerge).2]
  cases t.properties.isEmbeddable <;> rfl

theorem idColumns_of_top : l.idColumns = l.primaryKey := by
  rw [idColumns, h.inheritedColumns_of_top ht hmerge]
  exact filter_eq_self.mpr fun _ _ => rfl

end

section

variable (hc : c.WellKeyed) (h : c.LaysOut name l) (ht : c.table name = .ok t)

include hc h ht

theorem locate_top (hmerge : t.properties.mergeInto = none) (hcol : t.column? column = some col) :
    c.locate l.collection l.hops column = .ok ⟨l.hops.length, l.heldField l.inheritedColumns col.name⟩ := by
  obtain ⟨hhops, hcollection⟩ := h.hops_of_top ht hmerge
  have hlayout := layout_layout_table hc (layout_eq_ok_iff.mpr h)
  have htable : c.table l.table = .ok t := (h.outlines ht).table ▸ table_name hc ht
  have hinherited := h.inheritedColumns_of_top ht hmerge
  rw [hhops, hcollection, locate, reverse_nil, locateUp, hlayout]
  simp only [bind, Except.bind, spelledColumn_of_table htable hcol, heldField, hinherited]
  rfl

theorem locate_merged {key : Link} (hkey : l.mergeKey? = some key) (hcol : t.column? column = some col) :
    c.locate l.collection l.hops column =
      match counterpart? key.columns key.referencedColumns column with
      | some referenced => c.locate l.collection l.hops.dropLast referenced
      | none => .ok ⟨l.hops.length, l.heldField l.inheritedColumns col.name⟩ := by
  have hchild := h.child_of_mergeKey? ht hkey
  have hlayout := layout_layout_table hc (layout_eq_ok_iff.mpr h)
  rw [(h.outlines ht).table, ← hchild] at hlayout
  have htable : c.table key.child = .ok t := hchild ▸ table_name hc ht
  obtain ⟨hops, hhops⟩ := h.hops_of_mergeKey? hkey
  rw [hhops, dropLast_concat, locate, reverse_concat, locateUp, hlayout]
  simp only [bind, Except.bind, spelledColumn_of_table htable hcol, heldField,
    inheritedColumns, hkey, Option.map_some, Option.getD_some, length_append,
    length_reverse, length_singleton, counterpart?_congr (Table.same_of_column? hcol)]
  rfl

theorem locate_own (hcol : t.column? column = some col) (hown : Text.hasName l.inheritedColumns column = false) :
    c.locate l.collection l.hops column = .ok ⟨l.hops.length, l.heldField l.inheritedColumns col.name⟩ := by
  cases hkey : l.mergeKey? with
  | none =>
    refine h.locate_top hc ht ?_ hcol
    cases h with
    | top ht' _ hmerge =>
      cases ht.symm.trans ht'
      exact hmerge
    | merged _ _ _ _ _ => cases hkey
  | some key =>
    rw [h.locate_merged hc ht hkey hcol, counterpart?_none]
    simpa [inheritedColumns, hkey] using hown

end

theorem path_ne (hplain : c.PlainColumns) (hapart : c.ReferencesApart) (h : c.LaysOut name l)
    (hclear : ∀ hop ∈ l.hops, hop.Clear) (hother : ¬Text.same column other) {location' : Location}
    (hlocate : c.locate l.collection l.hops column = .ok location)
    (hlocate' : c.locate l.collection l.hops other = .ok location') : location.path l.hops ≠ location'.path l.hops := by
  intro heq
  refine location_ne hplain (fun hop hhop => ?_) hother hlocate hlocate' ?_
  · rw [Hop.partnerColumns, (h.of_mem_hops hhop).1]
    exact h.apart_of_mem_hops hapart hhop
  · exact Location.path_injective (fun _ => h.readAs_of_mem_hops) hclear
      (isShallow_of_locate hplain.dotFree hlocate) (isShallow_of_locate hplain.dotFree hlocate')
      (depth_le_of_locate hlocate) (depth_le_of_locate hlocate') heq

end LaysOut

end Catalog

end Pushdown
