import Mathlib.Data.List.Nodup
import Pushdown.Bson.Path
import Pushdown.Proofs.ColumnLocations
import Pushdown.Proofs.PlainValue
import Pushdown.Proofs.PlannedWrites

/-!
# Where inserted values are found

`values_found_in_merged_row`, `values_found_in_document`: an INSERT writes the values of a row (`rowDocument_ok`),
and a query finds them where their columns lie, or by the row above (`insertTarget_ok`).
-/

namespace Pushdown

open List Attempt ColumnValues Table Text

/-! ### Fields of documents -/

variable {column name : String} {fields : List (String × Bson)} {parts : List Bson} {columns : List String} {t : Table}
  {v : Value}

namespace Document

theorem get?_ofFields_of_nodup {key : String} {value : Bson} (hmem : (key, value) ∈ fields)
    (hnodup : (fields.map (·.1)).Nodup) : get? (ofFields fields) key = some value := by
  refine get?_ofFields_of_mem hmem fun v hv => ?_
  exact (Prod.mk.inj (inj_on_of_nodup_map hnodup hv hmem rfl)).2

theorem atPath?_of_not_mem (h : '.' ∉ name.toList) (d : Document) : d.atPath? name = d.get? name := by
  rw [atPath?, Path.split_of_not_mem h, Bson.follow?, Bson.step?]
  cases d.get? name <;> rfl

theorem atPath?_extend_id (h : IsFieldName column) (d : Document) :
    d.atPath? (Path.extend "_id" column) = (d.get? "_id").bind (Bson.step? column) := by
  rw [atPath?, Path.split_extend_id h.1, Bson.follow?, Bson.step?]
  cases d.get? "_id" with
  | none => rfl
  | some b => cases hb : b.step? column <;> simp [Bson.follow?, hb]

end Document

/-! ### Values by column -/

/-- The primary key names its columns as the table spells them. -/
def Table.SpellsKey (t : Table) : Prop :=
  ∀ k ∈ t.primaryKey, ∀ column ∈ t.column? k, column.name = k

instance (t : Table) : Decidable t.SpellsKey := inferInstanceAs (Decidable (∀ k ∈ _, _))

namespace ColumnValues

variable {values : ColumnValues} {other : String}

theorem value?_congr (h : Text.same column other) : values.value? column = values.value? other := by
  simp only [value?, same_congr h]

theorem value?_some (h : values.value? column = some v) :
    ∃ name, (name, v) ∈ values ∧ Text.same name column ∧ v.isNull = false := by
  rw [value?] at h
  split at h
  · rename_i name w hfind
    split at h
    · cases h
    · rename_i hnull
      cases h
      exact ⟨name, mem_of_find?_eq_some hfind, by simpa using find?_some hfind,
        by simpa using hnull⟩
  · cases h

/-- The values are given for columns of a table, by the names that these have there, for none of them
twice, and none is a large object. -/
structure Fit (values : ColumnValues) (t : Table) : Prop where
  spelled : ∀ v ∈ values, ∃ column, t.column? v.1 = some column ∧ column.name = v.1
  apart : Text.Apart (values.map (·.1))
  plain : ∀ v ∈ values, v.2.isPlain

namespace Fit

theorem isPlain_of_value? (h : values.Fit t) (hv : values.value? column = some v) : v.isPlain := by
  obtain ⟨name, hmem, -, -⟩ := value?_some hv
  exact h.plain _ hmem

theorem exists_column (h : values.Fit t) (hv : values.value? column = some v) :
    ∃ col, t.column? column = some col ∧ (col.name, v) ∈ values ∧ v.isNull = false := by
  obtain ⟨name, hmem, hname, hnull⟩ := value?_some hv
  obtain ⟨col, hcol, rfl⟩ := h.spelled _ hmem
  refine ⟨col, ?_, hmem, hnull⟩
  rw [← hcol]
  exact (find?_same hname t.columns).symm

theorem ne_id (h : values.Fit t) (ht : t.PlainColumns) {v : String × Value} (hv : v ∈ values) : v.1 ≠ "_id" := by
  obtain ⟨col, hcol, hname⟩ := h.spelled v hv
  exact hname ▸ (ht.isFieldName hcol).2

end Fit

/-- The parts are the stored forms of the values of the columns. -/
def Stores (values : ColumnValues) (columns : List String) (parts : List Bson) : Prop :=
  List.Forall₂ (fun column b => ∃ v, values.value? column = some v ∧ v.stored? = some b) columns parts

theorem mapM_value?_eq_some {key : List Value} :
    columns.mapM values.value? = some key ↔
      List.Forall₂ (fun column v => values.value? column = some v) columns key := by
  induction columns generalizing key with
  | nil => simp [eq_comm]
  | cons column columns ih =>
    simp only [mapM_cons, forall₂_cons_left_iff, ← ih]
    cases values.value? column <;> cases columns.mapM values.value? <;> simp [eq_comm]

theorem exists_of_mapM_value?_eq_none (h : columns.mapM values.value? = none) :
    ∃ column ∈ columns, values.value? column = none := by
  induction columns with
  | nil => simp at h
  | cons column columns ih =>
    cases hv : values.value? column with
    | none => exact ⟨column, mem_cons_self .., hv⟩
    | some v =>
      have hrest : columns.mapM values.value? = none := by
        cases hkey : columns.mapM values.value? with
        | none => rfl
        | some key => simp [hv, hkey] at h
      obtain ⟨other, hother, hnone⟩ := ih hrest
      exact ⟨other, mem_cons_of_mem _ hother, hnone⟩

theorem stores_iff :
    values.Stores columns parts ↔ ∃ key, columns.mapM values.value? = some key ∧
      List.Forall₂ (fun v b => v.stored? = some b) key parts := by
  simp only [mapM_value?_eq_some]
  constructor
  · intro h
    induction h with
    | nil => exact ⟨[], .nil, .nil⟩
    | cons hb _ ih =>
      obtain ⟨v, hv, hb⟩ := hb
      obtain ⟨key, hkey, hparts⟩ := ih
      exact ⟨v :: key, .cons hv hkey, .cons hb hparts⟩
  · rintro ⟨key, hkey, hparts⟩
    exact forall₂_comp hkey hparts fun hv hb => ⟨_, hv, hb⟩

theorem Stores.eq_of_mem (h : values.Stores columns parts) {b b' : Bson} (hb : (column, b) ∈ columns.zip parts)
    (hb' : (column, b') ∈ columns.zip parts) : b = b' := by
  obtain ⟨v, hv, hstored⟩ := forall₂_zip h hb
  obtain ⟨v', hv', hstored'⟩ := forall₂_zip h hb'
  cases hv.symm.trans hv'
  exact Option.some.inj (hstored.symm.trans hstored')

theorem Stores.value?_ne_none (h : values.Stores columns parts) (hcolumn : column ∈ columns) :
    values.value? column ≠ none := by
  obtain ⟨_, -, v, hv, -⟩ := exists_right_of_forall₂ h hcolumn
  simp [hv]

end ColumnValues

/-! ### Keys -/

theorem keyOfParts_of_length_ne (h : parts.length ≠ 1) :
    keyOfParts columns parts = .document (Document.ofFields (columns.zip parts)) := by
  match parts with
  | [] => rfl
  | [_] => exact absurd rfl h
  | _ :: _ :: _ => rfl

namespace Value

variable {σ : Type} {objects : LargeObjects σ} {key : List Value}

theorem toKey_ok (hplain : ∀ v ∈ key, v.isPlain) {id : Bson} {s s' : σ}
    (h : toKey objects columns key s = (.ok id, s')) :
    ∃ parts, List.Forall₂ (fun v b => v.stored? = some b) key parts ∧ id = keyOfParts columns parts := by
  rw [toKey] at h
  split at h
  · obtain ⟨parts, hparts, rfl⟩ := bind_pure_ok h
    exact ⟨parts, stored?_of_list_ok hplain hparts, rfl⟩
  · cases h

end Value

namespace WriteContext

variable {σ : Type} {c : WriteContext σ} {l : Layout} {values : ColumnValues} {s s' : σ}
  {doc : Document} {id : Option Bson}

theorem isPlain_of_mapM_value? {key : List Value}
    (hplain : ∀ column ∈ columns, ∀ v, values.value? column = some v → v.isPlain)
    (hkey : columns.mapM values.value? = some key) : ∀ v ∈ key, v.isPlain := by
  intro v hv
  obtain ⟨column, hmem, hcolumn⟩ := exists_left_of_forall₂ (mapM_value?_eq_some.mp hkey) hv
  exact hplain column (of_mem_zip hmem).1 v hcolumn

theorem rowId_gives (hids : l.idColumns ≠ [])
    (hplain : ∀ column ∈ l.idColumns, ∀ v, values.value? column = some v → v.isPlain)
    (h : values.Stores l.idColumns parts) : (c.rowId l values).Gives (.ok (some (keyOfParts l.idColumns parts))) := by
  obtain ⟨key, hkey, hparts⟩ := stores_iff.mp h
  have hlen := (mapM_value?_eq_some.mp hkey).length_eq
  have hplain := isPlain_of_mapM_value? hplain hkey
  rw [rowId, if_neg (by simpa using hids)]
  simp only [hkey, Value.toKey, if_pos hlen]
  refine Gives.bind (.failingAs ?_ _) (.pure _)
  exact (Value.listToStored_gives hplain hparts).bind (.pure _)

theorem rowId_cases (hfit : values.Fit t) (h : c.rowId l values s = (.ok id, s')) :
    (∃ parts, values.Stores l.idColumns parts ∧ l.idColumns ≠ [] ∧ id = some (keyOfParts l.idColumns parts)) ∨
    (id = none ∧ (l.idColumns = [] ∨ l.isMerged = false ∧ ∃ column ∈ l.idColumns, values.value? column = none)) := by
  rw [rowId] at h
  split at h
  · rename_i hids
    obtain ⟨rfl, -⟩ := pure_ok h
    exact .inr ⟨rfl, .inl (by simpa using hids)⟩
  · rename_i hids
    cases hkey : l.idColumns.mapM values.value? with
    | some key =>
      simp only [hkey] at h
      obtain ⟨id, hid, rfl⟩ := bind_pure_ok h
      have hplain := isPlain_of_mapM_value? (fun _ _ _ => hfit.isPlain_of_value?) hkey
      obtain ⟨parts, hparts, rfl⟩ := Value.toKey_ok hplain (failingAs_ok hid)
      exact .inl ⟨parts, stores_iff.mpr ⟨key, hkey, hparts⟩, by simpa using hids, rfl⟩
    | none =>
      simp only [hkey] at h
      split at h
      · cases h
      · rename_i hmerged
        obtain ⟨rfl, -⟩ := pure_ok h
        exact .inr ⟨rfl, .inr ⟨by simpa using hmerged, exists_of_mapM_value?_eq_none hkey⟩⟩

/-! ### Rows -/

theorem storeColumn_ok {v : String × Value} {f : String × Bson}
    (h : c.storeColumn v s = (.ok f, s')) : f.1 = v.1 ∧ (v.2.isPlain → v.2.stored? = some f.2) := by
  obtain ⟨b, hb, rfl⟩ := bind_pure_ok h
  exact ⟨rfl, fun hplain => Value.stored?_of_ok hplain (failingAs_ok hb)⟩

/-- A stored row has its `_id`, if it has one, and a field for every value that has a field of its
own. -/
theorem rowDocument_ok (h : c.rowDocument l values s = (.ok doc, s')) :
    ∃ id s₁ fields, c.rowId l values s = (.ok id, s₁) ∧
      List.Forall₂ (fun v f => f.1 = v.1 ∧ (v.2.isPlain → v.2.stored? = some f.2))
        (values.filter (hasOwnField l)) fields ∧
      doc = Document.ofFields ((id.toList.map fun b => ("_id", b)) ++ fields) := by
  obtain ⟨id, s₁, hid, h⟩ := bind_ok h
  obtain ⟨fields, hfields, rfl⟩ := bind_pure_ok h
  exact ⟨id, s₁, fields, hid, (forall₂_of_mapM hfields).imp fun _ _ ⟨_, _, hf⟩ => storeColumn_ok hf, rfl⟩

theorem rowDocument_gives (hid : (c.rowId l values).Gives (.ok id))
    (hown : ∀ v ∈ values, hasOwnField l v → v.2.isPlain ∧ ∃ b, v.2.stored? = some b) :
    ∃ doc, (c.rowDocument l values).Gives (.ok doc) := by
  have hfields : ∀ v ∈ values.filter (hasOwnField l), ∃ f, (c.storeColumn v).Gives (.ok f) := by
    intro v hv
    obtain ⟨hmem, hfield⟩ := mem_filter.mp hv
    obtain ⟨hplain, b, hb⟩ := hown v hmem hfield
    exact ⟨(v.1, b), ((Value.gives_of_stored? hplain hb).failingAs _).bind (.pure _)⟩
  obtain ⟨fields, hfields⟩ := exists_forall₂ hfields
  exact ⟨_, hid.bind ((Attempt.Gives.mapM hfields).bind (.pure _))⟩

theorem get?_id_of_fields (h : ∀ f ∈ fields, f.1 ≠ "_id") :
    Document.get? (Document.ofFields ((id.toList.map fun b => ("_id", b)) ++ fields)) "_id" = id := by
  have hrest (b : Bson) : ("_id", b) ∉ fields := fun hmem => h _ hmem rfl
  cases id with
  | none => exact Document.get?_ofFields_eq_none (by simpa using hrest)
  | some id =>
    refine Document.get?_ofFields_of_mem (by simp) fun b hb => ?_
    simpa [hrest b] using hb

theorem get?_id_rowDocument (hnames : ∀ v ∈ values, hasOwnField l v → v.1 ≠ "_id")
    (h : c.rowDocument l values s = (.ok doc, s')) :
    ∃ id s₁, c.rowId l values s = (.ok id, s₁) ∧ doc.get? "_id" = id := by
  obtain ⟨id, s₁, fields, hid, hfields, rfl⟩ := rowDocument_ok h
  refine ⟨id, s₁, hid, get?_id_of_fields fun f hf => ?_⟩
  obtain ⟨v, hmem, hname, -⟩ := exists_left_of_forall₂ hfields hf
  obtain ⟨hv, hown⟩ := mem_filter.mp (of_mem_zip hmem).1
  exact hname ▸ hnames v hv hown

theorem get?_rowDocument_own (hfit : values.Fit t) (ht : t.PlainColumns) (h : c.rowDocument l values s = (.ok doc, s'))
    {v : String × Value} (hv : v ∈ values) (hown : hasOwnField l v) :
    ∃ b, v.2.stored? = some b ∧ doc.get? v.1 = some b := by
  obtain ⟨id, _, fields, -, hfields, rfl⟩ := rowDocument_ok h
  obtain ⟨⟨name, b⟩, hmem, rfl, hb⟩ := exists_right_of_forall₂ hfields (mem_filter.mpr ⟨hv, hown⟩)
  have hpairs : (values.filter (hasOwnField l)).Pairwise fun v v' => ¬Text.same v.1 v'.1 :=
    (pairwise_map.mp hfit.apart).filter _
  have hnames : fields.Pairwise fun f f' => f.1 ≠ f'.1 := by
    refine pairwise_of_forall₂ hfields hpairs fun hf hf' hapart heq => hapart ?_
    rw [← hf.1, ← hf'.1, heq]
    exact same_refl _
  refine ⟨b, hb (hfit.plain _ hv), Document.get?_ofFields_of_nodup ?_ ?_⟩
  · exact mem_append_right _ (of_mem_zip hmem).2
  · have hid : ∀ f ∈ fields, f.1 ≠ "_id" := by
      intro f hf
      obtain ⟨v, hmem, hname, -⟩ := exists_left_of_forall₂ hfields hf
      exact hname ▸ hfit.ne_id ht (mem_of_mem_filter (of_mem_zip hmem).1)
    cases id with
    | none => exact pairwise_map.mpr hnames
    | some id =>
      refine nodup_cons.mpr ⟨fun hmem => ?_, pairwise_map.mpr hnames⟩
      obtain ⟨f, hf, hname⟩ := mem_map.mp hmem
      exact hid f hf hname

theorem atPath?_of_id {k : String} {b : Bson} (hget : doc.get? "_id" = some (keyOfParts l.idColumns parts))
    (hparts : values.Stores l.idColumns parts) (hk : IsFieldName k) (hb : (k, b) ∈ l.idColumns.zip parts) :
    doc.atPath? (l.heldField l.inheritedColumns k) = some b := by
  have hid : Text.hasName l.idColumns k := any_eq_true.mpr ⟨k, (of_mem_zip hb).1, same_refl k⟩
  rw [TableLayout.heldField_of_id hid (TableLayout.not_inherited_of_id hid)]
  by_cases hone : l.idColumns.length = 1
  · obtain ⟨k', hk'⟩ := length_eq_one_iff.mp hone
    obtain ⟨b', hb'⟩ := length_eq_one_iff.mp (hparts.length_eq ▸ hone)
    rw [hk', hb'] at hget hb
    rw [if_pos hone, Document.atPath?_of_not_mem (by decide), hget]
    simp only [zip_cons_cons, zip_nil_left, mem_singleton, Prod.mk.injEq] at hb
    rw [hb.2, keyOfParts]
  · rw [if_neg hone, Document.atPath?_extend_id hk, hget, keyOfParts_of_length_ne (hparts.length_eq ▸ hone)]
    exact Document.get?_ofFields_of_mem hb fun b' hb' => hparts.eq_of_mem hb' hb

theorem atPath?_heldField (hfit : values.Fit t) (ht : t.PlainColumns) (hspells : t.SpellsKey)
    (hkey : l.primaryKey = t.primaryKey) (h : c.rowDocument l values s = (.ok doc, s')) {col : Column}
    (hv : values.value? column = some v) (hcol : t.column? column = some col)
    (hown : Text.hasName l.inheritedColumns column = false) :
    ((Text.hasName l.idColumns column → ∀ k ∈ l.idColumns, values.value? k ≠ none) →
      ∃ b, v.stored? = some b ∧ doc.atPath? (l.heldField l.inheritedColumns col.name) = some b) ∧
    (Text.hasName l.idColumns column → (∃ k ∈ l.idColumns, values.value? k = none) →
      doc.atPath? (l.heldField l.inheritedColumns col.name) = none) := by
  obtain ⟨col', hcol', hmem, hnull⟩ := hfit.exists_column hv
  cases hcol.symm.trans hcol'
  have hsame := same_of_column? hcol
  have hname := ht.isFieldName hcol
  cases hid : Text.hasName l.idColumns column with
  | false =>
    refine ⟨fun _ => ?_, by simp⟩
    have hfield : hasOwnField l (col.name, v) := by
      simp [hasOwnField, hnull, hasName_congr hsame, hid, hown]
    rw [TableLayout.heldField_of_not_id (hasName_congr hsame _ ▸ hid), Document.atPath?_of_not_mem hname.1]
    exact get?_rowDocument_own hfit ht h hmem hfield
  | true =>
    obtain ⟨id, s₁, hrow, hget⟩ := get?_id_rowDocument (fun v hv _ => hfit.ne_id ht hv) h
    -- the key names the column as the row does
    have hmemId : col.name ∈ l.idColumns := by
      obtain ⟨k, hk, hsameK⟩ := any_eq_true.mp hid
      have hcolK : t.column? k = some col := (find?_same hsameK t.columns).trans hcol
      rwa [hspells k (hkey ▸ mem_of_mem_filter hk) col hcolK]
    constructor
    · intro hall
      rcases rowId_cases hfit hrow with ⟨parts, hparts, -, rfl⟩ | ⟨-, hnil | ⟨-, k, hk, hnone⟩⟩
      · obtain ⟨b, hb, w, hw, hstored⟩ := exists_right_of_forall₂ hparts hmemId
        cases hv.symm.trans ((value?_congr hsame).symm.trans hw)
        exact ⟨b, hstored, atPath?_of_id hget hparts hname hb⟩
      · exact absurd (hnil ▸ hmemId) not_mem_nil
      · exact absurd hnone (hall rfl k hk)
    · rintro - ⟨k, hk, hnone⟩
      rcases rowId_cases hfit hrow with ⟨parts, hparts, -, rfl⟩ | ⟨rfl, -⟩
      · exact absurd hnone (hparts.value?_ne_none hk)
      · rw [TableLayout.heldField_of_id (hasName_congr hsame _ ▸ hid) (hasName_congr hsame _ ▸ hown)]
        split
        · rw [Document.atPath?_of_not_mem (by decide), hget]
        · rw [Document.atPath?_extend_id hname, hget, Option.bind_none]

end WriteContext

/-! ### Inserted values -/

namespace Insert

def Gives (insert : Insert) (row : List Expression) (column : String) (v : Value) : Prop :=
  v.isNull = false ∧ ∃ name, (name, .literal v) ∈ insert.columns.zip row ∧ Text.same name column

def IsPlain (insert : Insert) : Prop := ∀ row ∈ insert.rows, ∀ v, .literal v ∈ row → v.isPlain

end Insert

namespace WriteContext

variable {σ : Type} {c : WriteContext σ} {l : Layout} {values : ColumnValues} {s s' : σ}
  {merge : Link}

theorem spelled_ok {spelled : String} (h : t.spelled column = .ok spelled) :
    ∃ col, t.column? column = some col ∧ spelled = col.name := by
  rw [Table.spelled] at h
  split at h
  · cases h
    exact ⟨_, ‹_›, rfl⟩
  · cases h

theorem constant_ok {e : Expression} (h : e.constant = .ok v) : e = .literal v := by
  cases e with
  | literal w => cases h; rfl
  | _ => cases h

theorem rowValues_ok {row : List Expression} (h : rowValues columns row = .ok values) :
    ∃ constants, values = columns.zip constants ∧ columns.length = constants.length ∧
      List.Forall₂ (fun e v => e = Expression.literal v) row constants := by
  rw [rowValues] at h
  split at h
  · rename_i hlen
    obtain ⟨constants, hconstants, h⟩ := exists_of_bind_ok h
    cases h
    have hrow := (mapM_ok_iff.mp hconstants).imp fun _ _ => constant_ok
    exact ⟨constants, rfl, hlen.symm.trans hrow.length_eq, hrow⟩
  · cases h

section Row

variable {insert : Insert} {row : List Expression}

variable (hapart : Text.Apart insert.columns) (hplain : ∀ v, .literal v ∈ row → v.isPlain)
  (hcolumns : insert.columns.mapM t.spelled = .ok columns) (h : rowValues columns row = .ok values)

include hapart hplain hcolumns h

theorem fit_of_row : values.Fit t := by
  obtain ⟨constants, rfl, hlen, hrow⟩ := rowValues_ok h
  have hspelled := (mapM_ok_iff.mp hcolumns).imp fun _ _ => spelled_ok
  refine ⟨fun v hv => ?_, ?_, fun v hv => ?_⟩
  · obtain ⟨name, -, col, hcol, hname⟩ := exists_left_of_forall₂ hspelled (of_mem_zip hv).1
    exact ⟨col, hname ▸ (find?_same (same_of_column? hcol) t.columns).trans hcol, hname.symm⟩
  · rw [map_fst_zip hlen.le]
    refine pairwise_of_forall₂ hspelled hapart ?_
    rintro a b a' b' ⟨col, hcol, rfl⟩ ⟨col', hcol', rfl⟩ hne hsame
    have ha : Text.same a col.name := by rw [same_comm]; exact same_of_column? hcol
    exact hne (same_trans ha (same_trans hsame (same_of_column? hcol')))
  · obtain ⟨e, hmem, rfl⟩ := exists_left_of_forall₂ hrow (of_mem_zip hv).2
    exact hplain v.2 (of_mem_zip hmem).1

theorem value?_eq_some_iff : values.value? column = some v ↔ insert.Gives row column v := by
  have hfit := fit_of_row hapart hplain hcolumns h
  obtain ⟨constants, rfl, hlen, hrow⟩ := rowValues_ok h
  have hspelled := (mapM_ok_iff.mp hcolumns).imp fun _ _ => spelled_ok
  constructor
  · intro hv
    obtain ⟨spelled, hmem, hsame, hnull⟩ := value?_some hv
    obtain ⟨name, e, hmem, ⟨col, hcol, rfl⟩, rfl⟩ := exists_zip_of_forall₂ hspelled.flip hrow.flip hmem
    refine ⟨hnull, name, hmem, same_trans ?_ hsame⟩
    rw [same_comm]
    exact same_of_column? hcol
  · rintro ⟨hnull, name, hmem, hsame⟩
    obtain ⟨spelled, w, hmem, ⟨col, hcol, rfl⟩, hw⟩ := exists_zip_of_forall₂ hspelled hrow hmem
    cases hw
    rw [value?, find?_of_apart hfit.apart hmem (same_trans (same_of_column? hcol) hsame)]
    simp [hnull]

end Row

theorem insertRow_ok {planned : InsertRow} (h : c.insertRow l values s = (.ok planned, s')) :
    (∃ s₁, c.rowDocument l values s = (.ok planned.row, s₁)) ∧
      (∃ s₁ s₂, c.copyFetches l values s₁ = (.ok planned.copies, s₂)) ∧
      ∃ s₁, c.insertTarget l values s₁ = (.ok planned.target, s') := by
  obtain ⟨row, s₁, hrow, h⟩ := bind_ok h
  obtain ⟨copies, s₂, hcopies, h⟩ := bind_ok h
  obtain ⟨target, htarget, rfl⟩ := bind_pure_ok h
  exact ⟨⟨s₁, hrow⟩, ⟨s₁, s₂, hcopies⟩, s₂, htarget⟩

variable {plan : InsertPlan} {key : List (String × Bson)} {target : InsertTarget}

theorem planInsert_ok {insert : Insert} (h : c.planInsert insert s = (.ok plan, s')) :
    ∃ t l columns, c.catalog.table insert.table = .ok t ∧ c.catalog.layout t.name = .ok l ∧
      insert.columns.mapM t.spelled = .ok columns ∧
      List.Forall₂ (fun row planned => ∃ values s₁ s₂, rowValues columns row = .ok values ∧
        c.insertRow l values s₁ = (.ok planned, s₂)) insert.rows plan.rows := by
  rw [planInsert] at h
  obtain ⟨t, _, ht, h⟩ := bind_ok h
  obtain ⟨l, _, hl, h⟩ := bind_ok h
  obtain ⟨columns, _, hcolumns, h⟩ := bind_ok h
  extract_lets generated rest at h
  have hrest : ∃ s₁, rest () s₁ = (.ok plan, s') := by
    split at h
    · obtain ⟨_, _, hthrow, -⟩ := bind_ok h
      cases hthrow
    · exact ⟨_, h⟩
  obtain ⟨_, h⟩ := hrest
  obtain ⟨rows, hrows, rfl⟩ := bind_pure_ok h
  refine ⟨t, l, columns, (table_ok ht).1, (layout_ok hl).1, (ofExcept_ok hcolumns).1, ?_⟩
  refine (forall₂_of_mapM hrows).imp ?_
  rintro row planned ⟨s₁, s₂, h⟩
  obtain ⟨values, _, hvalues, h⟩ := bind_ok h
  exact ⟨values, _, s₂, (ofExcept_ok hvalues).1, h⟩

theorem forall₂_rows {insert : Insert} (ht : c.catalog.table insert.table = .ok t)
    (hl : c.catalog.layout t.name = .ok l) (hapart : Text.Apart insert.columns) (hplain : insert.IsPlain)
    (h : c.planInsert insert s = (.ok plan, s')) {p : List Expression → InsertRow → Prop}
    (hrow : ∀ row planned values s₁ s₂, ColumnValues.Fit values t →
      (∀ {column v}, values.value? column = some v ↔ insert.Gives row column v) →
      c.insertRow l values s₁ = (.ok planned, s₂) → p row planned) : List.Forall₂ p insert.rows plan.rows := by
  obtain ⟨t', l', columns, ht', hl', hcolumns, hrows⟩ := planInsert_ok h
  cases ht.symm.trans ht'
  cases hl.symm.trans hl'
  refine forall₂_iff_zip.mpr ⟨hrows.length_eq, fun {row planned} hmem => ?_⟩
  obtain ⟨values, s₁, s₂, hvalues, hplanned⟩ := forall₂_zip hrows hmem
  have hliterals := hplain row (of_mem_zip hmem).1
  exact hrow row planned values s₁ s₂ (fit_of_row hapart hliterals hcolumns hvalues)
    (value?_eq_some_iff hapart hliterals hcolumns hvalues) hplanned

/-! ### The row above -/

theorem parentKey_ok (hfit : values.Fit t) (h : c.parentKey l merge values s = (.ok key, s')) :
    List.Forall₂ (fun pair k => k.1 = pair.2 ∧ ∃ v, values.value? pair.1 = some v ∧ v.stored? = some k.2)
      (merge.columns.zip merge.referencedColumns) key := by
  refine (forall₂_of_mapM h).imp ?_
  rintro ⟨column, referenced⟩ k ⟨_, _, h⟩
  dsimp only at h
  cases hv : values.value? column with
  | none => rw [hv] at h; cases h
  | some v =>
    rw [hv] at h
    obtain ⟨hname, hstored⟩ := storeColumn_ok h
    exact ⟨hname, v, rfl, hstored (hfit.isPlain_of_value? hv)⟩

theorem locateParent_ok {c : Catalog} {top : String} {hops : List Hop} {address : ParentAddress}
    (h : c.locateParent top hops key = .ok address) :
    ∃ pins, List.Forall₂ (fun k (pin : ParentAddress.Pin) =>
        c.locate top hops k.1 = .ok pin.location ∧ pin.value = k.2) key pins ∧ address = .ofPins hops pins := by
  obtain ⟨pins, hpins, h⟩ := exists_of_bind_ok h
  cases h
  refine ⟨pins, (mapM_ok_iff.mp hpins).imp ?_, rfl⟩
  rintro ⟨column, value⟩ pin h
  obtain ⟨location, hlocation, h⟩ := exists_of_bind_ok h
  cases h
  exact ⟨ok_of_mapError hlocation, rfl⟩

/-- The row above is looked for by the values of the columns that refer to it, at the locations of the
columns that they refer to. -/
theorem insertTarget_ok (hmerge : l.mergeKey? = some merge) (hfit : values.Fit t)
    (h : c.insertTarget l values s = (.ok target, s')) :
    ∃ (pins : List ParentAddress.Pin) (path : String) (arrayFilters : List Document) (many : Bool),
      List.Forall₂ (fun pair (pin : ParentAddress.Pin) =>
        c.catalog.locate l.collection l.hops.dropLast pair.2 = .ok pin.location ∧
          ∃ v, values.value? pair.1 = some v ∧ v.stored? = some pin.value)
        (merge.columns.zip merge.referencedColumns) pins ∧
      target = .parent l.collection
        (Document.ofFields (pins.map fun p => (p.location.path l.hops.dropLast, p.value))) path arrayFilters many := by
  rw [insertTarget] at h
  simp only [hmerge] at h
  obtain ⟨key, _, hkey, h⟩ := bind_ok h
  obtain ⟨address, haddress, rfl⟩ := bind_pure_ok h
  obtain ⟨pins, hpins, rfl⟩ := locateParent_ok (ofExcept_ok haddress).1
  refine ⟨pins, _, _, _, ?_, rfl⟩
  refine forall₂_comp (parentKey_ok hfit hkey) hpins ?_
  rintro pair k pin ⟨hname, hvalue⟩ ⟨hlocation, hpin⟩
  rw [← hname, hpin]
  exact ⟨hlocation, hvalue⟩

theorem get?_pins (hplain : c.catalog.PlainColumns) (hapart : c.catalog.ReferencesApart) (hl : c.catalog.LaysOut name l)
    (hmerge : l.mergeKey? = some merge) (hclear : ∀ hop ∈ l.hops.dropLast, hop.Clear) {pins : List ParentAddress.Pin}
    (hpins : List.Forall₂ (fun pair (pin : ParentAddress.Pin) =>
      c.catalog.locate l.collection l.hops.dropLast pair.2 = .ok pin.location ∧
        ∃ v, values.value? pair.1 = some v ∧ v.stored? = some pin.value)
      (merge.columns.zip merge.referencedColumns) pins) {pin : ParentAddress.Pin} (hpin : pin ∈ pins) :
    Document.get? (Document.ofFields (pins.map fun p => (p.location.path l.hops.dropLast, p.value)))
      (pin.location.path l.hops.dropLast) = some pin.value := by
  obtain ⟨hops, hhops⟩ := hl.hops_of_mergeKey? hmerge
  have hhop := Catalog.mem_hops_of_mergeKey? hmerge
  have hpairs : (merge.columns.zip merge.referencedColumns).Pairwise fun x y => ¬Text.same x.2 y.2 := by
    rw [← pairwise_map (f := Prod.snd) (R := fun a b => ¬Text.same a b), map_snd_zip (hl.length_of_mem_hops hhop).ge]
    exact hl.apart_of_mem_hops hapart hhop
  obtain ⟨above, parent, hparent, rfl, hcollection⟩ := hl.exists_of_hops_append hhops
  rw [hhops, dropLast_concat] at hclear hpins ⊢
  rw [← hcollection] at hpins
  have hpaths : pins.Pairwise fun p q => p.location.path parent.hops ≠ q.location.path parent.hops := by
    refine pairwise_of_forall₂ hpins hpairs ?_
    rintro x p y q ⟨hp, -⟩ ⟨hq, -⟩ hxy
    exact hparent.path_ne hplain hapart hclear hxy hp hq
  refine Document.get?_ofFields_of_nodup (mem_map_of_mem hpin) ?_
  rw [map_map]
  exact pairwise_map.mpr hpaths

/-! ### Rows that are found -/

theorem value?_ne_none_of_merged (hmerged : l.isMerged) (hfit : values.Fit t) {id : Option Bson}
    (h : c.rowId l values s = (.ok id, s')) : ∀ k ∈ l.idColumns, values.value? k ≠ none := by
  intro k hk
  rcases rowId_cases hfit h with ⟨parts, hparts, -, -⟩ | ⟨-, hnil | ⟨hroot, -⟩⟩
  · exact hparts.value?_ne_none hk
  · exact absurd (hnil ▸ hk) not_mem_nil
  · cases hmerged.symm.trans hroot

theorem own_value_found (hfit : values.Fit t) (hnames : t.PlainColumns) (hspells : t.SpellsKey)
    (hkey : l.primaryKey = t.primaryKey) (hmerge : l.mergeKey? = some merge) {doc : Document}
    (h : c.rowDocument l values s = (.ok doc, s')) {col : Column} (hv : values.value? column = some v)
    (hcol : t.column? column = some col) (hown : Text.hasName l.inheritedColumns column = false) :
    ∃ b, v.stored? = some b ∧ doc.atPath? (l.heldField l.inheritedColumns col.name) = some b := by
  obtain ⟨id, _, _, hid, -, -⟩ := rowDocument_ok h
  refine (atPath?_heldField hfit hnames hspells hkey h hv hcol hown).1 fun _ => ?_
  exact value?_ne_none_of_merged (congrArg Option.isSome hmerge) hfit hid

theorem inherited_value_found (hnames : c.catalog.PlainColumns) (hrefs : c.catalog.ReferencesApart)
    (hl : c.catalog.LaysOut name l) (hmerge : l.mergeKey? = some merge) (hfit : values.Fit t)
    (h : c.insertTarget l values s = (.ok target, s')) (hv : values.value? column = some v) {referenced : String}
    (hreferenced : Catalog.counterpart? merge.columns merge.referencedColumns column = some referenced) :
    ∃ b location filter path arrayFilters many, v.stored? = some b ∧
      c.catalog.locate l.collection l.hops.dropLast referenced = .ok location ∧
      target = .parent l.collection filter path arrayFilters many ∧
      ((∀ hop ∈ l.hops.dropLast, hop.Clear) → filter.get? (location.path l.hops.dropLast) = some b) := by
  obtain ⟨pins, path, arrayFilters, many, hpins, rfl⟩ := insertTarget_ok hmerge hfit h
  obtain ⟨partner, hmem, hsame⟩ := Catalog.mem_zip_of_counterpart? hreferenced
  obtain ⟨pin, hpin, hlocation, w, hw, hstored⟩ := exists_right_of_forall₂ hpins hmem
  cases hv.symm.trans ((value?_congr hsame).symm.trans hw)
  refine ⟨pin.value, pin.location, _, path, arrayFilters, many, hstored, hlocation, rfl, fun hclear => ?_⟩
  exact get?_pins hnames hrefs hl hmerge hclear hpins (of_mem_zip hpin).2

/-- Every value of a merged row is found in the stored row, or, when the row takes it over from the row that holds
it, by the filter that finds that row. -/
theorem values_found_in_merged_row {t : Table} {insert : Insert} {merge : Link} {plan : InsertPlan}
    (hc : c.catalog.Indexed) (hnames : c.catalog.PlainColumns) (hrefs : c.catalog.ReferencesApart)
    (ht : c.catalog.table insert.table = .ok t) (hl : c.catalog.layout t.name = .ok l)
    (hmerge : l.mergeKey? = some merge) (hspells : t.SpellsKey) (hapart : Text.Apart insert.columns)
    (hplain : insert.IsPlain) (h : c.planInsert insert s = (.ok plan, s')) :
    List.Forall₂ (fun row (planned : InsertRow) => ∀ column v, insert.Gives row column v →
      ∃ b location, v.stored? = some b ∧
        c.catalog.locate l.collection l.hops column = .ok location ∧
        (Text.hasName merge.columns column = false →
          location.depth = l.hops.length ∧ planned.row.atPath? location.field = some b) ∧
        (Text.hasName merge.columns column → ∃ referenced filter path arrayFilters many,
          Catalog.counterpart? merge.columns merge.referencedColumns column = some referenced ∧
          c.catalog.locate l.collection l.hops.dropLast referenced = .ok location ∧
          planned.target = .parent l.collection filter path arrayFilters many ∧
          ((∀ hop ∈ l.hops.dropLast, hop.Clear) →
            filter.get? (location.path l.hops.dropLast) = some b)))
      insert.rows plan.rows := by
  have hout := Catalog.layout_eq_ok_iff.mp hl
  have htable := Catalog.table_name hc.keyed ht
  have hinherited : l.inheritedColumns = merge.columns := by
    rw [TableLayout.inheritedColumns, hmerge]; rfl
  refine forall₂_rows ht hl hapart hplain h ?_
  intro row planned values s₁ s₂ hfit hgives hplanned column v hv
  obtain ⟨⟨_, hdoc⟩, -, _, htarget⟩ := insertRow_ok hplanned
  have hv := hgives.mpr hv
  obtain ⟨col, hcol, -, -⟩ := hfit.exists_column hv
  cases hcolumn : Text.hasName merge.columns column with
  | false =>
    rw [← hinherited] at hcolumn
    obtain ⟨b, hb, hfound⟩ := own_value_found hfit (hnames t (Catalog.mem_tables_of_table ht)) hspells
      (hout.outlines htable).primaryKey hmerge hdoc hv hcol hcolumn
    exact ⟨b, _, hb, hout.locate_own hc.keyed htable hcol hcolumn, fun _ => ⟨rfl, hfound⟩, by simp⟩
  | true =>
    have hhop := Catalog.mem_hops_of_mergeKey? hmerge
    obtain ⟨referenced, hreferenced⟩ :=
      Catalog.exists_counterpart (hout.length_of_mem_hops hhop) hcolumn
    obtain ⟨b, location, filter, path, arrayFilters, many, hb, hlocation, hfound⟩ :=
      inherited_value_found hnames hrefs hout hmerge hfit htarget hv hreferenced
    refine ⟨b, location, hb, ?_, by simp, fun _ =>
      ⟨referenced, filter, path, arrayFilters, many, hreferenced, hlocation, hfound⟩⟩
    rw [hout.locate_merged hc.keyed htable hmerge hcol, hreferenced]
    exact hlocation

def seat : Table :=
  { name := "seat"
    columns := [⟨"row", .integer, false⟩, ⟨"no", .integer, false⟩, ⟨"hall", .integer, false⟩,
      ⟨"zone", .string, false⟩, ⟨"site", .integer, false⟩, ⟨"note", .string, false⟩]
    primaryKey := ["zone", "site", "hall", "row", "no"]
    foreignKeys := [⟨"seat_hall", ["hall", "zone", "site"], "hall", ["no", "site_zone", "site_no"]⟩]
    properties := { mergeInto := some "hall" } }

def stadium : WriteContext Unit where
  catalog := .ofTables
    [{ name := "site", columns := [⟨"zone", .string, false⟩, ⟨"no", .integer, false⟩], primaryKey := ["zone", "no"] },
     { name := "hall"
       columns := [⟨"no", .integer, false⟩, ⟨"site_zone", .string, false⟩, ⟨"site_no", .integer, false⟩]
       primaryKey := ["no"]
       foreignKeys := [⟨"hall_site", ["site_zone", "site_no"], "site", []⟩]
       properties := { mergeInto := some "site" } }, seat]
  objects := .unavailable

def hallMerge : Link :=
  { name := "hall_site", parent := "site", child := "hall", columns := ["site_zone", "site_no"]
    referencedColumns := ["zone", "no"], association := .many }

def seatMerge : Link :=
  { name := "seat_hall", parent := "hall", child := "seat", columns := ["hall", "zone", "site"]
    referencedColumns := ["no", "site_zone", "site_no"], association := .many }

def seatLayout : Layout where
  table := "seat"
  primaryKey := ["zone", "site", "hall", "row", "no"]
  role := .merged seatMerge
  references := [⟨"seat_hall", "seat", ["hall", "zone", "site"], "hall", ["no", "site_zone", "site_no"]⟩]
  ancestors :=
    [{ table := "hall", primaryKey := ["no"], role := .merged hallMerge
       references := [⟨"hall_site", "hall", ["site_zone", "site_no"], "site", ["zone", "no"]⟩]
       mergedChildren := ["seat"] },
     { table := "site", primaryKey := ["zone", "no"], role := .root, mergedChildren := ["hall"] }]

def newSeat : Insert where
  table := "Seat"
  columns := ["row", "No", "zone", "site", "hall", "note"]
  rows := [[.literal (.integer 1), .literal (.integer 2), .literal (.string "N"), .literal (.integer 4),
    .literal (.integer 5), .literal .null]]

def seatRow : InsertRow where
  target := .parent "site" [("hall._id", .int32 5), ("_id.zone", .string "N"), ("_id.no", .int32 4)]
    "hall.$[a0].seat" [[("a0._id", .int32 5)]] true
  row := [("_id", .document [("row", .int32 1), ("no", .int32 2)])]
  copies := []

/-- A seat is found by its number in its `_id`, and its site by the zone that the seat refers to. -/
theorem values_found_in_seat :
    stadium.catalog.Indexed ∧ stadium.catalog.PlainColumns ∧ stadium.catalog.ReferencesApart ∧
      stadium.catalog.table newSeat.table = .ok seat ∧
      stadium.catalog.layout seat.name = .ok seatLayout ∧ seatLayout.mergeKey? = some seatMerge ∧
      seat.SpellsKey ∧ Text.Apart newSeat.columns ∧ newSeat.IsPlain ∧
      stadium.planInsert newSeat () = (.ok ⟨"seat", [seatRow], none⟩, ()) ∧
      (∃ location, stadium.catalog.locate "site" seatLayout.hops "no" = .ok location ∧
        location.depth = 2 ∧ seatRow.row.atPath? location.field = some (.int32 2)) ∧
      ∃ location filter path arrayFilters many,
        stadium.catalog.locate "site" seatLayout.hops "zone" = .ok location ∧
        seatRow.target = .parent "site" filter path arrayFilters many ∧
        filter.get? (location.path seatLayout.hops.dropLast) = some (.string "N") := by
  have hc : stadium.catalog.Indexed := Catalog.indexed_ofTables _
  have hnames : stadium.catalog.PlainColumns := by decide +kernel
  have hrefs : stadium.catalog.ReferencesApart := by decide +kernel
  have ht : stadium.catalog.table newSeat.table = .ok seat := rfl
  have hl : stadium.catalog.layout seat.name = .ok seatLayout := rfl
  have hspells : seat.SpellsKey := by decide +kernel
  have hapart : Text.Apart newSeat.columns := by decide +kernel
  have hplain : newSeat.IsPlain := by
    intro row hrow v hv
    rw [mem_singleton.mp hrow] at hv
    simp only [mem_cons, Expression.literal.injEq, not_mem_nil, or_false] at hv
    rcases hv with rfl | rfl | rfl | rfl | rfl | rfl <;> rfl
  have hplan : stadium.planInsert newSeat () = (.ok ⟨"seat", [seatRow], none⟩, ()) := rfl
  refine ⟨hc, hnames, hrefs, ht, hl, rfl, hspells, hapart, hplain, hplan, ?_⟩
  have hrows := values_found_in_merged_row hc hnames hrefs ht hl rfl hspells hapart hplain hplan
  obtain ⟨hseat, -⟩ := forall₂_cons.mp hrows
  constructor
  · obtain ⟨b, location, hb, hlocation, hfound, -⟩ :=
      hseat "no" (.integer 2) ⟨rfl, "No", by simp [newSeat], by decide +kernel⟩
    cases hb
    obtain ⟨hdepth, hfound⟩ := hfound (by decide +kernel)
    exact ⟨location, hlocation, hdepth, hfound⟩
  · obtain ⟨b, location, hb, hlocation, -, hfound⟩ :=
      hseat "zone" (.string "N") ⟨rfl, "zone", by simp [newSeat], by decide +kernel⟩
    cases hb
    obtain ⟨_, filter, path, arrayFilters, many, -, -, htarget, hfound⟩ := hfound (by decide +kernel)
    exact ⟨location, filter, path, arrayFilters, many, hlocation, htarget, hfound (by decide +kernel)⟩

/-- Every value of a row that is a document of its own is found in it, unless it is part of a key that the row does
not give in full: nothing is stored for such a key. -/
theorem values_found_in_document {t : Table} {insert : Insert} {plan : InsertPlan}
    (hc : c.catalog.WellKeyed) (ht : c.catalog.table insert.table = .ok t)
    (htop : t.properties.mergeInto = none) (hnames : t.PlainColumns) (hspells : t.SpellsKey)
    (hapart : Text.Apart insert.columns) (hplain : insert.IsPlain) (h : c.planInsert insert s = (.ok plan, s')) :
    List.Forall₂ (fun row (planned : InsertRow) => ∀ column v, insert.Gives row column v →
      ∃ location, c.catalog.locate t.name [] column = .ok location ∧
        ((t.isPrimaryKeyColumn column → ∀ k ∈ t.primaryKey, ∃ w, insert.Gives row k w) →
          ∃ b, v.stored? = some b ∧ planned.row.atPath? location.field = some b) ∧
        (t.isPrimaryKeyColumn column → (∃ k ∈ t.primaryKey, ∀ w, ¬insert.Gives row k w) →
          planned.row.atPath? location.field = none))
      insert.rows plan.rows := by
  obtain ⟨t', l, _, ht', hl, -, -⟩ := planInsert_ok h
  cases ht.symm.trans ht'
  have hout := Catalog.layout_eq_ok_iff.mp hl
  have htable := Catalog.table_name hc ht
  obtain ⟨hhops, hcollection⟩ := hout.hops_of_top htable htop
  have hinherited : l.inheritedColumns = [] := hout.inheritedColumns_of_top htable htop
  have hkey : l.primaryKey = t.primaryKey := (hout.outlines htable).primaryKey
  have hids : l.idColumns = t.primaryKey := (hout.idColumns_of_top htable htop).trans hkey
  refine forall₂_rows ht hl hapart hplain h ?_
  intro row planned values s₁ s₂ hfit hgives hplanned column v hv
  obtain ⟨⟨_, hdoc⟩, -, -⟩ := insertRow_ok hplanned
  have hv := hgives.mpr hv
  obtain ⟨col, hcol, -, -⟩ := hfit.exists_column hv
  have hlocate := hout.locate_top hc htable htop hcol
  rw [hhops, hcollection, (hout.outlines htable).table] at hlocate
  obtain ⟨hfound, hlost⟩ := atPath?_heldField hfit hnames hspells hkey hdoc hv hcol
    (by rw [hinherited]; rfl)
  rw [hids] at hfound hlost
  refine ⟨_, hlocate, fun hall => hfound fun hpart k hk hnone => ?_, fun hpart ⟨k, hk, hnone⟩ => ?_⟩
  · obtain ⟨w, hw⟩ := hall hpart k hk
    cases hnone.symm.trans (hgives.mpr hw)
  · refine hlost hpart ⟨k, hk, Option.eq_none_iff_forall_ne_some.mpr fun w hw => ?_⟩
    exact hnone w (hgives.mp hw)

def ticket : Table :=
  { name := "ticket"
    columns := [⟨"hall", .integer, false⟩, ⟨"no", .integer, false⟩, ⟨"note", .string, false⟩]
    primaryKey := ["hall", "no"] }

def boxOffice : WriteContext Unit where
  catalog := .ofTables [ticket]
  objects := .unavailable

def newTickets : Insert where
  table := "ticket"
  columns := ["HALL", "no", "note"]
  rows := [[.literal (.integer 3), .literal (.integer 4), .literal .null],
    [.literal (.integer 3), .literal .null, .literal (.string "aisle")]]

def numberedTicket : InsertRow where
  target := .collection "ticket"
  row := [("_id", .document [("hall", .int32 3), ("no", .int32 4)])]
  copies := []

def openTicket : InsertRow where
  target := .collection "ticket"
  row := [("note", .string "aisle")]
  copies := []

/-- The hall is found on the ticket with a number, and on the other one it is not. -/
theorem values_found_in_tickets :
    boxOffice.catalog.WellKeyed ∧ boxOffice.catalog.table newTickets.table = .ok ticket ∧
      ticket.properties.mergeInto = none ∧ ticket.PlainColumns ∧ ticket.SpellsKey ∧
      Text.Apart newTickets.columns ∧ newTickets.IsPlain ∧
      boxOffice.planInsert newTickets () = (.ok ⟨"ticket", [numberedTicket, openTicket], none⟩, ()) ∧
      ∃ location, boxOffice.catalog.locate "ticket" [] "hall" = .ok location ∧
        numberedTicket.row.atPath? location.field = some (.int32 3) ∧
        openTicket.row.atPath? location.field = none := by
  have hc : boxOffice.catalog.WellKeyed := Catalog.wellKeyed_ofTables _
  have ht : boxOffice.catalog.table newTickets.table = .ok ticket := rfl
  have hnames : ticket.PlainColumns := by decide +kernel
  have hspells : ticket.SpellsKey := by decide +kernel
  have hapart : Text.Apart newTickets.columns := by decide +kernel
  have hplain : newTickets.IsPlain := by
    intro row hrow v hv
    simp only [newTickets, mem_cons, not_mem_nil, or_false] at hrow
    rcases hrow with rfl | rfl <;>
      simp only [mem_cons, Expression.literal.injEq, not_mem_nil, or_false] at hv <;>
      rcases hv with rfl | rfl | rfl <;> rfl
  have hplan : boxOffice.planInsert newTickets () =
      (.ok ⟨"ticket", [numberedTicket, openTicket], none⟩, ()) := rfl
  refine ⟨hc, ht, rfl, hnames, hspells, hapart, hplain, hplan, ?_⟩
  have hrows := values_found_in_document hc ht rfl hnames hspells hapart hplain hplan
  obtain ⟨hnumbered, hrows⟩ := forall₂_cons.mp hrows
  obtain ⟨hopen, -⟩ := forall₂_cons.mp hrows
  obtain ⟨location, hlocation, hfound, -⟩ :=
    hnumbered "hall" (.integer 3) ⟨rfl, "HALL", by simp [newTickets], by decide +kernel⟩
  obtain ⟨location', hlocation', -, hlost⟩ :=
    hopen "hall" (.integer 3) ⟨rfl, "HALL", by simp [newTickets], by decide +kernel⟩
  cases hlocation.symm.trans hlocation'
  refine ⟨location, hlocation, ?_, ?_⟩
  · obtain ⟨b, hb, hfound⟩ := hfound fun _ k hk => by
      simp only [ticket, mem_cons, not_mem_nil, or_false] at hk
      rcases hk with rfl | rfl
      · exact ⟨.integer 3, rfl, "HALL", by simp [newTickets], by decide +kernel⟩
      · exact ⟨.integer 4, rfl, "no", by simp [newTickets], by decide +kernel⟩
    cases hb
    exact hfound
  · refine hlost (by decide +kernel) ⟨"no", by decide +kernel, ?_⟩
    rintro w ⟨hnull, name, hmem, hsame⟩
    simp only [newTickets, zip_cons_cons, zip_nil_left, mem_cons, Prod.mk.injEq,
      Expression.literal.injEq, not_mem_nil, or_false] at hmem
    rcases hmem with ⟨rfl, -⟩ | ⟨-, rfl⟩ | ⟨rfl, -⟩
    · exact absurd hsame (by decide +kernel)
    · cases hnull
    · exact absurd hsame (by decide +kernel)

end WriteContext

end Pushdown
