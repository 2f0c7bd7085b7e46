import Pushdown.Proofs.Placement
import Pushdown.Proofs.ReferenceKeys

/-!
# Copies along changed references

`changed_reference_refreshes_once`: an update that changes a reference also changes the copy that the row holds
along it. Which copies are cleared and which are fetched anew is decided in two passes over the references
(`passes_partition`).
-/

namespace Pushdown

open List Attempt Text

namespace Update

def Names (u : Update) (column : String) : Prop :=
  ∃ a ∈ u.assignments, Text.same a.column column

def Assigns (u : Update) (column : String) (v : Value) : Prop :=
  ∃ a ∈ u.assignments, Text.same a.column column ∧ a.value = .literal v

end Update

def ColumnValues.AssignedBy (assigned : ColumnValues) (u : Update) : Prop :=
  List.Forall₂ (fun a v => Text.same v.1 a.column ∧ a.value = .literal v.2) u.assignments assigned

namespace ColumnValues.AssignedBy

variable {assigned : ColumnValues} {u : Update} {column : String} {v : Value}

variable (h : assigned.AssignedBy u)

include h

theorem assigns_of_mem {name : String} (hmem : (name, v) ∈ assigned) (hname : Text.same name column) :
    u.Assigns column v := by
  obtain ⟨a, hmem, hsame, hliteral⟩ := exists_left_of_forall₂ h hmem
  rw [same_comm] at hsame
  exact ⟨a, (of_mem_zip hmem).1, same_trans hsame hname, hliteral⟩

theorem names_iff : u.Names column ↔ (assigned.find? fun v => Text.same v.1 column).isSome := by
  rw [find?_isSome]
  constructor
  · rintro ⟨a, ha, hsame⟩
    obtain ⟨v, hmem, hv, -⟩ := exists_right_of_forall₂ h ha
    exact ⟨v, (of_mem_zip hmem).2, same_trans hv hsame⟩
  · rintro ⟨v, hv, hsame⟩
    obtain ⟨a, ha, hcolumn, -⟩ := h.assigns_of_mem hv hsame
    exact ⟨a, ha, hcolumn⟩

theorem assigns_iff (hapart : Text.Apart (u.assignments.map (·.column))) :
    u.Assigns column v ↔ ∃ name, (assigned.find? fun v => Text.same v.1 column) = some (name, v) := by
  constructor
  · rintro ⟨a, ha, hsame, hvalue⟩
    obtain ⟨w, hmem, hw, hliteral⟩ := exists_right_of_forall₂ h ha
    cases hvalue.symm.trans hliteral
    have hassigned : Text.Apart (assigned.map (·.1)) := by
      refine pairwise_map.mpr (pairwise_of_forall₂ h (pairwise_map.mp hapart) ?_)
      rintro a w a' w' ⟨hw, -⟩ ⟨hw', -⟩ hne hsame
      rw [same_comm] at hw
      exact hne (same_trans hw (same_trans hsame hw'))
    exact ⟨w.1, find?_of_apart hassigned (of_mem_zip hmem).2 (same_trans hw hsame)⟩
  · rintro ⟨name, hfind⟩
    exact h.assigns_of_mem (mem_of_find?_eq_some hfind) (by simpa using find?_some hfind)

theorem assigns_of_value? (hv : assigned.value? column = some v) : u.Assigns column v := by
  obtain ⟨name, hmem, hname, -⟩ := value?_some hv
  exact h.assigns_of_mem hmem hname

theorem value?_isSome_iff (hapart : Text.Apart (u.assignments.map (·.column))) :
    (assigned.value? column).isSome ↔ u.Names column ∧ ¬u.Assigns column .null := by
  rw [h.names_iff, h.assigns_iff hapart, value?]
  cases assigned.find? fun v => Text.same v.1 column with
  | none => simp
  | some w =>
    obtain ⟨name, w⟩ := w
    cases w <;> simp [Value.isNull]

end ColumnValues.AssignedBy

namespace WriteContext

variable {σ : Type} {c : WriteContext σ} {u : Update} {assigned : ColumnValues} {e : Link} {s s' : σ} {l : Layout}
  {cleared fetched : Option CopyFetch}

theorem assignment_ok {t : Table} {a : Assignment} {v : String × Value} (h : assignment t l a = .ok v) :
    t.spelled a.column = .ok v.1 ∧ a.value = .literal v.2 ∧ t.isPrimaryKeyColumn v.1 = false := by
  obtain ⟨column, hspelled, h⟩ := exists_of_bind_ok h
  split at h
  · cases h
  · rename_i hkey
    split at h
    · cases h
    · obtain ⟨w, hw, h⟩ := exists_of_bind_ok h
      cases h
      exact ⟨hspelled, constant_ok hw, by simpa using hkey⟩

theorem assignedBy_of_mapM {t : Table} (h : u.assignments.mapM (assignment t l) = .ok assigned) :
    assigned.AssignedBy u := by
  refine (mapM_ok_iff.mp h).imp fun a v hv => ?_
  obtain ⟨hspelled, hvalue, -⟩ := assignment_ok hv
  obtain ⟨col, hcol, hname⟩ := spelled_ok hspelled
  exact ⟨hname ▸ Table.same_of_column? hcol, hvalue⟩

theorem clearedCopy_ok (hby : assigned.AssignedBy u) (hapart : Text.Apart (u.assignments.map (·.column)))
    (h : clearedCopy assigned e = .ok cleared) :
    (cleared = none ∧ ∀ column ∈ e.columns, ¬u.Names column) ∨
      (∀ column ∈ e.columns, u.Names column) ∧
        (cleared = some ⟨e.child, none⟩ ∧ (∃ column ∈ e.columns, u.Assigns column .null) ∨
          cleared = none ∧ ∀ column ∈ e.columns, ¬u.Assigns column .null) := by
  unfold clearedCopy at h
  extract_lets values at h
  have hnull : values.any (·.2.isNull) ↔ ∃ column ∈ e.columns, u.Assigns column .null := by
    simp only [any_eq_true, values, mem_filterMap, hby.assigns_iff hapart]
    constructor
    · rintro ⟨⟨name, v⟩, ⟨column, hcolumn, hfind⟩, hv⟩
      cases v <;> first | exact ⟨column, hcolumn, name, hfind⟩ | cases hv
    · rintro ⟨column, hcolumn, name, hfind⟩
      exact ⟨(name, .null), ⟨column, hcolumn, hfind⟩, rfl⟩
  split at h
  · rename_i hempty
    cases h
    refine .inl ⟨rfl, fun column hcolumn hnames => ?_⟩
    have hnone := filterMap_eq_nil_iff.mp (List.isEmpty_iff.mp hempty) column hcolumn
    rw [hby.names_iff, hnone] at hnames
    cases hnames
  · split at h
    · cases h
    · rename_i hlength
      have hall := filterMap_length_eq_length.mp (not_not.mp hlength)
      refine .inr ⟨fun column hcolumn => hby.names_iff.mpr (hall column hcolumn), ?_⟩
      split at h
      · rename_i hany
        cases h
        exact .inl ⟨rfl, hnull.mp hany⟩
      · rename_i hany
        cases h
        exact .inr ⟨rfl, fun column hcolumn hv => hany (hnull.mpr ⟨column, hcolumn, hv⟩)⟩

/-- The source of a copy is the row whose key, column by column, is made of the values assigned to the
columns that refer to it. -/
def FetchedBy (c : WriteContext σ) (u : Update) (e : Link) (source : String × Document) : Prop :=
  ∃ held parts, c.catalog.layout e.child = .ok held ∧
    List.Forall₂ (fun k b => ∃ column referenced v,
      (column, referenced) ∈ e.columns.zip e.referencedColumns ∧ Text.same referenced k ∧
        u.Assigns column v ∧ ∃ s₁ s₂ : σ, c.store v s₁ = (.ok b, s₂)) held.primaryKey parts ∧
    source = (held.collection, [("_id", keyOfParts held.primaryKey parts)])

theorem referringValue_ok {vs : List Value} {k : String} {v : Value}
    (hvs : e.columns.mapM assigned.value? = some vs) (h : referringValue e vs k = .ok v) :
    ∃ column referenced, (column, referenced) ∈ e.columns.zip e.referencedColumns ∧
      Text.same referenced k ∧ assigned.value? column = some v := by
  rw [referringValue] at h
  split at h
  · rename_i w hw
    cases h
    obtain ⟨referenced, hmem, hsame⟩ := Catalog.mem_zip_of_partner hw
    have hvs := (ColumnValues.mapM_value?_eq_some.mp hvs).flip
    have hself : List.Forall₂ (· = ·) e.referencedColumns e.referencedColumns := forall₂_refl _
    obtain ⟨column, _, hpair, hcolumn, rfl⟩ := exists_zip_of_forall₂ hvs hself (mem_zip_swap hmem)
    exact ⟨column, referenced, hpair, hsame, hcolumn⟩
  · cases h

theorem copyFetch_assigned (hby : assigned.AssignedBy u) (hapart : Text.Apart (u.assignments.map (·.column)))
    (h : c.copyFetch assigned e s = (.ok fetched, s')) :
    (fetched = none ∧ ∃ column ∈ e.columns, u.Names column → u.Assigns column .null) ∨
      (∀ column ∈ e.columns, u.Names column ∧ ¬u.Assigns column .null) ∧
        ∃ source, fetched = some ⟨e.child, some source⟩ ∧ c.FetchedBy u e source := by
  obtain ⟨rfl, column, hcolumn, hnone⟩ | ⟨vs, held, parts, hvs, hheld, hparts, rfl⟩ := copyFetch_ok h
  · refine .inl ⟨rfl, column, hcolumn, fun hnames => ?_⟩
    by_contra hnull
    have hsome := (hby.value?_isSome_iff hapart).mpr ⟨hnames, hnull⟩
    rw [hnone] at hsome
    cases hsome
  · refine .inr ⟨fun column hcolumn => ?_, _, rfl, held, parts, hheld, hparts.imp ?_, rfl⟩
    · obtain ⟨v, -, hv⟩ := exists_right_of_forall₂ (ColumnValues.mapM_value?_eq_some.mp hvs) hcolumn
      exact (hby.value?_isSome_iff hapart).mp (Option.isSome_of_eq_some hv)
    · rintro k b ⟨v, s₁, s₂, hv, hb⟩
      obtain ⟨column, referenced, hmem, hsame, hvalue⟩ := referringValue_ok hvs hv
      exact ⟨column, referenced, v, hmem, hsame, hby.assigns_of_value? hvalue, s₁, s₂, hb⟩

/-- For a reference that the update leaves alone neither pass gives a copy, and for one that it changes just
one of them does. -/
theorem passes_partition (hby : assigned.AssignedBy u) (hapart : Text.Apart (u.assignments.map (·.column)))
    (hne : e.columns ≠ []) (hcleared : clearedCopy assigned e = .ok cleared)
    (hfetched : c.copyFetch assigned e s = (.ok fetched, s')) :
    ((∀ column ∈ e.columns, ¬u.Names column) ∧ cleared.toList ++ fetched.toList = []) ∨
      (∀ column ∈ e.columns, u.Names column) ∧
        ∃ copy, cleared.toList ++ fetched.toList = [copy] ∧
          (copy.source = none ↔ ∃ column ∈ e.columns, u.Assigns column .null) ∧
          ∀ source, copy.source = some source → c.FetchedBy u e source := by
  rcases clearedCopy_ok hby hapart hcleared with
    ⟨rfl, hnone⟩ | ⟨hall, ⟨rfl, column, hcolumn, hnull⟩ | ⟨rfl, hnull⟩⟩ <;>
  rcases copyFetch_assigned hby hapart hfetched with
    ⟨rfl, other, hother, hvalue⟩ | ⟨hvalues, source, rfl, hsource⟩
  · exact .inl ⟨hnone, rfl⟩
  · obtain ⟨column, hcolumn⟩ := exists_mem_of_ne_nil _ hne
    exact absurd (hvalues column hcolumn).1 (hnone column hcolumn)
  · exact .inr ⟨hall, _, rfl, iff_of_true rfl ⟨column, hcolumn, hnull⟩, nofun⟩
  · exact absurd hnull (hvalues column hcolumn).2
  · exact absurd (hvalue (hall other hother)) (hnull other hother)
  · refine .inr ⟨hall, _, rfl, iff_of_false nofun ?_, fun found hfound => ?_⟩
    · rintro ⟨column, hcolumn, hv⟩
      exact hnull column hcolumn hv
    · cases hfound
      exact hsource

section Results

variable {r : Link → Option CopyFetch → Prop} {keys : List Link} {results : List (Option CopyFetch)}
  (hfield : ∀ {k : Link} {copy : CopyFetch}, r k (some copy) → copy.field = k.child)

include hfield

theorem filter_of_field {k : Link} {result : Option CopyFetch} (hr : r k result) (name : String) :
    result.toList.filter (·.field = name) = if k.child = name then result.toList else [] := by
  cases result with
  | none => split <;> rfl
  | some copy => simp [filter_singleton, hfield hr]

theorem filter_of_others (h : List.Forall₂ r keys results) {name : String}
    (hne : ∀ k ∈ keys, k.child ≠ name) : (results.filterMap id).filter (·.field = name) = [] := by
  refine filter_eq_nil_iff.mpr fun copy hcopy => ?_
  obtain ⟨_, hmem, rfl⟩ := mem_filterMap.mp hcopy
  obtain ⟨k, hmem, hk⟩ := exists_left_of_forall₂ h hmem
  simpa [hfield hk] using hne k (of_mem_zip hmem).1

theorem exists_filter_field (h : List.Forall₂ r keys results)
    (hapart : keys.Pairwise fun k k' => k.child ≠ k'.child) (he : e ∈ keys) :
    ∃ own, r e own ∧ (results.filterMap id).filter (·.field = e.child) = own.toList := by
  induction h with
  | nil => cases he
  | @cons k result keys results hr hrest ih =>
    obtain ⟨hk, hapart⟩ := pairwise_cons.mp hapart
    have hcons : (result :: results).filterMap id = result.toList ++ results.filterMap id := by
      cases result <;> rfl
    rw [hcons, filter_append, filter_of_field hfield hr]
    rcases mem_cons.mp he with rfl | he
    · refine ⟨result, hr, ?_⟩
      rw [if_pos rfl, filter_of_others hfield hrest fun k' hk' => (hk k' hk').symm, append_nil]
    · obtain ⟨own, hown, hresults⟩ := ih hapart he
      exact ⟨own, hown, by rw [if_neg (hk e he), hresults, nil_append]⟩

end Results

theorem field_of_clearedCopy {copy : CopyFetch} (h : clearedCopy assigned e = .ok (some copy)) :
    copy.field = e.child := by
  rw [clearedCopy] at h
  split at h
  · cases h
  · split at h
    · cases h
    · split at h <;> cases h
      rfl

theorem refreshedCopies_ok {copies : List CopyFetch} (hapart : l.embeddedKeys.Pairwise fun k k' => k.child ≠ k'.child)
    (he : e ∈ l.embeddedKeys) (h : c.refreshedCopies l assigned s = (.ok copies, s')) :
    ∃ cleared fetched s₁ s₂, clearedCopy assigned e = .ok cleared ∧
      c.copyFetch assigned e s₁ = (.ok fetched, s₂) ∧
      copies.filter (·.field = e.child) = cleared.toList ++ fetched.toList := by
  obtain ⟨allCleared, s₁, hcleared, h⟩ := bind_ok h
  obtain ⟨_, s₂, hfetches, h⟩ := bind_ok h
  obtain ⟨allFetched, hfetched, rfl⟩ := bind_pure_ok hfetches
  obtain ⟨rfl, -⟩ := pure_ok h
  obtain ⟨cleared, hown, hcleared⟩ := exists_filter_field field_of_clearedCopy
    (mapM_ok_iff.mp (ofExcept_ok hcleared).1) hapart he
  obtain ⟨fetched, ⟨s₄, s₅, hfetch⟩, hfetched⟩ := exists_filter_field
    (fun ⟨_, _, h⟩ => field_of_copyFetch h) (forall₂_of_mapM hfetched) hapart he
  exact ⟨cleared, fetched, s₄, s₅, hown, hfetch, by rw [filter_append, hcleared, hfetched]⟩

end WriteContext

def WritePlan.copies : WritePlan → List CopyFetch
  | .insert p => p.rows.flatMap (·.copies)
  | .direct p => p.copies
  | .pull _ => []
  | .nested p => p.copies

namespace WriteContext

variable {σ : Type} {c : WriteContext σ} {u : Update} {e : Link} {t : Table} {l : Layout}

theorem copies_of_planUpdate (ht : c.catalog.table u.table = .ok t)
    (hl : c.catalog.layout t.name = .ok l) (hapart : Text.Apart (u.assignments.map (·.column)))
    (he : e ∈ l.embeddedKeys) (hne : e.columns ≠ []) {plan : WritePlan} {s s' : σ}
    (h : c.planUpdate u s = (.ok plan, s')) :
    ((∀ column ∈ e.columns, ¬u.Names column) ∧ plan.copies.filter (·.field = e.child) = []) ∨
      (∀ column ∈ e.columns, u.Names column) ∧
        ∃ copy, plan.copies.filter (·.field = e.child) = [copy] ∧
          (copy.source = none ↔ ∃ column ∈ e.columns, u.Assigns column .null) ∧
          ∀ source, copy.source = some source → c.FetchedBy u e source := by
  obtain ⟨_, _, assigned, copies, _, s₁, s₂, _, ht', hl', hassigned, hcopies, -, hplan⟩ := planUpdate_ok h
  cases ht.symm.trans ht'
  cases hl.symm.trans hl'
  have hby := assignedBy_of_mapM hassigned
  have hkeys := Catalog.embedded_apart hl
  have hplanned : plan.copies = copies := by
    obtain ⟨_, _, _, -, -, rfl⟩ | ⟨-, hnested⟩ := hplan
    · rfl
    · obtain ⟨_, _, -, -, rfl⟩ := nested_ok hnested
      rfl
  obtain ⟨cleared, fetched, s₃, s₄, hcleared, hfetched, hfilter⟩ := refreshedCopies_ok hkeys he hcopies
  rw [hplanned, hfilter]
  exact passes_partition hby hapart hne hcleared hfetched

theorem FetchedBy.collection_eq (hc : c.catalog.Indexed) (hl : c.catalog.layout t.name = .ok l)
    (he : e ∈ l.embeddedKeys) {source : String × Document} (h : c.FetchedBy u e source) : source.1 = e.child := by
  obtain ⟨held, parts, hheld, -, rfl⟩ := h
  obtain ⟨t, ht, hname, hembeddable⟩ := Catalog.exists_held hc hl he
  have hout := Catalog.layout_eq_ok_iff.mp hheld
  have hown := hout.outlines ht
  calc held.collection = held.table := (hout.hops_of_top ht (hown.exclusive hembeddable)).2
    _ = t.name := hown.table
    _ = e.child := hname

/-- The copy along a changed reference is cleared if a column of the reference is assigned NULL, and is otherwise
`FetchedBy` the assigned values, in the order of the key. A reference is changed as a whole or not at all. -/
theorem changed_reference_refreshes_once (hc : c.catalog.Indexed) (ht : c.catalog.table u.table = .ok t)
    (hl : c.catalog.layout t.name = .ok l) (hapart : Text.Apart (u.assignments.map (·.column)))
    (he : e ∈ l.embeddedKeys) (hne : e.columns ≠ []) (s : σ) :
    (∀ plan s', c.planUpdate u s = (.ok plan, s') →
      ((∀ column ∈ e.columns, u.Names column) →
        ∃ copy, plan.copies.filter (·.field = e.child) = [copy] ∧
          (copy.source = none ↔ ∃ column ∈ e.columns, u.Assigns column .null) ∧
          ∀ source, copy.source = some source → source.1 = e.child ∧ c.FetchedBy u e source) ∧
      ((∃ column ∈ e.columns, ¬u.Names column) → plan.copies.filter (·.field = e.child) = [])) ∧
    ((∃ column ∈ e.columns, u.Names column) → (∃ column ∈ e.columns, ¬u.Names column) →
      ∃ error, (c.planUpdate u s).1 = .error error) := by
  constructor
  · intro plan s' h
    rcases copies_of_planUpdate ht hl hapart he hne h with
      ⟨hnone, hcopies⟩ | ⟨hall, copy, hcopies, hsource, hfetched⟩
    · obtain ⟨column, hcolumn⟩ := exists_mem_of_ne_nil _ hne
      exact ⟨fun hall => absurd (hall column hcolumn) (hnone column hcolumn), fun _ => hcopies⟩
    · refine ⟨fun _ => ⟨copy, hcopies, hsource, fun source h => ?_⟩, ?_⟩
      · exact ⟨(hfetched source h).collection_eq hc hl he, hfetched source h⟩
      · rintro ⟨column, hcolumn, hnot⟩
        exact absurd (hall column hcolumn) hnot
  · rintro ⟨column, hcolumn, hnames⟩ ⟨other, hother, hnot⟩
    cases h : (c.planUpdate u s).1 with
    | error error => exact ⟨error, rfl⟩
    | ok plan =>
      rcases copies_of_planUpdate ht hl hapart he hne (Prod.ext h rfl) with ⟨hnone, -⟩ | ⟨hall, -⟩
      · exact absurd hnames (hnone column hcolumn)
      · exact absurd (hall other hother) hnot

def updatedLine (assignments : List Assignment) : Update where
  table := "line"
  assignments := assignments

def otherPart : Update :=
  updatedLine [⟨"part_region", .literal (.string "US")⟩, ⟨"PART_NO", .literal (.integer 9)⟩]

def noPart : Update := updatedLine [⟨"part_no", .literal (.integer 9)⟩, ⟨"part_region", .literal .null⟩]

def halfPart : Update := updatedLine [⟨"part_no", .literal (.integer 9)⟩]

def otherCopy : CopyFetch :=
  fetchByKey partLink partLayout (.document [("region", .string "US"), ("no", .int32 9)])

/-- A line gets the copy of another part, but none of a part with no region, and no part by its number alone. -/
theorem changed_reference_refreshes_once_line :
    supply.catalog.Indexed ∧ supply.catalog.layout "line" = .ok lineLayout ∧
      partLink ∈ lineLayout.embeddedKeys ∧ partLink.columns ≠ [] ∧
      (∃ plan source, supply.planUpdate otherPart () = (.ok plan, ()) ∧
        plan.copies.filter (·.field = "part") = [otherCopy] ∧ otherCopy.source = some source ∧
        source.1 = "part" ∧ supply.FetchedBy otherPart partLink source) ∧
      (∃ plan copy, supply.planUpdate noPart () = (.ok plan, ()) ∧
        plan.copies.filter (·.field = "part") = [copy] ∧ copy.source = none) ∧
      ∃ error, (supply.planUpdate halfPart ()).1 = .error error := by
  have hc : supply.catalog.Indexed := Catalog.indexed_ofTables _
  have he : partLink ∈ lineLayout.embeddedKeys := mem_singleton_self _
  have hne : partLink.columns ≠ [] := nofun
  have haccepted : ∀ u, (supply.planUpdate u ()).1.isOk →
      ∃ plan, supply.planUpdate u () = (.ok plan, ()) := by
    intro u h
    cases hplan : (supply.planUpdate u ()).1 with
    | ok plan => exact ⟨plan, Prod.ext hplan rfl⟩
    | error error => rw [hplan] at h; cases h
  obtain ⟨t, ht, hl⟩ : ∃ t, supply.catalog.table "line" = .ok t ∧
      supply.catalog.layout t.name = .ok lineLayout := ⟨_, rfl, rfl⟩
  refine ⟨hc, rfl, he, hne, ?_, ?_, ?_⟩
  · obtain ⟨plan, hplan⟩ := haccepted otherPart (by decide +kernel)
    have hall : ∀ column ∈ partLink.columns, otherPart.Names column := by
      unfold Update.Names
      decide +kernel
    obtain ⟨copy, hcopies, -, hsome⟩ :=
      ((changed_reference_refreshes_once hc ht hl (by decide +kernel) he hne ()).1 plan () hplan).1 hall
    have hplanned : (supply.planUpdate otherPart ()).1.toOption.map WritePlan.copies = some [otherCopy] := by
      with_unfolding_all rfl
    rw [hplan] at hplanned
    have hcopy : [otherCopy].filter (·.field = "part") = [copy] := Option.some.inj hplanned ▸ hcopies
    cases hcopy
    exact ⟨plan, _, hplan, hcopies, rfl, hsome _ rfl⟩
  · obtain ⟨plan, hplan⟩ := haccepted noPart (by decide +kernel)
    have hall : ∀ column ∈ partLink.columns, noPart.Names column := by
      unfold Update.Names
      decide +kernel
    obtain ⟨copy, hcopies, hnone, -⟩ :=
      ((changed_reference_refreshes_once hc ht hl (by decide +kernel) he hne ()).1 plan () hplan).1 hall
    have hregion : noPart.Assigns "part_region" .null :=
      ⟨_, mem_cons_of_mem _ (mem_singleton_self _), by decide +kernel, rfl⟩
    exact ⟨plan, copy, hplan, hcopies, hnone.mpr ⟨"part_region", by decide, hregion⟩⟩
  · refine (changed_reference_refreshes_once hc ht hl (by decide +kernel) he hne ()).2 ?_ ?_
    · unfold Update.Names
      decide +kernel
    · unfold Update.Names
      decide +kernel

end WriteContext

end Pushdown
