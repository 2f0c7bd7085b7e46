import Pushdown.Proofs.AttachedCopies
import Pushdown.Proofs.FieldTests
import Pushdown.Proofs.Propagation
import Pushdown.Proofs.RefreshedCopies
import Pushdown.Proofs.TouchedPaths

/-!
# Updates without conflicts

An UPDATE is carried out by updates of three kinds: of whole documents, of the rows inside a document by their
positions, and of the copies of a row. Each of them sets the columns that are assigned a value, removes those that
are assigned NULL, and writes or removes copies beside them. `updates_conflict_free_iff`: the store takes them just
when what is written to a row is `Separate`.
-/

namespace Pushdown

open List Attempt Changes NestedWrite Pushdown.Path

/-! ### Rows that lie apart -/

variable {path : String} {rows : List NestedWrite.Selected} {documents : List Document} {request : UpdateRequest}

namespace Path

theorem append_dot_ne_empty (a b : String) : a ++ "." ++ b ≠ "" := by
  intro h
  have hlength := congrArg (fun s => s.toList.length) h
  simp at hlength

theorem extend_of_ne_empty (h : path ≠ "") (name : String) : extend path name = path ++ "." ++ name := by
  rw [extend, if_neg (by simpa using h)]

@[simp] theorem extend_empty (name : String) : extend "" name = name := rfl

end Path

namespace Row

def LiesApart (a b : Row) : Prop :=
  Path.diverge (Path.split a.positionalPath) (Path.split b.positionalPath) = true

theorem stepPath_some (path : String) {s : RowStep} {i : Nat} (h : s.index = some i) :
    stepPath path s = Path.extend path s.field ++ "." ++ toString i := by
  rw [stepPath, h]

theorem stepPath_none (path : String) {s : RowStep} (h : s.index = none) : stepPath path s = extend path s.field := by
  rw [stepPath, h]

theorem split_stepPath (hpath : path ≠ "") (s : RowStep) :
    stepPath path s ≠ "" ∧ ∃ rest, Path.split (stepPath path s) = Path.split path ++ rest := by
  cases hindex : s.index with
  | none =>
    rw [stepPath_none path hindex, extend_of_ne_empty hpath]
    exact ⟨append_dot_ne_empty _ _, _, split_append_dot ..⟩
  | some i =>
    rw [stepPath_some path hindex, extend_of_ne_empty hpath]
    refine ⟨append_dot_ne_empty _ _, Path.split s.field ++ Path.split (toString i), ?_⟩
    rw [split_append_dot, split_append_dot, append_assoc]

theorem split_foldl_stepPath (hpath : path ≠ "") (steps : List RowStep) :
    ∃ rest, Path.split (steps.foldl stepPath path) = Path.split path ++ rest := by
  induction steps generalizing path with
  | nil => exact ⟨[], (append_nil _).symm⟩
  | cons s steps ih =>
    obtain ⟨hne, rest, hrest⟩ := split_stepPath hpath s
    obtain ⟨rest', hrest'⟩ := ih hne
    exact ⟨rest ++ rest', by rw [foldl_cons, hrest', hrest, append_assoc]⟩

theorem diverge_stepPath {a b : RowStep} (hfield : a.field = b.field)
    (h : diverge a.names b.names = true) (path : String) :
    stepPath path a ≠ "" ∧ stepPath path b ≠ "" ∧
      diverge (Path.split (stepPath path a)) (Path.split (stepPath path b)) = true := by
  rw [RowStep.names, RowStep.names, diverge_cons, hfield] at h
  replace h := h.resolve_left (absurd rfl)
  cases ha : a.index with
  | none => rw [ha] at h; cases h
  | some i =>
    cases hb : b.index with
    | none => rw [ha, hb] at h; cases h
    | some j =>
      rw [ha, hb] at h
      rw [stepPath_some path ha, stepPath_some path hb, hfield]
      refine ⟨append_dot_ne_empty _ _, append_dot_ne_empty _ _, ?_⟩
      rw [split_append_dot, split_append_dot, diverge_append_left,
        split_of_isName (toString_isName i), split_of_isName (toString_isName j)]
      exact h

theorem liesApart_walk (r : Row) (hops : List Hop) : (r.walk hops).Pairwise LiesApart := by
  induction hops generalizing r with
  | nil => exact pairwise_singleton ..
  | cons hop hops ih =>
    rw [walk_cons, pairwise_flatMap]
    refine ⟨fun s _ => ih (r.below s), (diverge_stepsBelow hop r).imp_of_mem ?_⟩
    intro a b ha hb hab c hc c' hc'
    obtain ⟨rest, -, hrest, -⟩ := exists_steps_of_mem_walk hc
    obtain ⟨rest', -, hrest', -⟩ := exists_steps_of_mem_walk hc'
    have hpath : c.positionalPath = rest.foldl stepPath (stepPath r.positionalPath a) := by
      rw [positionalPath, hrest, steps_below, foldl_append, foldl_append]
      rfl
    have hpath' : c'.positionalPath = rest'.foldl stepPath (stepPath r.positionalPath b) := by
      rw [positionalPath, hrest', steps_below, foldl_append, foldl_append]
      rfl
    have hfield := (field_of_mem_stepsBelow ha).trans (field_of_mem_stepsBelow hb).symm
    obtain ⟨hne, hne', hdiverge⟩ := diverge_stepPath hfield hab r.positionalPath
    obtain ⟨more, hmore⟩ := split_foldl_stepPath hne rest
    obtain ⟨more', hmore'⟩ := split_foldl_stepPath hne' rest'
    rw [LiesApart, hpath, hpath', hmore, hmore']
    exact diverge_append hdiverge more more'

theorem positionalPath_ne_empty {r row : Row} {hops : List Hop} {hop : Hop} (hfield : hop.field ≠ "")
    (h : row ∈ r.walk (hops ++ [hop])) : row.positionalPath ≠ "" := by
  obtain ⟨holder, -, s, hs, rfl⟩ := exists_below_of_mem_walk h
  rw [positionalPath, steps_below, foldl_append, foldl_cons, foldl_nil]
  by_cases hpath : holder.steps.foldl stepPath "" = ""
  · rw [hpath]
    cases hindex : s.index with
    | none => rwa [stepPath_none _ hindex, extend_empty, field_of_mem_stepsBelow hs]
    | some i =>
      rw [stepPath_some _ hindex]
      exact append_dot_ne_empty _ _
  · exact (split_stepPath hpath s).1

end Row

/-! ### What is written to a row -/

namespace NestedWrite

def written (fields : List (String × Bson)) (copies : List ResolvedCopy) : List (String × Bool) :=
  fields.map (fun f => (f.1, !f.2.isNull)) ++ copies.map fun copy => (copy.field, copy.document.isSome)

def writtenAt (path : String) (fields : List (String × Bson)) (copies : List ResolvedCopy) : List (String × Bool) :=
  fields.map (fun f => (path ++ "." ++ f.1, !f.2.isNull)) ++
    copies.map fun copy => (Path.extend path copy.field, copy.document.isSome)

variable {fields : List (String × Bson)} {copies : List ResolvedCopy}

theorem writtenAt_of_ne_empty (h : path ≠ "") :
    writtenAt path fields copies = (written fields copies).map fun p => (path ++ "." ++ p.1, p.2) := by
  simp only [writtenAt, written, map_append, map_map, Function.comp_def, extend_of_ne_empty h]

theorem touches_updateChanges (fields : List (String × Bson)) (copies : List ResolvedCopy) (rows : List Selected) :
    (updateChanges fields copies rows).Touches
      ((rows.filter (·.chosen)).flatMap fun s => writtenAt s.row.positionalPath fields copies) := by
  refine touches_foldl (fun {changes ps} s h => ?_) touches_nil _
  rw [writtenAt, ← append_assoc]
  refine touches_writeCopies ?_ _ copies
  rw [map_eq_flatMap]
  exact touches_foldl (fun f h => touches_assignOrClear h _ f.2) h fields

theorem conflictFree_updateChanges (hapart : (rows.map (·.row)).Pairwise Row.LiesApart)
    (hpath : ∀ s ∈ rows, s.row.positionalPath ≠ "") (hchosen : ∃ s, s ∈ rows.filter (·.chosen)) :
    (updateChanges fields copies rows).ConflictFree ↔ Changes.Compatible (written fields copies) := by
  have hsymm : Std.Symm fun a b : Selected => a.row.LiesApart b.row :=
    ⟨fun a b hab => (diverge_comm ..).trans hab⟩
  have hpairwise := ((pairwise_map.mp hapart).filter (·.chosen)).forall
  have hplaces {s : Selected} (hs : s ∈ rows.filter (·.chosen)) : writtenAt s.row.positionalPath fields copies = _ :=
    writtenAt_of_ne_empty (hpath s (mem_of_mem_filter hs))
  rw [conflictFree_iff (touches_updateChanges fields copies rows), compatible_flatMap]
  · obtain ⟨s, hs⟩ := hchosen
    constructor
    · intro h
      have hrow := h s hs
      rwa [hplaces hs, compatible_below] at hrow
    · intro h r hr
      rwa [hplaces hr, compatible_below]
  · intro a ha b hb hne p hp q hq
    rw [hplaces ha] at hp
    rw [hplaces hb] at hq
    obtain ⟨p, -, rfl⟩ := mem_map.mp hp
    obtain ⟨q, -, rfl⟩ := mem_map.mp hq
    rw [split_append_dot, split_append_dot]
    exact diverge_append (hpairwise ha hb hne) _ _

end NestedWrite

/-! ### What an UPDATE writes to one row -/

namespace Update

variable {u : Update} {t : Table} {copies : List ResolvedCopy}

/-- A column, spelled as the table spells it, is assigned a value. -/
def SetsTo (u : Update) (t : Table) (column : String) (v : Value) : Prop :=
  ∃ a ∈ u.assignments, t.spelled a.column = .ok column ∧ a.value = .literal v

/-- A name is written to a row, for a column or a copy: it is set, or it is removed. -/
def Writes (u : Update) (t : Table) (copies : List ResolvedCopy) (name : String) (isSet : Bool) : Prop :=
  (∃ v, u.SetsTo t name v ∧ isSet = !v.isNull) ∨ ∃ copy ∈ copies, name = copy.field ∧ isSet = copy.document.isSome

/-- What is written to a row is apart: nothing is both set and removed, and nothing leads into something else. -/
structure Separate (u : Update) (t : Table) (copies : List ResolvedCopy) : Prop where
  once : ∀ {name}, u.Writes t copies name true → ¬ u.Writes t copies name false
  apart : ∀ {a b x y}, u.Writes t copies a x → u.Writes t copies b y → Path.hasPrefix (a ++ ".") b = false

/-- The stored fields are those that are assigned, and null where they are assigned NULL. -/
def StoredAs (u : Update) (t : Table) (fields : List (String × Bson)) : Prop :=
  ∀ column isNull, (∃ f ∈ fields, f.1 = column ∧ f.2.isNull = isNull) ↔ ∃ v, u.SetsTo t column v ∧ v.isNull = isNull

variable {fields : List (String × Bson)}

theorem StoredAs.mem_written_iff (h : u.StoredAs t fields) {name : String} {isSet : Bool} :
    (name, isSet) ∈ written fields copies ↔ u.Writes t copies name isSet := by
  rw [written, mem_append, Writes, mem_map, mem_map]
  refine or_congr ⟨?_, ?_⟩ ?_
  · rintro ⟨f, hf, heq⟩
    obtain ⟨rfl, rfl⟩ := Prod.mk.inj heq
    obtain ⟨v, hsets, hnull⟩ := (h f.1 f.2.isNull).mp ⟨f, hf, rfl, rfl⟩
    exact ⟨v, hsets, by rw [hnull]⟩
  · rintro ⟨v, hsets, rfl⟩
    obtain ⟨f, hf, rfl, hnull⟩ := (h name v.isNull).mpr ⟨v, hsets, rfl⟩
    exact ⟨f, hf, by rw [hnull]⟩
  · simp only [Prod.mk.injEq, eq_comm]

theorem StoredAs.compatible_iff (h : u.StoredAs t fields) :
    Changes.Compatible (written fields copies) ↔ u.Separate t copies := by
  constructor
  · intro hcompatible
    refine ⟨fun {name} hset hunset => ?_, fun {a b x y} ha hb => ?_⟩
    · rcases hcompatible _ (h.mem_written_iff.mpr hset) _ (h.mem_written_iff.mpr hunset) with heq | hdiverge
      · cases heq
      · rw [diverge_self] at hdiverge
        cases hdiverge
    · rcases hcompatible _ (h.mem_written_iff.mpr ha) _ (h.mem_written_iff.mpr hb) with heq | hdiverge
      · rw [(Prod.mk.inj heq).1]
        exact hasPrefix_dot_self b
      · exact (Bool.or_eq_false_iff.mp (diverge_split_iff.mp hdiverge).1).2
  · rintro hseparate ⟨a, x⟩ hp ⟨b, y⟩ hq
    have ha := h.mem_written_iff.mp hp
    have hb := h.mem_written_iff.mp hq
    by_cases hab : a = b
    · subst hab
      refine .inl (Prod.ext rfl ?_)
      cases x <;> cases y
      · rfl
      · exact absurd ha (hseparate.once hb)
      · exact absurd hb (hseparate.once ha)
      · rfl
    · refine .inr (diverge_split_iff.mpr ⟨?_, ?_⟩)
      · exact Bool.or_eq_false_iff.mpr ⟨by simpa using Ne.symm hab, hseparate.apart ha hb⟩
      · exact Bool.or_eq_false_iff.mpr ⟨by simpa using hab, hseparate.apart hb ha⟩

/-- An UPDATE that keeps its writes to a row apart: it assigns no column both NULL and a value and none that is
called like a copy, and neither these columns nor copies have a dot in their names. -/
structure WritesPlainly (u : Update) (t : Table) (l : Layout) : Prop where
  once : ∀ {column v w}, u.SetsTo t column v → u.SetsTo t column w → v.isNull = w.isNull
  beside : ∀ {column v}, u.SetsTo t column v → ∀ link ∈ l.embeddedKeys, column ≠ link.child
  dotless : ∀ {column v}, u.SetsTo t column v → '.' ∉ column.toList
  dotlessCopies : ∀ link ∈ l.embeddedKeys, '.' ∉ link.child.toList

/-- Copies of rows that the rows of a table refer to, each under its own name. -/
structure HeldBy (copies : List ResolvedCopy) (l : Layout) : Prop where
  nodup : (copies.map (·.field)).Nodup
  held : ∀ copy ∈ copies, ∃ link ∈ l.embeddedKeys, copy.field = link.child

namespace WritesPlainly

variable {l : Layout} {name : String} {x y : Bool}

variable (h : u.WritesPlainly t l) (hcopies : HeldBy copies l)

include h hcopies

theorem once_of_heldBy (hx : u.Writes t copies name x) (hy : u.Writes t copies name y) : x = y := by
  have hother {v : Value} (hsets : u.SetsTo t name v) {copy : ResolvedCopy} (hcopy : copy ∈ copies) :
      name ≠ copy.field := by
    obtain ⟨link, hlink, hfield⟩ := hcopies.held copy hcopy
    rw [hfield]
    exact h.beside hsets link hlink
  rcases hx with ⟨v, hv, rfl⟩ | ⟨copy, hcopy, hfield, rfl⟩
  · rcases hy with ⟨w, hw, rfl⟩ | ⟨copy, hcopy, hfield, rfl⟩
    · rw [h.once hv hw]
    · exact absurd hfield (hother hv hcopy)
  · rcases hy with ⟨v, hv, rfl⟩ | ⟨copy', hcopy', hfield', rfl⟩
    · exact absurd hfield (hother hv hcopy)
    · rw [inj_on_of_nodup_map hcopies.nodup hcopy hcopy' (hfield.symm.trans hfield')]

theorem dotless_of_writes (hname : u.Writes t copies name x) : '.' ∉ name.toList := by
  rcases hname with ⟨v, hsets, -⟩ | ⟨copy, hcopy, rfl, -⟩
  · exact h.dotless hsets
  · obtain ⟨link, hlink, hfield⟩ := hcopies.held copy hcopy
    exact hfield ▸ h.dotlessCopies link hlink

theorem separate : u.Separate t copies := by
  refine ⟨fun hset hunset => ?_, fun {a b x y} _ hb => ?_⟩
  · cases h.once_of_heldBy hcopies hset hunset
  · rw [hasPrefix, ← Bool.not_eq_true, isPrefixOf_iff_prefix, String.toList_append]
    intro hleads
    have hdot : '.' ∈ a.toList ++ ".".toList := mem_append_right _ (mem_singleton_self _)
    exact h.dotless_of_writes hcopies hb (hleads.subset hdot)

end WritesPlainly

end Update

/-! ### Planned updates -/

/-- Whether a mutation is none that the store refuses for a conflict between its changes. -/
def Mutation.ConflictFree : Mutation → Prop
  | .update request => Changes.ConflictFree request.update
  | _ => True

theorem Value.Stored.isNull_eq {v : Value} {b : Bson} (h : v.Stored b) : b.isNull = v.isNull := by
  cases hv : v.isNull with
  | true =>
    cases v <;> try cases hv
    rw [h.null]
    rfl
  | false =>
    have hpresent := h.present hv
    cases b with
    | null => cases hpresent
    | _ => rfl

namespace NestedWrite

variable {w : NestedWrite} {fetch : String → Except StoreError (List UInt8)} {copies : List ResolvedCopy}

theorem map_row_of_selection {d : Document} (h : w.selection fetch d = .ok rows) :
    rows.map (·.row) = (Row.ofTop w.collection d).walk w.hops := by
  have hrows := (mapM_ok_iff.mp h).imp fun r s hs => show r = s.row by
    obtain ⟨_, -, hs⟩ := exists_of_bind_ok hs
    cases hs
    rfl
  rw [← forall₂_eq_eq_eq, forall₂_map_left_iff]
  exact hrows.flip.imp fun _ _ => Eq.symm

theorem exists_of_mem_updates {completed : Completed} (h : w.complete fetch copies documents = .ok completed)
    (hrequest : request ∈ completed.updates) :
    ∃ d rows, w.selection fetch d = .ok rows ∧ request.update = w.changes copies rows ∧
      w.changes copies rows ≠ [] := by
  obtain ⟨parts, hparts, h⟩ := exists_of_bind_ok h
  cases h
  obtain ⟨part, hpart, hrequest⟩ := mem_flatMap.mp hrequest
  obtain ⟨d, -, hd⟩ := exists_of_mem_mapM hparts hpart
  rw [completeDocument] at hd
  split at hd
  · cases hd
    cases hrequest
  · obtain ⟨rows, hrows, hd⟩ := exists_of_bind_ok hd
    cases hd
    dsimp only at hrequest
    split at hrequest
    · cases hrequest
    · rename_i hne
      cases mem_singleton.mp hrequest
      exact ⟨d, rows, hrows, rfl, fun hnil => hne (by rw [hnil]; rfl)⟩

end NestedWrite

namespace WriteContext

variable {σ : Type} {c : WriteContext σ} {u : Update} {t : Table} {l : Layout} {assigned : ColumnValues}
  {fields : List (String × Bson)} {s s' : σ}

theorem storedAs_of_mapM (hassigned : u.assignments.mapM (assignment t l) = .ok assigned)
    (hfields : assigned.mapM c.storeColumn s = (.ok fields, s')) :
    u.StoredAs t fields ∧ ∀ f ∈ fields, t.isPrimaryKeyColumn f.1 = false := by
  have hassigned := (mapM_ok_iff.mp hassigned).imp fun _ _ => assignment_ok
  have hfields := (forall₂_of_mapM hfields).imp fun (v : String × Value) (f : String × Bson) ⟨_, _, hf⟩ =>
    show f.1 = v.1 ∧ f.2.isNull = v.2.isNull by
      obtain ⟨b, hb, rfl⟩ := bind_pure_ok hf
      exact ⟨rfl, Value.Stored.isNull_eq ⟨σ, c.objects, _, _, failingAs_ok hb⟩⟩
  refine ⟨fun column isNull => ⟨?_, ?_⟩, fun f hf => ?_⟩
  · rintro ⟨f, hf, rfl, rfl⟩
    obtain ⟨v, hv, hname, hnull⟩ := exists_left_of_forall₂ hfields hf
    obtain ⟨a, ha, hspelled, hvalue, -⟩ := exists_left_of_forall₂ hassigned (of_mem_zip hv).1
    exact ⟨v.2, ⟨a, (of_mem_zip ha).1, hname ▸ hspelled, hvalue⟩, hnull.symm⟩
  · rintro ⟨v, ⟨a, ha, hspelled, hvalue⟩, rfl⟩
    obtain ⟨w, hw, hspelled', hvalue', -⟩ := exists_right_of_forall₂ hassigned ha
    obtain ⟨f, hf, hname, hnull⟩ := exists_right_of_forall₂ hfields (of_mem_zip hw).2
    cases hspelled.symm.trans hspelled'
    cases hvalue.symm.trans hvalue'
    exact ⟨f, (of_mem_zip hf).2, hname, hnull⟩
  · obtain ⟨v, hv, hname, -⟩ := exists_left_of_forall₂ hfields hf
    obtain ⟨a, -, -, -, hkey⟩ := exists_left_of_forall₂ hassigned (of_mem_zip hv).1
    rwa [hname]

theorem not_completes_of_clearedCopy {e : Link} {copy : CopyFetch} (h : clearedCopy assigned e = .ok (some copy)) :
    ¬ assigned.Completes e.columns := by
  intro hall
  rw [clearedCopy] at h
  split at h
  · cases h
  · split at h
    · cases h
    · split at h
      · rename_i hany
        obtain ⟨v, hv, hnull⟩ := any_eq_true.mp hany
        obtain ⟨column, hcolumn, hfind⟩ := mem_filterMap.mp hv
        have hsome := hall column hcolumn
        rw [ColumnValues.value?, hfind] at hsome
        simp [hnull] at hsome
      · cases h

variable {copies : List ResolvedCopy} {patch : CopyPatch}

theorem heldBy_of_refreshedCopies {name : String} (hl : c.catalog.layout name = .ok l) {fetches : List CopyFetch}
    (h : c.refreshedCopies l assigned s = (.ok fetches, s')) (hresolve : CopyFetch.ResolveTo fetches copies) :
    Update.HeldBy copies l := by
  have hapart := Catalog.embedded_apart hl
  obtain ⟨cleared, s₁, hcleared, h⟩ := bind_ok h
  obtain ⟨fetched, hfetched, rfl⟩ := bind_pure_ok h
  have hcleared := mapM_ok_iff.mp (ofExcept_ok hcleared).1
  obtain ⟨hnodup, -, hnames⟩ := fields_copyFetches hapart hfetched
  have hclearedNames : ∀ name ∈ (cleared.filterMap id).map (·.field),
      ∃ link ∈ l.embeddedKeys, ¬ assigned.Completes link.columns ∧ link.child = name := by
    intro name hname
    obtain ⟨copy, hcopy, rfl⟩ := mem_map.mp hname
    obtain ⟨_, hmem, rfl⟩ := mem_filterMap.mp hcopy
    obtain ⟨link, hlink, hclears⟩ := exists_left_of_forall₂ hcleared hmem
    exact ⟨link, (of_mem_zip hlink).1, not_completes_of_clearedCopy hclears, (field_of_clearedCopy hclears).symm⟩
  constructor
  · rw [hresolve.fields, map_append]
    have hsub := sublist_fields (hcleared.imp fun link found hclears fetch hfetch => by
      rw [Option.mem_def.mp hfetch] at hclears
      exact field_of_clearedCopy hclears)
    refine List.Nodup.append ((pairwise_map.mpr hapart).sublist hsub) hnodup fun name hname hname' => ?_
    obtain ⟨link, hlink, hincomplete, hchild⟩ := hclearedNames name hname
    obtain ⟨link', hlink', hcomplete, hchild'⟩ := (hnames name).mp hname'
    cases inj_on_of_nodup_map (pairwise_map.mpr hapart) hlink hlink' (hchild.trans hchild'.symm)
    exact hincomplete hcomplete
  · intro copy hcopy
    have hfield : copy.field ∈ (cleared.filterMap id ++ fetched).map (·.field) :=
      hresolve.fields ▸ mem_map_of_mem hcopy
    rw [map_append, mem_append] at hfield
    rcases hfield with hfield | hfield
    · obtain ⟨link, hlink, -, hchild⟩ := hclearedNames _ hfield
      exact ⟨link, hlink, hchild.symm⟩
    · obtain ⟨link, hlink, -, hchild⟩ := (hnames _).mp hfield
      exact ⟨link, hlink, hchild.symm⟩

theorem change_of_propagation {filter : Document} {change : CopyChange} {propagated : Option Propagation}
    (h : c.propagation l filter change s = (.ok propagated, s'))
    (hpatch : patch ∈ (propagated.map (·.patches)).getD []) : patch.change = change := by
  rw [propagation] at h
  split at h
  · obtain ⟨patches, hpatches, rfl⟩ := bind_pure_ok h
    obtain ⟨target, -, hpatch⟩ := exists_of_mem_mapM (ofExcept_ok hpatches).1 hpatch
    obtain ⟨holder, -, hpatch⟩ := exists_of_bind_ok hpatch
    obtain ⟨locations, -, hpatch⟩ := exists_of_bind_ok hpatch
    cases hpatch
    rfl
  · obtain ⟨rfl, -⟩ := pure_ok h
    cases hpatch

theorem conflictFree_withCopies (hstored : u.StoredAs t fields) {p : DirectPlan}
    (hmutation : p.mutation = .update request) (hupdate : request.update = ofAssignments fields)
    (copies : List ResolvedCopy) : (p.withCopies copies).ConflictFree ↔ u.Separate t copies := by
  have htouches : (Changes.writeCopies request.update "" copies).Touches (NestedWrite.written fields copies) := by
    rw [hupdate]
    exact Changes.touches_writeCopies (Changes.touches_ofAssignments fields) "" copies
  rw [DirectPlan.withCopies, hmutation, ← hstored.compatible_iff, ← conflictFree_iff htouches]
  rfl

theorem conflictFree_patch (hstored : u.StoredAs t fields) (hchange : patch.change = .set fields) (key : List Bson) :
    (patch.mutation key).ConflictFree ↔ u.Separate t [] := by
  have htouches : patch.changes.Touches
      ((NestedWrite.written fields []).map fun p => (patch.copyPath ++ "." ++ p.1, p.2)) := by
    rw [CopyPatch.changes, hchange]
    have htouches := Changes.touches_ofAssignments (fields.map fun f => (patch.copyPath ++ "." ++ f.1, f.2))
    simpa only [written, map_map, Function.comp_def, map_nil, append_nil] using htouches
  rw [← hstored.compatible_iff, ← compatible_below patch.copyPath, ← conflictFree_iff htouches]
  rfl

theorem conflictFree_completed (hstored : u.StoredAs t fields) {w : NestedWrite} (haction : w.action = .update fields)
    {hops : List Hop} {hop : Hop} (hhops : w.hops = hops ++ [hop]) (hfield : hop.field ≠ "")
    {fetch : String → Except StoreError (List UInt8)} {completed : NestedWrite.Completed}
    (h : w.complete fetch copies documents = .ok completed) (hrequest : request ∈ completed.updates) :
    Changes.ConflictFree request.update ↔ u.Separate t copies := by
  obtain ⟨d, rows, hrows, hupdate, hne⟩ := exists_of_mem_updates h hrequest
  have hchanges : w.changes copies rows = updateChanges fields copies rows := by
    rw [changes, haction]
  have hmap := map_row_of_selection hrows
  rw [hchanges] at hupdate hne
  have hchosen : ∃ s, s ∈ rows.filter (·.chosen) :=
    exists_mem_of_ne_nil _ fun hnil => hne (by rw [updateChanges, hnil]; rfl)
  rw [hupdate, conflictFree_updateChanges (hmap ▸ Row.liesApart_walk ..) ?_ hchosen,
    hstored.compatible_iff]
  intro s hs
  have hrow : s.row ∈ (Row.ofTop w.collection d).walk w.hops := hmap ▸ mem_map_of_mem hs
  exact Row.positionalPath_ne_empty hfield (hhops ▸ hrow)

/-- The updates of documents, of their copies and of rows inside documents under a name are `ConflictFree` just when
what the UPDATE writes to one row is `Separate`, whatever its copies resolve to and whatever documents are read. It
is when the UPDATE `WritesPlainly`. -/
theorem updates_conflict_free_iff {plan : WritePlan} (h : c.planUpdate u s = (.ok plan, s')) :
    ∃ t l, c.catalog.table u.table = .ok t ∧ c.catalog.layout t.name = .ok l ∧
      (∀ copies, CopyFetch.ResolveTo plan.copies copies →
        (∀ p, plan = .direct p → ((p.withCopies copies).ConflictFree ↔ u.Separate t copies)) ∧
        (∀ w, plan = .nested w → l.table ≠ "" → ∀ fetch documents completed,
          w.complete fetch copies documents = .ok completed → ∀ request ∈ completed.updates,
            (Changes.ConflictFree request.update ↔ u.Separate t copies)) ∧
        (u.WritesPlainly t l → u.Separate t copies)) ∧
      (∀ patch ∈ plan.patches, ∀ key, (patch.mutation key).ConflictFree ↔ u.Separate t []) ∧
      (u.WritesPlainly t l → u.Separate t []) := by
  obtain ⟨t, l, assigned, fetches, fields, _, _, s₃, ht, hl, hassigned, hfetches, hfields, hplan⟩ := planUpdate_ok h
  obtain ⟨hstored, hkeys⟩ := storedAs_of_mapM hassigned hfields
  have hnone : Update.HeldBy [] l := ⟨.nil, by simp⟩
  refine ⟨t, l, ht, hl, ?_⟩
  obtain ⟨filter, s₄, propagation, -, hpropagation, rfl⟩ | ⟨hmerged, hnested⟩ := hplan
  · have hcopied : fields.filter (fun f => !t.isPrimaryKeyColumn f.1) = fields :=
      filter_eq_self.mpr fun f hf => by rw [hkeys f hf]; rfl
    rw [hcopied] at hpropagation
    refine ⟨fun copies hresolve => ⟨?_, ?_, ?_⟩, ?_, fun hplain => hplain.separate hnone⟩
    · rintro p hp
      cases hp
      exact conflictFree_withCopies hstored rfl rfl copies
    · intro w hw
      cases hw
    · exact fun hplain => hplain.separate (heldBy_of_refreshedCopies hl hfetches hresolve)
    · exact fun patch hpatch => conflictFree_patch hstored (change_of_propagation hpropagation hpatch)
  · obtain ⟨table, columns, -, -, rfl⟩ := nested_ok hnested
    refine ⟨fun copies hresolve => ⟨?_, ?_, ?_⟩, ?_, fun hplain => hplain.separate hnone⟩
    · intro p hp
      cases hp
    · intro w hw hname fetch documents completed hcompleted request hrequest
      cases hw
      obtain ⟨key, hkey⟩ := Option.isSome_iff_exists.mp hmerged
      have hout := Catalog.layout_eq_ok_iff.mp hl
      obtain ⟨hops, hhops⟩ := hout.hops_of_mergeKey? hkey
      obtain ⟨t', ht'⟩ := hout.exists_table
      have hchild : key.child = l.table := (hout.child_of_mergeKey? ht' hkey).trans (hout.outlines ht').table.symm
      refine conflictFree_completed hstored rfl hhops ?_ hcompleted hrequest
      exact hchild.trans_ne hname
    · exact fun hplain => hplain.separate (heldBy_of_refreshedCopies hl hfetches hresolve)
    · intro patch hpatch
      cases hpatch

/-- Values that are assigned to the buyer of all sales, one after the other. -/
def changedBuyer (values : List Value) : Update where
  table := "sales"
  assignments := values.map fun v => ⟨"buyer", .literal v⟩

/-- A new buyer can be written, whatever is found of the customer; one that is removed as well cannot. -/
theorem updates_conflict_free_buyers :
    (∃ p, (sales "buyer").planUpdate (changedBuyer [.integer 6]) () = (.ok (.direct p), ()) ∧
        ∀ copies, CopyFetch.ResolveTo p.copies copies → (p.withCopies copies).ConflictFree) ∧
      ∃ p, (sales "buyer").planUpdate (changedBuyer [.integer 6, .null]) () = (.ok (.direct p), ()) ∧
        ∀ copies, CopyFetch.ResolveTo p.copies copies → ¬ (p.withCopies copies).ConflictFree := by
  let plan (update : Changes) : DirectPlan :=
    { table := "sales", mutation := .update { collection := "sales", filter := [], update := update }
      copies := [⟨"customer", some ("customer", [("_id", .int32 6)])⟩], propagation := none }
  have hset : (sales "buyer").planUpdate (changedBuyer [.integer 6]) () =
      (.ok (.direct (plan [("$set", .document [("buyer", .int32 6)])])), ()) := rfl
  have hboth : (sales "buyer").planUpdate (changedBuyer [.integer 6, .null]) () =
      (.ok (.direct (plan [("$set", .document [("buyer", .int32 6)]),
        ("$unset", .document [("buyer", .string "")])])), ()) := rfl
  have ht : (sales "buyer").catalog.table "sales" = .ok (salesTable "buyer") := rfl
  have hl : (sales "buyer").catalog.layout "sales" = .ok (salesLayout "buyer") := rfl
  constructor
  · refine ⟨_, hset, fun copies hcopies => ?_⟩
    obtain ⟨_, _, ht', hl', hiff, -⟩ := updates_conflict_free_iff hset
    cases ht.symm.trans ht'
    cases hl.symm.trans hl'
    obtain ⟨hdirect, -, hplain⟩ := hiff copies hcopies
    refine (hdirect _ rfl).mpr (hplain ?_)
    have hassigned {column : String} {v : Value}
        (h : (changedBuyer [.integer 6]).SetsTo (salesTable "buyer") column v) : column = "buyer" ∧ v = .integer 6 := by
      obtain ⟨a, ha, hspelled, hvalue⟩ := h
      cases mem_singleton.mp ha
      cases hspelled
      cases hvalue
      exact ⟨rfl, rfl⟩
    refine ⟨fun hv hw => ?_, fun hv => ?_, fun hv => ?_, ?_⟩
    · rw [(hassigned hv).2, (hassigned hw).2]
    · rw [(hassigned hv).1]
      exact forall_mem_singleton.mpr (by decide)
    · rw [(hassigned hv).1]
      decide +kernel
    · exact forall_mem_singleton.mpr (by decide +kernel)
  · refine ⟨_, hboth, fun copies hcopies hfree => ?_⟩
    obtain ⟨_, _, ht', hl', hiff, -⟩ := updates_conflict_free_iff hboth
    cases ht.symm.trans ht'
    have hseparate := ((hiff copies hcopies).1 _ rfl).mp hfree
    have hspelled : (salesTable "buyer").spelled "buyer" = .ok "buyer" := rfl
    have hwrites {v : Value} (hv : v ∈ [.integer 6, .null]) :
        (changedBuyer [.integer 6, .null]).Writes (salesTable "buyer") copies "buyer" (!v.isNull) :=
      .inl ⟨v, ⟨_, mem_map_of_mem hv, hspelled, rfl⟩, rfl⟩
    exact hseparate.once (hwrites mem_cons_self) (hwrites (mem_cons_of_mem _ mem_cons_self))

end WriteContext

end Pushdown
