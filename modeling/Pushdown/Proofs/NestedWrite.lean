import Pushdown.Proofs.Outcome
import Pushdown.Proofs.Rows
import Pushdown.Write.Change
import Pushdown.Write.Completion

/-!
# Completed nested writes

`complete_rewrites`: the updates that complete a nested write leave every document as if its chosen rows had been
`rewritten`, or taken out, in place. An UPDATE edits the chosen rows themselves (`rowEdits`); a DELETE edits the
rows that hold them, of which each loses the chosen rows of one field (`holderEdits`).
-/

namespace Pushdown

open List Changes Edit Row

namespace NestedWrite

variable {fields : List (String × Bson)} {copies : List ResolvedCopy}

/-- The fields of a row after an UPDATE: assigned fields are replaced, or removed when the new value
is null, then copies are written or removed. -/
def updatedRow (fields : List (String × Bson)) (copies : List ResolvedCopy) (d : Document) : Document :=
  copies.foldl
    (fun d copy =>
      match copy.document with
      | some c => Document.insert d copy.field (.document c)
      | none => Document.erase d copy.field)
    (fields.foldl (fun d f => if f.2.isNull then Document.erase d f.1 else Document.insert d f.1 f.2) d)

def assignEdit (f : String × Bson) : Edit := ⟨[f.1], if f.2.isNull then none else some f.2⟩

def copyEdit (copy : ResolvedCopy) : Edit := ⟨[copy.field], copy.document.map Bson.document⟩

def rowEdits (fields : List (String × Bson)) (copies : List ResolvedCopy) : List Edit :=
  fields.map assignEdit ++ copies.map copyEdit

def writtenFields (fields : List (String × Bson)) (copies : List ResolvedCopy) : List String :=
  fields.map Prod.fst ++ copies.map (·.field)

theorem names_rowEdits (fields : List (String × Bson)) (copies : List ResolvedCopy) :
    (rowEdits fields copies).map Edit.names = (writtenFields fields copies).map ([·]) := by
  simp [rowEdits, writtenFields, assignEdit, copyEdit, Function.comp_def]

variable {e : Edit} {α : Type} {names : List String}

theorem exists_of_mem_rowEdits (h : e ∈ rowEdits fields copies) :
    ∃ name ∈ writtenFields fields copies, e.names = [name] := by
  have he : e.names ∈ (rowEdits fields copies).map Edit.names := mem_map_of_mem h
  rw [names_rowEdits] at he
  obtain ⟨name, hname, hn⟩ := mem_map.mp he
  exact ⟨name, hname, hn.symm⟩

theorem apart_rowEdits (h : (writtenFields fields copies).Nodup) : Edit.Apart (rowEdits fields copies) := by
  have hnames : ((rowEdits fields copies).map Edit.names).Pairwise
      fun p q => Path.diverge p q = true := by
    rw [names_rowEdits, pairwise_map]
    exact h.imp fun hne => Path.diverge_cons.mpr (.inl hne)
  exact pairwise_map.mp hnames

theorem act?_assignEdit (f : String × Bson) (d : Document) :
    (assignEdit f).act? (.document d) =
      some (.document (if f.2.isNull then Document.erase d f.1 else Document.insert d f.1 f.2)) := by
  rw [assignEdit]
  cases f.2.isNull <;> rfl

theorem act?_copyEdit (copy : ResolvedCopy) (d : Document) :
    (copyEdit copy).act? (.document d) = some (.document
      (match copy.document with
      | some c => Document.insert d copy.field (.document c)
      | none => Document.erase d copy.field)) := by
  rw [copyEdit, Edit.act?]
  cases copy.document <;> rfl

theorem run?_map {edit : α → Edit} {f : Document → α → Document}
    (h : ∀ a d, (edit a).act? (.document d) = some (.document (f d a))) (as : List α) (d : Document) :
    run? (as.map edit) (.document d) = some (.document (as.foldl f d)) := by
  induction as generalizing d with
  | nil => rfl
  | cons a as ih => rw [map_cons, run?_cons, h, Option.bind_some, ih, foldl_cons]

theorem addEdit_assignEdit (hne : names ≠ []) (changes : Changes) (f : String × Bson) :
    changes.addEdit (Edit.under names (assignEdit f)) = changes.assignOrClear (Path.join names ++ "." ++ f.1) f.2 := by
  rw [← Path.join_append_singleton hne, assignOrClear, assignEdit]
  cases f.2.isNull <;> rfl

theorem addEdit_copyEdit (h : ∀ t ∈ names, Path.IsName t) (changes : Changes) (copy : ResolvedCopy) :
    changes.addEdit (under names (copyEdit copy)) =
      match copy.document with
      | some d => changes.assign (Path.extend (Path.join names) copy.field) (.document d)
      | none => changes.clear (Path.extend (Path.join names) copy.field) := by
  rw [Path.extend_join fun s hs => (h s hs).1, copyEdit, under, addEdit]
  cases copy.document <;> rfl

theorem updateChanges_eq (fields : List (String × Bson)) (copies : List ResolvedCopy) {rows : List Row}
    (h : ∀ c ∈ rows, c.names ≠ [] ∧ ∀ t ∈ c.names, Path.IsName t) (chosen : Row → Bool) :
    updateChanges fields copies (rows.map fun c => ⟨c, chosen c⟩) =
      ofEdits (rows.flatMap fun c =>
        (if chosen c then rowEdits fields copies else []).map (under c.names)) := by
  rw [updateChanges, ofEdits, foldl_filter, foldl_map, foldl_flatMap]
  refine foldl_rel rfl fun c hc changes _ heq => ?_
  subst heq
  obtain ⟨hne, hn⟩ := h c hc
  cases chosen c with
  | false => rfl
  | true =>
    simp only [if_true, rowEdits, map_append, map_map, foldl_append, foldl_map,
      Function.comp_apply, addEdit_assignEdit hne, addEdit_copyEdit hn, positionalPath_eq hn]
    rfl

section

variable (hnames : ∀ name ∈ writtenFields fields copies, Path.IsName name)
  (hnodup : (writtenFields fields copies).Nodup)

include hnames hnodup

theorem turn_rowEdits (d : Document) : Edit.Turn (rowEdits fields copies) d (updatedRow fields copies d) := by
  have hrun : run? (rowEdits fields copies) (.document d) = some (.document (updatedRow fields copies d)) := by
    rw [rowEdits, run?_append, run?_map act?_assignEdit, Option.bind_some, run?_map act?_copyEdit]
    rfl
  refine ⟨apart_rowEdits hnodup, fun e he => ?_, hrun⟩
  obtain ⟨name, hname, henames⟩ := exists_of_mem_rowEdits he
  refine ⟨by simp [henames], fun t ht => ?_⟩
  rw [henames, mem_singleton] at ht
  rw [ht]
  exact hnames name hname

theorem act?_updateChanges {hops : List Hop} (hne : hops ≠ []) (hh : ∀ hop ∈ hops, Path.IsName hop.field)
    (chosen : Row → Bool) (table : String) (d : Document) :
    ∃ d', edited (fun c => some (if chosen c then updatedRow fields copies c.row else c.row)) hops
        (ofTop table d) = some d' ∧
      act? (updateChanges fields copies
        (((ofTop table d).walk hops).map fun c => ⟨c, chosen c⟩)) d = some d' := by
  have hplace : ∀ c ∈ (ofTop table d).walk hops, c.names ≠ [] ∧ ∀ t ∈ c.names, Path.IsName t := by
    intro c hc
    obtain ⟨rest, hrest, -, hrestne⟩ := names_of_mem_walk hh hc
    exact ⟨hrest ▸ hrestne hne, isName_of_mem_walk hh hc⟩
  have hturn : ∀ c : Row, Edit.Turn (if chosen c then rowEdits fields copies else []) c.row
      (if chosen c then updatedRow fields copies c.row else c.row) := by
    intro c
    cases chosen c with
    | false => exact ⟨List.Pairwise.nil, by simp, rfl⟩
    | true => exact turn_rowEdits hnames hnodup c.row
  obtain ⟨d', hedited, h⟩ := turn_walk hh fun c _ => hturn c
  rw [updateChanges_eq fields copies hplace chosen]
  exact ⟨d', hedited, h.act?_ofEdits⟩

end

section Delete

variable (chosen : Row → Bool) (hop : Hop)

/-- The chosen row among those that a row holds, if it is the only one of its kind. -/
def clears (p : Row) : List Edit :=
  ((Row.stepsBelow hop p).filter fun s => chosen (p.below s) && s.index.isNone).map fun s => ⟨s.names, none⟩

def held (p : Row) : List RowStep := (Row.stepsBelow hop p).filter (·.index.isSome)

def kept (p : Row) : List Bson :=
  ((held hop p).filter fun s => !chosen (p.below s)).map fun s => .document s.row

def shrinks (p : Row) : List Edit :=
  if (held hop p).any fun s => chosen (p.below s) then
    [⟨[hop.field], some (.array (kept chosen hop p))⟩]
  else []

def holderEdits (p : Row) : List Edit := clears chosen hop p ++ shrinks chosen hop p

variable {chosen hop} {p : Row} {items : List Bson} {key : α → String}

theorem value_of_mem_clears (h : e ∈ clears chosen hop p) : e.value = none := by
  obtain ⟨s, -, rfl⟩ := mem_map.mp h
  rfl

theorem value_of_mem_shrinks (h : e ∈ shrinks chosen hop p) : e.value.isSome := by
  rw [shrinks] at h
  split at h
  · rw [mem_singleton.mp h]; rfl
  · cases h

theorem unsets_holderEdits (p : Row) : unsets (holderEdits chosen hop p) = clears chosen hop p := by
  have hclears : unsets (clears chosen hop p) = clears chosen hop p :=
    filter_eq_self.mpr fun e he => by rw [value_of_mem_clears he]; rfl
  have hshrinks : unsets (shrinks chosen hop p) = [] :=
    filter_eq_nil_iff.mpr fun e he => by
      rw [Option.isNone_iff_eq_none]; exact Option.isSome_iff_ne_none.mp (value_of_mem_shrinks he)
  rw [holderEdits, unsets_append, hclears, hshrinks, append_nil]

theorem sets_holderEdits (p : Row) : sets (holderEdits chosen hop p) = shrinks chosen hop p := by
  have hclears : sets (clears chosen hop p) = [] :=
    filter_eq_nil_iff.mpr fun e he => by rw [value_of_mem_clears he]; simp
  have hshrinks : sets (shrinks chosen hop p) = shrinks chosen hop p :=
    filter_eq_self.mpr fun e he => value_of_mem_shrinks he
  rw [holderEdits, sets_append, hclears, hshrinks, nil_append]

theorem map_arrayRows (h : holdsRows (some (.array items))) (start : Nat) :
    (arrayRows hop start items).map (fun s => Bson.document s.row) = items := by
  induction items generalizing start with
  | nil => rfl
  | cons b items ih =>
    obtain ⟨hb, hitems⟩ := Bool.and_eq_true_iff.mp h
    cases b with
    | document d => rw [arrayRows, map_cons, ih hitems]
    | _ => cases hb

theorem editItems_eq (h : holdsRows (some (.array items))) (p : Row) (start : Nat) :
    editItems (fun i d => if chosen (p.below ⟨hop.link.child, hop.field, some i, d⟩) then none
        else some d) start items =
      ((arrayRows hop start items).filter fun s => !chosen (p.below s)).map fun s => .document s.row := by
  induction items generalizing start with
  | nil => rfl
  | cons b items ih =>
    obtain ⟨hb, hitems⟩ := Bool.and_eq_true_iff.mp h
    cases b with
    | document d =>
      rw [editItems, arrayRows, filter_cons, ih hitems]
      cases chosen (p.below ⟨hop.link.child, hop.field, some start, d⟩) <;> rfl
    | _ => cases hb

/-- A row with the chosen ones among the rows that one of its fields holds taken out. -/
def heldEdited (chosen : Row → Bool) (hop : Hop) (p : Row) : Document :=
  Row.editField (fun i d => if chosen (p.below ⟨hop.link.child, hop.field, i, d⟩) then none else some d)
    hop.field p.row

theorem turn_holderEdits (hf : Path.IsName hop.field) (h : holdsRows (Document.get? p.row hop.field)) :
    Edit.Turn (holderEdits chosen hop p) p.row (heldEdited chosen hop p) := by
  have hname : ∀ value, Edit.Named ⟨[hop.field], value⟩ := fun value =>
    ⟨cons_ne_nil _ _, fun t ht => mem_singleton.mp ht ▸ hf⟩
  have hone : ∀ {value d}, Edit.act? ⟨[hop.field], value⟩ (.document p.row) = some (.document d) →
      Edit.Turn [⟨[hop.field], value⟩] p.row d := by
    intro value d happly
    refine ⟨pairwise_singleton _ _, fun e he => mem_singleton.mp he ▸ hname value, ?_⟩
    rw [run?_cons, happly]
    rfl
  have hnone : Edit.Turn [] p.row p.row := ⟨List.Pairwise.nil, by simp, rfl⟩
  rw [holderEdits, clears, shrinks, kept, held, heldEdited, editField, stepsBelow]
  cases hget : Document.get? p.row hop.field with
  | none => exact hnone
  | some b =>
    rw [hget] at h
    cases b with
    | array items =>
      have hindex : ∀ s ∈ arrayRows hop 0 items, s.index.isSome := by
        intro s hs
        obtain ⟨-, i, hi, -⟩ := step_of_mem_arrayRows hs
        rw [hi]; rfl
      have hclears : ((arrayRows hop 0 items).filter fun s =>
          chosen (p.below s) && s.index.isNone) = [] := by
        refine filter_eq_nil_iff.mpr fun s hs => ?_
        simp [Option.isSome_iff_ne_none.mp (hindex s hs)]
      simp only [hclears, filter_eq_self.mpr hindex, editItems_eq h, map_nil, nil_append]
      split
      · exact hone rfl
      · -- no row is chosen, so that all items are kept
        rename_i hany
        rw [filter_eq_self.mpr (by simpa using hany), map_arrayRows h, Document.insert_of_get? hget]
        exact hnone
    | document d =>
      simp only
      cases hc : chosen (p.below ⟨hop.link.child, hop.field, none, d⟩) with
      | false =>
        simp only [hc, Bool.false_and, filter_cons, filter_nil, Bool.false_eq_true, if_false,
          Document.insert_of_get? hget]
        exact hnone
      | true =>
        simp only [hc, filter_cons, filter_nil]
        exact hone rfl
    | _ => exact hnone

def containerOf (hop : Hop) (p : Row) : String := Path.join (p.names ++ [hop.field])

theorem containerOf_injective {q : Row} (hf : Path.IsName hop.field) (hp : ∀ t ∈ p.names, Path.IsName t)
    (hq : ∀ t ∈ q.names, Path.IsName t) (h : containerOf hop p = containerOf hop q) : p.names = q.names := by
  have hfield {names : List String} (hn : ∀ t ∈ names, Path.IsName t) : ∀ t ∈ names ++ [hop.field], Path.IsName t :=
    forall_mem_append.mpr ⟨hn, forall_mem_singleton.mpr hf⟩
  exact append_cancel_right (Path.join_injective (by simp) (by simp) (hfield hp) (hfield hq) h)

/-- Values that come in runs, one run for each of the different keys, are reduced to the keys whose
runs are not empty. -/
theorem eraseDups_runs {β : Type} {run : α → List β} {l : List α} (h : l.Pairwise fun a b => key a ≠ key b) :
    (l.flatMap fun a => (run a).map fun _ => key a).eraseDups = (l.filter fun a => !(run a).isEmpty).map key := by
  induction l with
  | nil => rfl
  | cons a l ih =>
    obtain ⟨ha, hl⟩ := pairwise_cons.mp h
    have hrest : ∀ k ∈ l.flatMap (fun b => (run b).map fun _ => key b), k ≠ key a := by
      intro k hk
      obtain ⟨b, hb, hk⟩ := mem_flatMap.mp hk
      obtain ⟨-, -, rfl⟩ := mem_map.mp hk
      exact (ha b hb).symm
    rw [flatMap_cons, filter_cons]
    cases hrun : run a with
    | nil => simpa using ih hl
    | cons x xs =>
      have hxs : (xs.map fun _ => key a).filter (fun k => !k == key a) = [] := by simp
      have hkeep : (l.flatMap fun b => (run b).map fun _ => key b).filter (fun k => !k == key a) =
          l.flatMap fun b => (run b).map fun _ => key b :=
        filter_eq_self.mpr fun k hk => by simpa using hrest k hk
      rw [map_cons, cons_append, eraseDups_cons, filter_append, hxs, nil_append, hkeep, ih hl]
      rfl

theorem flatMap_of_key {β : Type} {run : α → List β} {l : List α} (h : l.Pairwise fun a b => key a ≠ key b) {a : α}
    (ha : a ∈ l) : (l.flatMap fun b => if key b == key a then run b else []) = run a := by
  have hnone : ∀ l' : List α, (∀ b ∈ l', key b ≠ key a) →
      (l'.flatMap fun b => if key b == key a then run b else []) = [] := by
    intro l' hl'
    refine flatMap_eq_nil_iff.mpr fun b hb => ?_
    rw [if_neg (by simpa using hl' b hb)]
  induction l with
  | nil => cases ha
  | cons c l ih =>
    obtain ⟨hc, hl⟩ := pairwise_cons.mp h
    rw [flatMap_cons]
    rcases mem_cons.mp ha with rfl | ha
    · rw [hnone l fun b hb => (hc b hb).symm, if_pos (by simp), append_nil]
    · rw [if_neg (by simpa using hc a ha), nil_append, ih hl ha]

def heldRows (chosen : Row → Bool) (hop : Hop) (holders : List Row) : List Selected :=
  (holders.flatMap (Row.children hop)).map fun c => ⟨c, chosen c⟩

theorem heldRows_eq (holders : List Row) :
    heldRows chosen hop holders = holders.flatMap fun p =>
      (stepsBelow hop p).map fun s => ⟨p.below s, chosen (p.below s)⟩ := by
  simp only [heldRows, map_flatMap, children_eq, map_map]
  rfl

section Holders

variable {holders : List Row} (hn : ∀ p ∈ holders, ∀ t ∈ p.names, Path.IsName t)

include hn

theorem clearSingle_eq (hf : Path.IsName hop.field) :
    clearSingle (heldRows chosen hop holders) =
      ofEdits (holders.flatMap fun p => (clears chosen hop p).map (under p.names)) := by
  rw [clearSingle, ofEdits, heldRows_eq, foldl_filter, foldl_flatMap, foldl_flatMap]
  refine foldl_rel rfl fun p hp changes _ heq => ?_
  rw [heq, clears, foldl_map, map_map, foldl_map, foldl_filter]
  refine foldl_rel rfl fun s hs changes _ heq => ?_
  have hnames : ∀ t ∈ (p.below s).names, Path.IsName t := by
    rw [names_below]
    exact forall_mem_append.mpr ⟨hn p hp, names_isName hf hs⟩
  rw [heq, index?_below, positionalPath_eq hnames, names_below]
  rfl

section

variable (h : holders.Pairwise fun p q => containerOf hop p ≠ containerOf hop q)

include h

theorem containers_eq :
    containers (heldRows chosen hop holders) =
      (holders.filter fun p => !(held hop p).isEmpty).map (containerOf hop) := by
  rw [containers, ← eraseDups_runs h, heldRows_eq, filter_flatMap, map_flatMap, flatMap_def, flatMap_def]
  congr 2
  refine map_congr_left fun p hp => ?_
  rw [filter_map, map_map, held]
  have hindex : (fun s : Selected => s.row.index?.isSome) ∘
      (fun s => ⟨p.below s, chosen (p.below s)⟩) = fun s => s.index.isSome := by
    funext s
    simp
  rw [hindex]
  refine map_congr_left fun s hs => ?_
  rw [Function.comp_apply, containerPath_below (hn p hp), field_of_mem_stepsBelow (mem_filter.mp hs).1]
  rfl

theorem filter_heldRows (hp : p ∈ holders) :
    ((heldRows chosen hop holders).filter fun s => s.row.index?.isSome && s.row.containerPath == containerOf hop p) =
      (held hop p).map fun s => ⟨p.below s, chosen (p.below s)⟩ := by
  refine Eq.trans ?_ (flatMap_of_key h hp : (holders.flatMap fun q =>
    if containerOf hop q == containerOf hop p then
      (held hop q).map fun s => (⟨q.below s, chosen (q.below s)⟩ : Selected)
    else []) = _)
  rw [heldRows_eq, filter_flatMap, flatMap_def, flatMap_def]
  congr 1
  refine map_congr_left fun q hq => ?_
  have hcontainer : ∀ s ∈ stepsBelow hop q, (q.below s).containerPath = containerOf hop q := by
    intro s hs
    rw [containerPath_below (hn q hq), field_of_mem_stepsBelow hs]
    rfl
  rw [filter_map, held]
  split
  · rename_i hkey
    congr 1
    refine filter_congr fun s hs => ?_
    simp [hcontainer s hs, hkey]
  · rename_i hkey
    rw [map_eq_nil_iff, filter_eq_nil_iff]
    intro s hs
    simpa [hcontainer s hs] using fun _ => by simpa using hkey

theorem shrinkArray_eq (hp : p ∈ holders) (changes : Changes) :
    shrinkArray (heldRows chosen hop holders) changes (containerOf hop p) =
      ((shrinks chosen hop p).map (under p.names)).foldl addEdit changes := by
  simp only [shrinkArray, filter_heldRows hn h hp, any_map, filter_map, map_map,
    Function.comp_def, row_below, shrinks, kept]
  split <;> rfl

end

theorem deleteChanges_eq (hf : Path.IsName hop.field)
    (h : holders.Pairwise fun p q => containerOf hop p ≠ containerOf hop q) :
    deleteChanges (heldRows chosen hop holders) =
      let edits := holders.flatMap fun p => (holderEdits chosen hop p).map (under p.names)
      ofEdits (unsets edits ++ sets edits) := by
  have hunsets : unsets (holders.flatMap fun p =>
      (holderEdits chosen hop p).map (under p.names)) =
        holders.flatMap fun p => (clears chosen hop p).map (under p.names) := by
    rw [unsets, filter_flatMap]
    congr 1
    funext p
    exact filter_map.trans (congrArg _ (unsets_holderEdits p))
  have hsets : sets (holders.flatMap fun p =>
      (holderEdits chosen hop p).map (under p.names)) =
        holders.flatMap fun p => (shrinks chosen hop p).map (under p.names) := by
    rw [sets, filter_flatMap]
    congr 1
    funext p
    exact filter_map.trans (congrArg _ (sets_holderEdits p))
  simp only [hunsets, hsets]
  rw [deleteChanges, clearSingle_eq hn hf, containers_eq hn h, ofEdits_append, foldl_map,
    foldl_filter, foldl_flatMap]
  refine foldl_rel rfl fun p hp changes _ heq => ?_
  rw [heq, ← shrinkArray_eq hn h hp]
  cases hempty : held hop p with
  | nil => simp [shrinkArray, filter_heldRows hn h hp, hempty]
  | cons s steps => rfl

end Holders

theorem act?_deleteChanges {hops : List Hop} (hh : ∀ k ∈ hops ++ [hop], Path.IsName k.field)
    (table : String) {d : Document} (hd : regular (hops ++ [hop]) (ofTop table d)) :
    ∃ d', edited (fun c => if chosen c then none else some c.row) (hops ++ [hop]) (ofTop table d) = some d' ∧
      act? (deleteChanges
        (((ofTop table d).walk (hops ++ [hop])).map fun c => ⟨c, chosen c⟩)) d = some d' := by
  have hf : Path.IsName hop.field := hh hop (by simp)
  have hh' : ∀ k ∈ hops, Path.IsName k.field := fun k hk => hh k (mem_append_left _ hk)
  have hn : ∀ p ∈ (ofTop table d).walk hops, ∀ t ∈ p.names, Path.IsName t :=
    fun p hp => isName_of_mem_walk hh' hp
  have hpair : ((ofTop table d).walk hops).Pairwise
      fun p q => containerOf hop p ≠ containerOf hop q := by
    refine (diverge_walk hh' _).imp_of_mem fun {p q} hp hq hdiv heq => ?_
    rw [containerOf_injective hf (hn p hp) (hn q hq) heq, Path.diverge_self] at hdiv
    cases hdiv
  obtain ⟨d', hedited, hturn⟩ := turn_walk hh' fun p hp => turn_holderEdits hf (holdsRows_of_regular hd p hp)
  refine ⟨d', ?_, ?_⟩
  · rw [edited_concat]
    simp only [row_below]
    exact hedited
  · rw [walk_concat]
    exact (congrArg (act? · d) (deleteChanges_eq hn hf hpair)).trans hturn.unsets_append_sets.act?_ofEdits

end Delete

section Complete

variable (w : NestedWrite) (fetch : String → Except StoreError (List UInt8))
  (copies : List ResolvedCopy) {d : Document}

def rowsOf (d : Document) : List Row := (Row.ofTop w.collection d).walk w.hops

def chooses (r : Row) : Bool :=
  match w.selects fetch r with
  | .ok b => b
  | .error _ => false

/-- What the write makes of a row: its new fields, or nothing when it is deleted. -/
def rewrite (r : Row) : Option Document :=
  if w.chooses fetch r then
    match w.action with
    | .update fields => some (updatedRow fields copies r.row)
    | .delete => none
  else some r.row

def rewritten (d : Document) : Option Document :=
  Row.edited (w.rewrite fetch copies) w.hops (Row.ofTop w.collection d)

/-- What the names in a nested write have to satisfy: it leads to merged rows, fields can stand in
paths, and no field is written twice. -/
structure WellNamed : Prop where
  merged : w.hops ≠ []
  hops : ∀ hop ∈ w.hops, Path.IsName hop.field
  written : ∀ fields, w.action = .update fields →
    (∀ name ∈ writtenFields fields copies, Path.IsName name) ∧ (writtenFields fields copies).Nodup

def changesOf (d : Document) : Changes :=
  w.changes copies ((w.rowsOf d).map fun r => ⟨r, w.chooses fetch r⟩)

variable {w fetch copies}

theorem act?_changesOf (hw : w.WellNamed copies) (hd : regular w.hops (ofTop w.collection d)) :
    ∃ d', w.rewritten fetch copies d = some d' ∧ act? (w.changesOf fetch copies d) d = some d' := by
  rw [changesOf, changes, rewritten, rowsOf]
  cases haction : w.action with
  | update fields =>
    obtain ⟨hnames, hnodup⟩ := hw.written fields haction
    have hrewrite : w.rewrite fetch copies = fun c =>
        some (if w.chooses fetch c then updatedRow fields copies c.row else c.row) := by
      funext c
      rw [rewrite, haction]
      split <;> rfl
    rw [hrewrite]
    exact act?_updateChanges hnames hnodup hw.merged hw.hops _ _ d
  | delete =>
    have hrewrite : w.rewrite fetch copies = fun c =>
        if w.chooses fetch c then none else some c.row := by
      funext c
      rw [rewrite, haction]
    obtain ⟨hops, hop, hlast⟩ : ∃ hops hop, w.hops = hops ++ [hop] := ⟨_, _, (dropLast_concat_getLast hw.merged).symm⟩
    have hh := hw.hops
    rw [hlast] at hh hd ⊢
    rw [hrewrite]
    exact act?_deleteChanges hh _ hd

theorem foldl_shrinkArray_of_none {rows : List Selected} (h : ∀ s ∈ rows, s.chosen = false)
    (paths : List String) (changes : Changes) : paths.foldl (shrinkArray rows) changes = changes := by
  have hstep (path : String) : shrinkArray rows changes path = changes := by
    simp +contextual [shrinkArray, h]
  induction paths with
  | nil => rfl
  | cons path paths ih => rw [foldl_cons, hstep, ih]

theorem changesOf_of_none (h : ∀ r ∈ w.rowsOf d, w.chooses fetch r = false) : w.changesOf fetch copies d = [] := by
  have hnone : ∀ s ∈ (w.rowsOf d).map fun r => (⟨r, w.chooses fetch r⟩ : Selected), s.chosen = false :=
    forall_mem_map.mpr h
  rw [changesOf, changes]
  cases w.action with
  | update fields =>
    have hfilter := filter_eq_nil_iff.mpr fun s hs => Bool.eq_false_iff.mp (hnone s hs)
    show updateChanges fields copies _ = []
    rw [updateChanges, hfilter]
    rfl
  | delete =>
    have hfilter : ((w.rowsOf d).map fun r => (⟨r, w.chooses fetch r⟩ : Selected)).filter
        (fun s => s.chosen && s.row.index?.isNone) = [] :=
      filter_eq_nil_iff.mpr fun s hs => by simp [hnone s hs]
    show deleteChanges _ = []
    rw [deleteChanges, foldl_shrinkArray_of_none hnone, clearSingle, hfilter]
    rfl

def mutationOf (w : NestedWrite) (fetch : String → Except StoreError (List UInt8))
    (copies : List ResolvedCopy) (d : Document) : Option UpdateRequest :=
  let changes := w.changesOf fetch copies d
  if changes.isEmpty then none
  else (Document.get? d "_id").map fun id =>
    { collection := w.collection, filter := [("_id", id)], update := changes, multi := false }

theorem completeDocument_eq (hid : (Document.get? d "_id").isSome)
    (h : ∀ r ∈ w.rowsOf d, ∃ b, w.selects fetch r = .ok b) :
    w.completeDocument fetch copies d =
      .ok ⟨(w.mutationOf fetch copies d).toList, (w.rowsOf d).countP (w.chooses fetch)⟩ := by
  obtain ⟨id, hid⟩ := Option.isSome_iff_exists.mp hid
  have hrows : w.selection fetch d = .ok ((w.rowsOf d).map fun r => ⟨r, w.chooses fetch r⟩) :=
    mapM_ok fun r hr => by
      obtain ⟨b, hb⟩ := h r hr
      rw [chooses, hb]
      rfl
  rw [completeDocument, hid, hrows, mutationOf, hid]
  simp only [bind, Except.bind, pure, Except.pure, countP_map]
  rw [changesOf]
  split <;> rfl

theorem selects_of_completeDocument (hid : (Document.get? d "_id").isSome) {done : Completed}
    (h : w.completeDocument fetch copies d = .ok done) : ∀ r ∈ w.rowsOf d, ∃ b, w.selects fetch r = .ok b := by
  obtain ⟨id, hid⟩ := Option.isSome_iff_exists.mp hid
  rw [completeDocument, hid] at h
  cases hrows : w.selection fetch d with
  | error e => rw [hrows] at h; cases h
  | ok rows =>
    intro r hr
    obtain ⟨s, hs⟩ := exists_mapM_ok_iff.mp ⟨_, hrows⟩ r hr
    cases hsel : w.selects fetch r with
    | error e => rw [hsel] at hs; cases hs
    | ok b => exact ⟨b, rfl⟩

def after (d : Document) : Option UpdateRequest → Option Document
  | some u => Changes.act? u.update d
  | none => some d

/-- What the mutation of a document has to do: it addresses the document, leaves one without a
chosen row alone, and rewrites the rows. -/
structure Carries (w : NestedWrite) (fetch : String → Except StoreError (List UInt8))
    (copies : List ResolvedCopy) (d : Document) (mutation : Option UpdateRequest) : Prop where
  addressed : ∀ u ∈ mutation, u.collection = w.collection ∧
    (∃ id, Document.get? d "_id" = some id ∧ u.filter = [("_id", id)]) ∧ u.arrayFilters = [] ∧ u.multi = false
  untouched : (∀ r ∈ w.rowsOf d, w.chooses fetch r = false) → mutation = none
  result : ∃ d', w.rewritten fetch copies d = some d' ∧ after d mutation = some d'

theorem carries_mutationOf (hw : w.WellNamed copies) (hid : (Document.get? d "_id").isSome)
    (hd : regular w.hops (ofTop w.collection d)) : w.Carries fetch copies d (w.mutationOf fetch copies d) := by
  obtain ⟨id, hid⟩ := Option.isSome_iff_exists.mp hid
  obtain ⟨d', hrewritten, happly⟩ := act?_changesOf hw hd
  rw [mutationOf, hid]
  refine ⟨?_, fun hnone => by rw [changesOf_of_none hnone]; rfl, d', hrewritten, ?_⟩
  · intro u hu
    split at hu
    · cases hu
    · cases hu
      exact ⟨rfl, ⟨id, hid, rfl⟩, rfl, rfl⟩
  · cases hchanges : w.changesOf fetch copies d with
    | nil | cons op ops => rw [hchanges] at happly; exact happly

theorem complete_eq {documents : List Document} (hid : ∀ d ∈ documents, (Document.get? d "_id").isSome)
    (h : ∀ d ∈ documents, ∀ r ∈ w.rowsOf d, ∃ b, w.selects fetch r = .ok b) :
    w.complete fetch copies documents = .ok ⟨documents.filterMap (w.mutationOf fetch copies),
      (documents.flatMap w.rowsOf).countP (w.chooses fetch)⟩ := by
  rw [complete, mapM_ok fun d hmem => completeDocument_eq (hid d hmem) (h d hmem)]
  simp only [bind, Except.bind, pure, Except.pure, flatMap_map, map_map, countP_flatMap]
  rw [filterMap_eq_flatMap_toList]
  rfl

/-- A nested write on documents in the layout can be completed when its filter can be evaluated on all their rows.
The updates then leave every document `rewritten`, none is made for a document without a chosen row, and the chosen
rows are counted. -/
theorem complete_rewrites (hw : w.WellNamed copies) {documents : List Document}
    (hid : ∀ d ∈ documents, (Document.get? d "_id").isSome)
    (hd : ∀ d ∈ documents, Row.regular w.hops (Row.ofTop w.collection d)) :
    ((∃ done, w.complete fetch copies documents = .ok done) ↔
        ∀ d ∈ documents, ∀ r ∈ w.rowsOf d, ∃ b, w.selects fetch r = .ok b) ∧
      ∀ done, w.complete fetch copies documents = .ok done →
        done.affected = (documents.flatMap w.rowsOf).countP (w.chooses fetch) ∧
        ∃ mutation : Document → Option UpdateRequest, done.updates = documents.filterMap mutation ∧
          ∀ d ∈ documents, w.Carries fetch copies d (mutation d) := by
  have hsel : ∀ done, w.complete fetch copies documents = .ok done →
      ∀ d ∈ documents, ∀ r ∈ w.rowsOf d, ∃ b, w.selects fetch r = .ok b := by
    intro done hdone d hmem
    cases hparts : documents.mapM (w.completeDocument fetch copies) with
    | error e => rw [complete, hparts] at hdone; cases hdone
    | ok parts =>
      obtain ⟨part, hpart⟩ := exists_mapM_ok_iff.mp ⟨_, hparts⟩ d hmem
      exact selects_of_completeDocument (hid d hmem) hpart
  refine ⟨⟨fun ⟨done, hdone⟩ => hsel done hdone, fun h => ⟨_, complete_eq hid h⟩⟩, fun done hdone => ?_⟩
  obtain rfl := Except.ok.inj (hdone.symm.trans (complete_eq hid (hsel done hdone)))
  exact ⟨rfl, _, rfl, fun d hmem => carries_mutationOf hw (hid d hmem) (hd d hmem)⟩

def lineWrite : NestedWrite where
  table := "line"
  collection := "customer"
  hops :=
    let hop (parent child : String) : Hop :=
      ⟨.merge, { name := "", parent := parent, child := child, columns := [], referencedColumns := []
                 association := .many }⟩
    [hop "customer" "order", hop "order" "line"]
  read := { collection := "customer", pipeline := [] }
  filter := some (.comparison .eq (.column ⟨"", "code"⟩) (.literal (.string "x")))
  columns := [⟨"code", ⟨2, "code"⟩, .string⟩]
  action := .update [("code", .string "y"), ("note", .null)]
  copies := []

def lineDocument (first third : Document) : Document :=
  [("_id", .int32 1),
    ("order", .array [
      .document [("line", .array [.document first, .document [("code", .string "z")]])],
      .document [("line", .array [.document third])]])]

def lineCopies : List ResolvedCopy := [⟨"product", some [("_id", .int32 7)]⟩, ⟨"offer", none⟩]

def storedLines : Document :=
  lineDocument [("code", .string "x"), ("note", .string "n")] [("offer", .document []), ("code", .string "x")]

theorem complete_lineWrite :
    lineWrite.WellNamed lineCopies ∧ (∀ d ∈ [storedLines], (Document.get? d "_id").isSome) ∧
      (∀ d ∈ [storedLines], Row.regular lineWrite.hops (Row.ofTop lineWrite.collection d)) ∧
      ∃ done mutation, lineWrite.complete (fun _ => .ok []) lineCopies [storedLines] = .ok done ∧
        done.affected = 2 ∧ done.updates = [storedLines].filterMap mutation ∧
        after storedLines (mutation storedLines) = some (lineDocument
          [("code", .string "y"), ("product", .document [("_id", .int32 7)])]
          [("code", .string "y"), ("product", .document [("_id", .int32 7)])]) := by
  have hw : lineWrite.WellNamed lineCopies := by
    refine ⟨by decide, by decide +kernel, fun fields hfields => ?_⟩
    obtain rfl : [("code", Bson.string "y"), ("note", .null)] = fields := by
      simpa [lineWrite] using hfields
    exact ⟨by decide +kernel, by decide +kernel⟩
  have hid : ∀ e ∈ [storedLines], (Document.get? e "_id").isSome := by decide +kernel
  have hd : ∀ e ∈ [storedLines], Row.regular lineWrite.hops (Row.ofTop lineWrite.collection e) := by
    decide +kernel
  have hsel : ∀ e ∈ [storedLines], ∀ r ∈ lineWrite.rowsOf e,
      ∃ b, lineWrite.selects (fun _ => .ok []) r = .ok b := by
    have hisOk : ∀ e ∈ [storedLines], ∀ r ∈ lineWrite.rowsOf e,
        (lineWrite.selects (fun _ => .ok []) r).isOk := by decide +kernel
    intro e he r hr
    have h := hisOk e he r hr
    cases hsel : lineWrite.selects (fun _ => .ok []) r with
    | ok b => exact ⟨b, rfl⟩
    | error cause => rw [hsel] at h; cases h
  obtain ⟨hok, hdone⟩ := @complete_rewrites lineWrite (fun _ => .ok []) lineCopies hw
    [storedLines] hid hd
  obtain ⟨done, hcomplete⟩ := hok.mpr hsel
  obtain ⟨haffected, mutation, hupdates, hcarries⟩ := hdone done hcomplete
  refine ⟨hw, hid, hd, done, mutation, hcomplete, haffected.trans ?_, hupdates, ?_⟩
  · decide +kernel
  · obtain ⟨d', hrewritten, hafter⟩ := (hcarries storedLines (by simp)).result
    rw [hafter, ← hrewritten]
    rfl

end Complete

end NestedWrite

end Pushdown
