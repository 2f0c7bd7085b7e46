import Pushdown.Proofs.Update
import Pushdown.Write.Row

/-!
# Rows and their places

The rows that a `walk` reaches lie at places that part ways, and the path of a row is the path of its place
(`positionalPath_eq`). Edits of every row, carried out where the rows lie (`editsBelow`), give the document in which
every row is `edited`: a walk one hop deeper edits the values that the first hop leads to.
-/

namespace Pushdown

open List Edit Pushdown.Path

def RowStep.names (s : RowStep) : List String := s.field :: (s.index.map toString).toList

variable {c r : Row} {items : List Bson} {start : Nat} {steps : List RowStep}

namespace Row

variable {hop : Hop} {s : RowStep} {hops : List Hop}

def names (r : Row) : List String := r.steps.flatMap RowStep.names

def stepsBelow (hop : Hop) (r : Row) : List RowStep :=
  match Document.get? r.row hop.field with
  | some (.array items) => arrayRows hop 0 items
  | some (.document d) => [⟨hop.link.child, hop.field, none, d⟩]
  | _ => []

theorem children_eq (hop : Hop) (r : Row) : children hop r = (stepsBelow hop r).map r.below := by
  rw [children, stepsBelow]
  generalize Document.get? r.row hop.field = b
  rcases b with _ | b
  · rfl
  · cases b <;> rfl

@[simp] theorem row_below (r : Row) (s : RowStep) : (r.below s).row = s.row := by
  simp [row, below]

@[simp] theorem names_below (r : Row) (s : RowStep) : (r.below s).names = r.names ++ s.names := by
  simp [names, below]

@[simp] theorem index?_below (r : Row) (s : RowStep) : (r.below s).index? = s.index := by
  simp [index?, below]

@[simp] theorem steps_below (r : Row) (s : RowStep) : (r.below s).steps = r.steps ++ [s] := rfl

theorem names_ofTop (table : String) (d : Document) : (ofTop table d).names = [] := rfl

theorem row_ofTop (table : String) (d : Document) : (ofTop table d).row = d := rfl

@[simp] theorem walk_nil (r : Row) : r.walk [] = [r] := rfl

theorem foldl_children (hops : List Hop) (rows : List Row) :
    hops.foldl (fun rows hop => rows.flatMap (children hop)) rows = rows.flatMap (·.walk hops) := by
  induction hops generalizing rows with
  | nil => simp
  | cons hop hops ih =>
    have hwalk : ∀ r : Row, r.walk (hop :: hops) = (children hop r).flatMap (·.walk hops) := by
      intro r
      rw [walk, foldl_cons, ih, flatMap_singleton]
    rw [foldl_cons, ih, flatMap_assoc]
    simp only [hwalk]

theorem walk_cons (r : Row) (hop : Hop) (hops : List Hop) :
    r.walk (hop :: hops) = (stepsBelow hop r).flatMap fun s => (r.below s).walk hops := by
  rw [walk, foldl_cons, foldl_children, flatMap_singleton, children_eq, flatMap_map]

theorem walk_concat (r : Row) (hops : List Hop) (hop : Hop) :
    r.walk (hops ++ [hop]) = (r.walk hops).flatMap (children hop) := by
  rw [walk, foldl_append]
  rfl

theorem step_of_mem_arrayRows (h : s ∈ arrayRows hop start items) :
    s.field = hop.field ∧ ∃ i, s.index = some (start + i) ∧ items[i]? = some (.document s.row) := by
  induction items generalizing start with
  | nil => cases h
  | cons b items ih =>
    have hrest (h : s ∈ arrayRows hop (start + 1) items) : s.field = hop.field ∧
        ∃ i, s.index = some (start + i) ∧ (b :: items)[i]? = some (.document s.row) := by
      obtain ⟨hfield, i, hi, hitem⟩ := ih h
      exact ⟨hfield, i + 1, by rw [hi]; congr 1; omega, hitem⟩
    cases b with
    | document d =>
      rcases mem_cons.mp h with rfl | h
      · exact ⟨rfl, 0, rfl, rfl⟩
      · exact hrest h
    | _ => exact hrest h

theorem exists_below_of_mem_walk (h : c ∈ r.walk (hops ++ [hop])) :
    ∃ p ∈ r.walk hops, ∃ s ∈ stepsBelow hop p, c = p.below s := by
  rw [walk_concat, mem_flatMap] at h
  obtain ⟨p, hp, h⟩ := h
  rw [children_eq] at h
  obtain ⟨s, hs, rfl⟩ := mem_map.mp h
  exact ⟨p, hp, s, hs, rfl⟩

theorem exists_steps_of_mem_walk (h : c ∈ r.walk hops) :
    ∃ steps, c.top = r.top ∧ c.steps = r.steps ++ steps ∧ steps.length = hops.length := by
  induction hops generalizing r with
  | nil =>
    obtain rfl := mem_singleton.mp h
    exact ⟨[], rfl, (append_nil _).symm, rfl⟩
  | cons hop hops ih =>
    rw [walk_cons, mem_flatMap] at h
    obtain ⟨s, -, h⟩ := h
    obtain ⟨steps, htop, hsteps, hlength⟩ := ih h
    exact ⟨s :: steps, htop, by simp [hsteps], by simp [hlength]⟩

theorem field_of_mem_stepsBelow (h : s ∈ stepsBelow hop r) : s.field = hop.field := by
  rw [stepsBelow] at h
  split at h
  · exact (step_of_mem_arrayRows h).1
  · rw [mem_singleton.mp h]
  · cases h

theorem names_isName (hf : Path.IsName hop.field) (h : s ∈ stepsBelow hop r) : ∀ t ∈ s.names, Path.IsName t := by
  intro t ht
  rcases mem_cons.mp ht with rfl | ht
  · rw [field_of_mem_stepsBelow h]; exact hf
  · obtain ⟨i, -, rfl⟩ := Option.map_eq_some_iff.mp (Option.mem_toList.mp ht)
    exact toString_isName i

theorem names_of_mem_walk (hh : ∀ h ∈ hops, Path.IsName h.field) {r : Row} (h : c ∈ r.walk hops) :
    ∃ rest, c.names = r.names ++ rest ∧ (∀ t ∈ rest, Path.IsName t) ∧ (hops ≠ [] → rest ≠ []) := by
  induction hops generalizing r with
  | nil =>
    rw [walk_nil, mem_singleton] at h
    exact ⟨[], by simp [h], by simp, fun hne => absurd rfl hne⟩
  | cons hop hops ih =>
    rw [walk_cons, mem_flatMap] at h
    obtain ⟨s, hs, hc⟩ := h
    obtain ⟨rest, hrest, hnames, -⟩ := ih (fun k hk => hh k (mem_cons_of_mem _ hk)) hc
    refine ⟨s.names ++ rest, by simp [hrest], fun t ht => ?_, fun _ => by simp [RowStep.names]⟩
    rcases mem_append.mp ht with ht | ht
    · exact names_isName (hh hop (mem_cons_self ..)) hs t ht
    · exact hnames t ht

theorem diverge_arrayRows (hop : Hop) (start : Nat) (items : List Bson) :
    (arrayRows hop start items).Pairwise fun a b => diverge a.names b.names = true := by
  induction items generalizing start with
  | nil => exact List.Pairwise.nil
  | cons b items ih =>
    cases b with
    | document d =>
      rw [arrayRows]
      refine pairwise_cons.mpr ⟨fun s hs => ?_, ih (start + 1)⟩
      obtain ⟨hf, i, hindex, -⟩ := step_of_mem_arrayRows hs
      have hne : toString start ≠ toString (start + 1 + i) := fun he => by
        have := toString_injective he
        omega
      simp only [RowStep.names, hf, hindex, Option.map_some, Option.toList_some]
      exact diverge_cons.mpr (.inr (diverge_cons.mpr (.inl hne)))
    | _ => exact ih (start + 1)

theorem diverge_stepsBelow (hop : Hop) (r : Row) :
    (stepsBelow hop r).Pairwise fun a b => diverge a.names b.names = true := by
  rw [stepsBelow]
  split
  · exact diverge_arrayRows hop 0 _
  · exact pairwise_singleton _ _
  · exact List.Pairwise.nil

theorem diverge_walk (hh : ∀ h ∈ hops, Path.IsName h.field) (r : Row) :
    (r.walk hops).Pairwise fun a b => diverge a.names b.names = true := by
  induction hops generalizing r with
  | nil => exact pairwise_singleton _ _
  | cons hop hops ih =>
    have hh' : ∀ h ∈ hops, Path.IsName h.field := fun k hk => hh k (mem_cons_of_mem _ hk)
    rw [walk_cons, pairwise_flatMap]
    refine ⟨fun s _ => ih hh' (r.below s), (diverge_stepsBelow hop r).imp fun {a b} hab c hc c' hc' => ?_⟩
    obtain ⟨rest, hc, -⟩ := names_of_mem_walk hh' hc
    obtain ⟨rest', hc', -⟩ := names_of_mem_walk hh' hc'
    rw [hc, hc', names_below, names_below, append_assoc, append_assoc, diverge_append_left]
    exact diverge_append hab rest rest'

variable {names : List String}

theorem stepPath_join (hn : ∀ t ∈ names, Path.IsName t) (s : RowStep) :
    stepPath (Path.join names) s = Path.join (names ++ s.names) := by
  obtain ⟨table, field, index, row⟩ := s
  cases index with
  | none => exact extend_join (fun s hs => (hn s hs).1) field
  | some i =>
    show Path.extend (Path.join names) field ++ "." ++ toString i = _
    rw [extend_join fun s hs => (hn s hs).1, ← join_append_singleton (by simp), append_assoc]
    rfl

theorem foldl_stepPath (hn : ∀ t ∈ names, Path.IsName t) (hs : ∀ s ∈ steps, ∀ t ∈ s.names, Path.IsName t) :
    steps.foldl stepPath (Path.join names) = Path.join (names ++ steps.flatMap RowStep.names) := by
  induction steps generalizing names with
  | nil => simp
  | cons s steps ih =>
    have hs₁ := hs s (mem_cons_self ..)
    rw [foldl_cons, stepPath_join hn, ih, flatMap_cons, append_assoc]
    · exact forall_mem_append.mpr ⟨hn, hs₁⟩
    · exact fun s' hs' => hs s' (mem_cons_of_mem _ hs')

theorem positionalPath_eq (h : ∀ t ∈ r.names, Path.IsName t) : r.positionalPath = Path.join r.names :=
  foldl_stepPath (by simp : ∀ t ∈ [], Path.IsName t) fun s hs t ht => h t (mem_flatMap.mpr ⟨s, hs, ht⟩)

theorem containerPath_below (h : ∀ t ∈ r.names, Path.IsName t) (s : RowStep) :
    (r.below s).containerPath = Path.join (r.names ++ [s.field]) := by
  have hlast : (r.below s).steps.getLast? = some s := by simp
  have hold : (r.below s).ancestor ((r.below s).steps.length - 1) = r := by
    simp [ancestor, below]
  rw [containerPath, hlast]
  simp only [hold, positionalPath_eq h, extend_join fun s hs => (h s hs).1]

/-- The items of an array with the rows among them edited, from position `start` on. A row that is
taken out leaves no gap. -/
def editItems (edit : Nat → Document → Option Document) : Nat → List Bson → List Bson
  | _, [] => []
  | start, .document d :: items => ((edit start d).map Bson.document).toList ++ editItems edit (start + 1) items
  | start, b :: items => b :: editItems edit (start + 1) items

def editField (edit : Option Nat → Document → Option Document) (field : String) (d : Document) : Document :=
  match Document.get? d field with
  | some (.array items) => Document.insert d field (.array (editItems (fun i => edit (some i)) 0 items))
  | some (.document row) =>
    match edit none row with
    | some row => Document.insert d field (.document row)
    | none => Document.erase d field
  | _ => d

/-- A row with the rows edited that lie at the end of the hops below it. `edit` gives the new fields
of such a row, or nothing when it is taken out. -/
def edited (edit : Row → Option Document) : List Hop → Row → Option Document
  | [], r => edit r
  | hop :: hops, r =>
    some (editField (fun i d => edited edit hops (r.below ⟨hop.link.child, hop.field, i, d⟩)) hop.field r.row)

theorem edited_concat (edit : Row → Option Document) (hops : List Hop) (hop : Hop) (r : Row) :
    edited edit (hops ++ [hop]) r =
      edited (fun p => some (editField (fun i d => edit (p.below ⟨hop.link.child, hop.field, i, d⟩))
        hop.field p.row)) hops r := by
  induction hops generalizing r with
  | nil => rfl
  | cons h hops ih => rw [cons_append, edited, edited]; simp only [ih]

theorem editItems_congr {f g : Nat → Document → Option Document}
    (h : ∀ i d, ⟨hop.link.child, hop.field, some i, d⟩ ∈ arrayRows hop start items → f i d = g i d) :
    editItems f start items = editItems g start items := by
  induction items generalizing start with
  | nil => rfl
  | cons b items ih =>
    cases b with
    | document d =>
      rw [editItems, editItems, h start d (mem_cons_self ..), ih fun i d hs => h i d (mem_cons_of_mem _ hs)]
    | _ => rw [editItems, editItems, ih h] <;> nofun

theorem editField_congr {f g : Option Nat → Document → Option Document}
    (h : ∀ i d, ⟨hop.link.child, hop.field, i, d⟩ ∈ stepsBelow hop r → f i d = g i d) :
    editField f hop.field r.row = editField g hop.field r.row := by
  rw [editField, editField]
  cases hget : Document.get? r.row hop.field with
  | none => rfl
  | some b =>
    rw [stepsBelow, hget] at h
    cases b with
    | array items => simp only [editItems_congr fun i d => h (some i) d]
    | document d => simp only [h none d (mem_singleton_self _)]
    | _ => rfl

theorem edited_congr {f g : Row → Option Document} (h : ∀ c ∈ r.walk hops, f c = g c) :
    edited f hops r = edited g hops r := by
  induction hops generalizing r with
  | nil => exact h r (mem_singleton_self r)
  | cons hop hops ih =>
    rw [edited, edited, editField_congr]
    intro i d hs
    refine ih fun c hc => h c ?_
    rw [walk_cons, mem_flatMap]
    exact ⟨_, hs, hc⟩

end Row

def Edit.under (names : List String) (e : Edit) : Edit := { e with names := names ++ e.names }

namespace Edit

theorem under_nil : under [] = id := rfl

theorem under_append (a b : List String) : under (a ++ b) = under a ∘ under b := by
  funext e; simp [under]

end Edit

namespace Row

variable {hops : List Hop} {edits : Row → List Edit}

/-- The edits of all rows at the end of the hops, each where its row lies. -/
def editsBelow (edits : Row → List Edit) : List Hop → Row → List Edit
  | [], r => edits r
  | hop :: hops, r => (stepsBelow hop r).flatMap fun s => (editsBelow edits hops (r.below s)).map (Edit.under s.names)

theorem map_under_editsBelow (edits : Row → List Edit) (hops : List Hop) (r : Row) :
    (editsBelow edits hops r).map (Edit.under r.names) =
      (r.walk hops).flatMap fun c => (edits c).map (Edit.under c.names) := by
  induction hops generalizing r with
  | nil => simp [editsBelow]
  | cons hop hops ih =>
    rw [editsBelow, walk_cons, flatMap_assoc, map_flatMap]
    congr 1
    funext s
    rw [← ih, names_below, under_append, map_map]

theorem apart_flatMap {rows : List Row} (hrows : rows.Pairwise fun a b => diverge a.names b.names = true)
    (h : ∀ c ∈ rows, Edit.Apart (edits c)) :
    Edit.Apart (rows.flatMap fun c => (edits c).map (Edit.under c.names)) := by
  rw [Edit.Apart, pairwise_flatMap]
  refine ⟨fun c hc => ?_, hrows.imp fun {a b} hab e he f hf => ?_⟩
  · rw [pairwise_map]
    exact (h c hc).imp fun hd => by rw [Edit.under, Edit.under, diverge_append_left]; exact hd
  · obtain ⟨e, -, rfl⟩ := mem_map.mp he
    obtain ⟨f, -, rfl⟩ := mem_map.mp hf
    exact diverge_append hab e.names f.names

theorem names_ne_nil_editsBelow (hne : ∀ c ∈ r.walk hops, ∀ e ∈ edits c, e.names ≠ []) :
    ∀ e ∈ editsBelow edits hops r, e.names ≠ [] := by
  cases hops with
  | nil => exact hne r (by simp)
  | cons hop hops =>
    intro e he
    rw [editsBelow, mem_flatMap] at he
    obtain ⟨s, -, he⟩ := he
    obtain ⟨e, -, rfl⟩ := mem_map.mp he
    simp [Edit.under, RowStep.names]

variable {hop : Hop} {new : Row → Document}

theorem run?_arrayRows {edits : RowStep → List Edit} {edit : Nat → Document → Option Document}
    (hne : ∀ s ∈ arrayRows hop start items, ∀ e ∈ edits s, e.names ≠ [])
    (hrun : ∀ i d, (⟨hop.link.child, hop.field, some i, d⟩ : RowStep) ∈ arrayRows hop start items →
      ∃ d', edit i d = some d' ∧
        run? (edits ⟨hop.link.child, hop.field, some i, d⟩) (.document d) = some (.document d'))
    {before : List Bson} (hb : before.length = start) :
    run? ((arrayRows hop start items).flatMap fun s => (edits s).map (Edit.under s.names.tail))
        (.array (before ++ items)) = some (.array (before ++ editItems edit start items)) := by
  induction items generalizing start before with
  | nil => rfl
  | cons b items ih =>
    -- an item that is no row stays as it is
    have hskip : ∀ b', (∀ s ∈ arrayRows hop (start + 1) items, ∀ e ∈ edits s, e.names ≠ []) →
        (∀ i d, (⟨hop.link.child, hop.field, some i, d⟩ : RowStep) ∈ arrayRows hop (start + 1) items →
          ∃ d', edit i d = some d' ∧ run? (edits ⟨hop.link.child, hop.field, some i, d⟩)
            (.document d) = some (.document d')) →
        run? ((arrayRows hop (start + 1) items).flatMap fun s =>
            (edits s).map (Edit.under s.names.tail)) (.array (before ++ b' :: items)) =
          some (.array (before ++ b' :: editItems edit (start + 1) items)) := by
      intro b' hne' hrun'
      have hb' : (before ++ [b']).length = start + 1 := by simp [hb]
      simpa using ih hne' hrun' hb'
    cases b with
    | document d =>
      rw [arrayRows] at hne hrun ⊢
      obtain ⟨d', hd', hrun'⟩ := hrun start d (mem_cons_self ..)
      have hitem : (before ++ Bson.document d :: items)[start]? = some (.document d) := by
        rw [getElem?_append_right (by omega), hb, Nat.sub_self]
        rfl
      have hset : (before ++ Bson.document d :: items).set start (.document d') =
          before ++ Bson.document d' :: items := by
        rw [set_append_right _ _ (by omega), hb, Nat.sub_self]
        rfl
      rw [flatMap_cons, run?_append]
      have hfirst := run?_below_array hitem (hne _ (mem_cons_self ..))
      rw [hrun', Option.map_some, hset] at hfirst
      rw [editItems, hd']
      refine (congrArg (Option.bind · _) hfirst).trans ?_
      exact hskip (.document d') (fun s hs => hne s (mem_cons_of_mem _ hs))
        fun i d hs => hrun i d (mem_cons_of_mem _ hs)
    | _ => exact hskip _ hne hrun

theorem map_under_names (hf : ∀ s ∈ steps, s.field = hop.field) (edits : RowStep → List Edit) :
    (steps.flatMap fun s => (edits s).map (Edit.under s.names)) =
      (steps.flatMap fun s => (edits s).map (Edit.under s.names.tail)).map (Edit.below hop.field) := by
  induction steps with
  | nil => rfl
  | cons s steps ih =>
    rw [flatMap_cons, flatMap_cons, map_append,
      ← ih fun t ht => hf t (mem_cons_of_mem _ ht), map_map, ← hf s (mem_cons_self ..)]
    rfl

theorem run?_editsBelow (hne : ∀ c ∈ r.walk hops, ∀ e ∈ edits c, e.names ≠ [])
    (hrun : ∀ c ∈ r.walk hops, run? (edits c) (.document c.row) = some (.document (new c))) :
    ∃ d, edited (fun c => some (new c)) hops r = some d ∧
      run? (editsBelow edits hops r) (.document r.row) = some (.document d) := by
  induction hops generalizing r with
  | nil => exact ⟨new r, rfl, hrun r (by simp)⟩
  | cons hop hops ih =>
    -- what the hypotheses say of the rows below one step
    have hwalk : ∀ s ∈ stepsBelow hop r, ∀ c ∈ (r.below s).walk hops, c ∈ r.walk (hop :: hops) := by
      intro s hs c hc
      rw [walk_cons]
      exact mem_flatMap.mpr ⟨s, hs, hc⟩
    have hne' : ∀ s ∈ stepsBelow hop r, ∀ e ∈ editsBelow edits hops (r.below s), e.names ≠ [] :=
      fun s hs => names_ne_nil_editsBelow fun c hc => hne c (hwalk s hs c hc)
    have ih' : ∀ s ∈ stepsBelow hop r, ∃ d, edited (fun c => some (new c)) hops (r.below s) = some d ∧
        run? (editsBelow edits hops (r.below s)) (.document s.row) = some (.document d) := by
      intro s hs
      have h := ih (fun c hc => hne c (hwalk s hs c hc)) fun c hc => hrun c (hwalk s hs c hc)
      rwa [row_below] at h
    refine ⟨_, rfl, ?_⟩
    rw [editsBelow, map_under_names (fun s hs => field_of_mem_stepsBelow hs), editField]
    have hne'' : ∀ e ∈ (stepsBelow hop r).flatMap fun s =>
        (editsBelow edits hops (r.below s)).map (Edit.under s.names.tail), e.names ≠ [] := by
      intro e he
      obtain ⟨s, hs, he⟩ := mem_flatMap.mp he
      obtain ⟨f, hf, rfl⟩ := mem_map.mp he
      exact append_ne_nil_of_right_ne_nil _ (hne' s hs f hf)
    rw [stepsBelow] at hne' ih' hne'' ⊢
    cases hget : Document.get? r.row hop.field with
    | none => rfl
    | some b =>
      rw [hget] at hne' ih' hne''
      cases b with
      | array items =>
        have hitems := run?_arrayRows hne' (fun i d hs => ih' _ hs) (length_nil (α := Bson))
        rw [nil_append, nil_append] at hitems
        rw [run?_below_document hget hne'']
        exact congrArg (Option.map _) hitems
      | document d =>
        obtain ⟨d', hd', hrun'⟩ := ih' _ (mem_singleton_self _)
        rw [run?_below_document hget hne'', flatMap_singleton]
        simp only [RowStep.names, Option.map_none, Option.toList_none, tail_cons, under_nil,
          map_id, hrun', hd', Option.map_some]
      | _ => rfl

theorem isName_of_mem_walk (hh : ∀ h ∈ hops, Path.IsName h.field) {table : String} {d : Document}
    (hc : c ∈ (ofTop table d).walk hops) : ∀ t ∈ c.names, Path.IsName t := by
  obtain ⟨rest, hrest, hnames, -⟩ := names_of_mem_walk hh hc
  rw [hrest]
  exact hnames

theorem turn_walk (hh : ∀ h ∈ hops, Path.IsName h.field) {table : String} {d : Document}
    (h : ∀ c ∈ (ofTop table d).walk hops, Edit.Turn (edits c) c.row (new c)) :
    ∃ d', edited (fun c => some (new c)) hops (ofTop table d) = some d' ∧
      Edit.Turn (((ofTop table d).walk hops).flatMap fun c => (edits c).map (Edit.under c.names)) d d' := by
  obtain ⟨d', hedited, hrun⟩ := run?_editsBelow (fun c hc e he => ((h c hc).named e he).1) fun c hc => (h c hc).run
  have hedits := map_under_editsBelow edits hops (ofTop table d)
  rw [names_ofTop, under_nil, map_id] at hedits
  rw [row_ofTop, hedits] at hrun
  refine ⟨d', hedited, apart_flatMap (diverge_walk hh _) fun c hc => (h c hc).apart, ?_, hrun⟩
  intro f hf
  obtain ⟨c, hc, hf⟩ := mem_flatMap.mp hf
  obtain ⟨e, he, rfl⟩ := mem_map.mp hf
  obtain ⟨hne, hnames⟩ := (h c hc).named e he
  refine ⟨append_ne_nil_of_right_ne_nil _ hne, fun t ht => ?_⟩
  rcases mem_append.mp ht with ht | ht
  · exact isName_of_mem_walk hh hc t ht
  · exact hnames t ht

def holdsRows : Option Bson → Bool
  | some (.array items) => items.all fun
    | .document _ => true
    | _ => false
  | _ => true

def regular : List Hop → Row → Bool
  | [], _ => true
  | hop :: hops, r =>
    holdsRows (Document.get? r.row hop.field) && (stepsBelow hop r).all fun s => regular hops (r.below s)

theorem holdsRows_of_regular (h : regular (hops ++ [hop]) r) :
    ∀ p ∈ r.walk hops, holdsRows (Document.get? p.row hop.field) := by
  induction hops generalizing r with
  | nil =>
    intro p hp
    rw [mem_singleton.mp hp]
    exact (Bool.and_eq_true_iff.mp h).1
  | cons first hops ih =>
    intro p hp
    rw [walk_cons] at hp
    obtain ⟨s, hs, hp⟩ := mem_flatMap.mp hp
    exact ih (List.all_eq_true.mp (Bool.and_eq_true_iff.mp h).2 s hs) p hp

end Row

end Pushdown
