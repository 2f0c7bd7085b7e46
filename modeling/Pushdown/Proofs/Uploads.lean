import Pushdown.Proofs.FastDelete
import Pushdown.Proofs.RefreshedCopies

/-!
# What a write uploads

The content of a large value goes to the store of large objects when the value is stored (`Puts`). Everything that a
write looks up is stored the same way: keys, references to copies, the constants of its filter.
`uploads_given_values`: where none of these is large (`LooksUpPlain`), a write uploads the values that it is given,
each once.
-/

namespace Pushdown

open List Attempt

variable {σ : Type}

def LargeObjects.putAll (objects : LargeObjects σ) (contents : List (List UInt8)) (s : σ) : σ :=
  contents.foldl (fun s content => (objects.put content s).2) s

namespace Value

mutual

/-- The contents of the large values in a value, from left to right. -/
def contents : Value → List (List UInt8)
  | .blob bytes => [bytes]
  | .clob text => [Text.utf8 text]
  | .xml text => [Text.utf8 text]
  | .array items => contentsOf items
  | _ => []

def contentsOf : List Value → List (List UInt8)
  | [] => []
  | v :: vs => contents v ++ contentsOf vs

end

theorem contentsOf_eq (vs : List Value) : contentsOf vs = vs.flatMap contents := by
  induction vs with
  | nil => rfl
  | cons v vs ih => rw [contentsOf, ih, flatMap_cons]

mutual

theorem contents_of_isPlain {v : Value} (h : v.isPlain) : v.contents = [] := by
  cases v with
  | blob bytes | clob text | xml text => cases h
  | array items => exact contentsOf_of_allPlain h
  | _ => rfl

theorem contentsOf_of_allPlain {vs : List Value} (h : allPlain vs) : contentsOf vs = [] := by
  cases vs with
  | nil => rfl
  | cons v vs =>
    obtain ⟨hv, hvs⟩ := Bool.and_eq_true_iff.mp h
    rw [contentsOf, contents_of_isPlain hv, contentsOf_of_allPlain hvs, nil_append]

end

end Value

namespace Attempt

variable {ε δ α β : Type} {objects : LargeObjects σ} {cs ds : List (List UInt8)} {x : Attempt σ ε α}
  {f : α → Attempt σ ε β}

/-- Whether a computation puts these contents and no others to the store, where it succeeds. -/
def Puts (objects : LargeObjects σ) (cs : List (List UInt8)) (x : Attempt σ ε α) : Prop :=
  ∀ s a s', x s = (.ok a, s') → s' = objects.putAll cs s

namespace Puts

theorem ofExcept (r : Except ε α) : Puts objects [] (ofExcept r : Attempt σ ε α) :=
  fun _ _ _ h => (ofExcept_ok h).2.symm

theorem pure (a : α) : Puts objects [] (pure a : Attempt σ ε α) := ofExcept (.ok a)

theorem throw (e : ε) : Puts objects [] (throw e : Attempt σ ε α) := ofExcept (.error e)

theorem bind (hx : Puts objects cs x) (hf : ∀ s a s₁, x s = (.ok a, s₁) → Puts objects ds (f a)) :
    Puts objects (cs ++ ds) (x >>= f) := by
  intro s b s' h
  obtain ⟨a, s₁, ha, h⟩ := bind_ok h
  rw [LargeObjects.putAll, foldl_append, hf s a s₁ ha s₁ b s' h, hx s a s₁ ha]
  rfl

theorem andThen (hx : Puts objects [] x) (hf : ∀ s a s₁, x s = (.ok a, s₁) → Puts objects cs (f a)) :
    Puts objects cs (x >>= f) := hx.bind hf

theorem andLast (hx : Puts objects cs x) (hf : ∀ a, Puts objects [] (f a)) : Puts objects cs (x >>= f) :=
  append_nil cs ▸ hx.bind fun _ a _ _ => hf a

theorem ret (hx : Puts objects cs x) {g : α → β} : Puts objects cs (x >>= fun a => Pure.pure (g a)) :=
  hx.andLast fun _ => pure _

theorem failingAs (hx : Puts objects cs x) (f : ε → δ) : Puts objects cs (x.failingAs f) :=
  fun s a s' h => hx s a s' (failingAs_ok h)

theorem mapM {l : List α} {k : α → List (List UInt8)} (h : ∀ a ∈ l, Puts objects (k a) (f a)) :
    Puts objects (l.flatMap k) (l.mapM f) := by
  induction l with
  | nil => exact pure []
  | cons a l ih =>
    obtain ⟨ha, hl⟩ := forall_mem_cons.mp h
    rw [mapM_cons, flatMap_cons]
    exact ha.bind fun _ _ _ _ => (ih hl).ret

theorem mapM_nil {l : List α} (h : ∀ a ∈ l, Puts objects [] (f a)) : Puts objects [] (l.mapM f) := by
  have hmap := mapM h
  rwa [flatMap_eq_nil_iff.mpr fun _ _ => rfl] at hmap

end Puts

theorem state_bind_pure {g : α → β} (s : σ) : ((x >>= fun a => pure (g a)) s).2 = (x s).2 := by
  rcases hx : x s with ⟨r, s₁⟩
  cases r with
  | ok a => rw [bind_of_ok hx]; rfl
  | error e => rw [bind_of_error hx]

end Attempt

namespace Value

variable {objects : LargeObjects σ}

theorem puts_storeContent (content : List UInt8) : Puts objects [content] (storeContent objects content) := by
  intro s b s' h
  rw [storeContent] at h
  split at h
  · rename_i hput
    cases h
    rw [LargeObjects.putAll, foldl_cons, hput]
    rfl
  · cases h

mutual

theorem puts_toStored (v : Value) : Puts objects v.contents (v.toStored objects) := by
  cases v with
  | blob bytes => exact puts_storeContent bytes
  | clob text | xml text => exact puts_storeContent (Text.utf8 text)
  | array items => exact (puts_listToStored items).ret
  | bigDecimal text =>
    rw [toStored]
    cases readFloat? text with
    | none => exact .throw _
    | some x => exact .pure _
  | _ => exact .pure _

theorem puts_listToStored (vs : List Value) : Puts objects (contentsOf vs) (listToStored objects vs) := by
  cases vs with
  | nil => exact .pure _
  | cons v vs =>
    exact (puts_toStored v).bind fun _ _ _ _ => (puts_listToStored vs).ret

end

end Value

/-- The columns of a row by which rows are looked up: the row itself, the one that holds it, those it copies. -/
def Layout.keyColumns (l : Layout) : List String :=
  l.idColumns ++ l.inheritedColumns ++ l.embeddedKeys.flatMap (·.columns)

def ColumnValues.KeysPlain (l : Layout) (values : ColumnValues) : Prop :=
  ∀ v ∈ values, Text.hasName l.keyColumns v.1 → v.2.isPlain

namespace ColumnValues.KeysPlain

variable {l : Layout} {values : ColumnValues} (h : values.KeysPlain l)
include h

theorem contents_of_hasName {v : String × Value} (hv : v ∈ values) (hname : Text.hasName l.keyColumns v.1) :
    v.2.contents = [] :=
  Value.contents_of_isPlain (h v hv hname)

theorem contents_of_value? {column : String} (hcolumn : column ∈ l.keyColumns) {v : Value}
    (hv : values.value? column = some v) : v.contents = [] := by
  obtain ⟨name, hmem, hsame, -⟩ := value?_some hv
  rw [Text.same_comm] at hsame
  exact h.contents_of_hasName hmem (any_eq_true.mpr ⟨column, hcolumn, hsame⟩)

end ColumnValues.KeysPlain

theorem flatMap_filter_of_nil {α β : Type} {p : α → Bool} {f : α → List β} {l : List α}
    (h : ∀ a ∈ l, p a = false → f a = []) : (l.filter p).flatMap f = l.flatMap f := by
  induction l with
  | nil => rfl
  | cons a l ih =>
    obtain ⟨ha, hl⟩ := forall_mem_cons.mp h
    cases hp : p a with
    | true => rw [filter_cons_of_pos hp, flatMap_cons, flatMap_cons, ih hl]
    | false => rw [filter_cons_of_neg (by simp [hp]), flatMap_cons, ha hp, ih hl, nil_append]

namespace WriteContext

variable {c : WriteContext σ} {l : Layout} {values : ColumnValues}

theorem puts_store (v : Value) : Puts c.objects v.contents (c.store v) := (Value.puts_toStored v).failingAs _

theorem puts_storeColumn (v : String × Value) : Puts c.objects v.2.contents (c.storeColumn v) :=
  (puts_store v.2).ret

variable (h : values.KeysPlain l)

include h

theorem puts_rowId : Puts c.objects [] (c.rowId l values) := by
  rw [rowId]
  split
  · exact .pure _
  · split
    · rename_i key hkey
      have hnone : Value.contentsOf key = [] := by
        rw [Value.contentsOf_eq, flatMap_eq_nil_iff]
        intro v hv
        obtain ⟨k, hk, hvalue⟩ := exists_left_of_forall₂ (ColumnValues.mapM_value?_eq_some.mp hkey) hv
        exact h.contents_of_value? (by simp [Layout.keyColumns, (of_mem_zip hk).1]) hvalue
      refine (Puts.failingAs ?_ _).ret
      rw [Value.toKey, ← hnone]
      split
      · exact (Value.puts_listToStored key).ret
      · exact hnone ▸ .throw _
    · split
      · exact .throw _
      · exact .pure _

theorem puts_copyFetch {embed : Link} (hembed : embed ∈ l.embeddedKeys) :
    Puts c.objects [] (c.copyFetch values embed) := by
  rw [copyFetch]
  split
  · exact .pure _
  · rename_i parts hparts
    refine (Puts.ofExcept _).andThen fun _ referenced _ _ => ?_
    refine (Puts.mapM_nil fun column _ => ?_).ret
    refine (Puts.ofExcept _).andThen fun _ v _ hv => ?_
    obtain ⟨k, _, hk, -, hvalue⟩ := referringValue_ok hparts (ofExcept_ok hv).1
    have hcolumn : k ∈ l.keyColumns := mem_append_right _ (mem_flatMap.mpr ⟨embed, hembed, (of_mem_zip hk).1⟩)
    rw [← h.contents_of_value? hcolumn hvalue]
    exact puts_store v

theorem puts_copyFetches : Puts c.objects [] (c.copyFetches l values) :=
  (Puts.mapM_nil fun _ => puts_copyFetch h).ret

theorem puts_insertTarget : Puts c.objects [] (c.insertTarget l values) := by
  rw [insertTarget]
  split
  · exact .pure _
  · rename_i merge hmerge
    refine Puts.andThen (Puts.mapM_nil fun pair hp => ?_) fun _ _ _ _ => (Puts.ofExcept _).ret
    obtain ⟨column, referenced⟩ := pair
    have hcolumn : column ∈ l.keyColumns := by
      simp [Layout.keyColumns, TableLayout.inheritedColumns, hmerge, (of_mem_zip hp).1]
    dsimp only
    cases hv : values.value? column with
    | none => exact .throw _
    | some v => exact h.contents_of_value? hcolumn hv ▸ puts_storeColumn (referenced, v)

theorem puts_insertRow : Puts c.objects (values.flatMap (·.2.contents)) (c.insertRow l values) := by
  have hother : ∀ v ∈ values, hasOwnField l v = false → v.2.contents = [] := by
    rintro ⟨name, v⟩ hv hown
    simp only [hasOwnField, Bool.and_eq_false_iff, Bool.not_eq_false'] at hown
    rcases hown with (hnull | hname) | hname
    · cases v with
      | null => rfl
      | _ => cases hnull
    all_goals
      rw [Text.hasName] at hname
      exact h.contents_of_hasName hv (by simp [Layout.keyColumns, Text.hasName, -any_eq_true, hname])
  rw [← flatMap_filter_of_nil hother]
  refine Puts.andLast (.andThen (puts_rowId h) fun _ _ _ _ => ?_) fun row => ?_
  · exact (Puts.mapM fun v _ => puts_storeColumn v).ret
  · exact (puts_copyFetches h).andLast fun _ => (puts_insertTarget h).ret

end WriteContext

def Expression.ConstantsPlain (e : Expression) : Prop := ∀ v, .literal v ∈ e.parts → v.isPlain

namespace WriteContext

variable {c : WriteContext σ} {l : Layout} {filter : Option Expression}

theorem partwise_keepsObjects : Compiling.Partwise fun _ (x : Compiling σ _) => ∀ s, (x s).2.objects = s.objects where
  ofExcept _ _ := rfl
  bind {_ _ x f} hx hf s := by
    show (ExceptT.bindCont f (x s).1 (x s).2).2.objects = s.objects
    rw [← hx s]
    cases (x s).1 with
    | ok a => exact hf a _
    | error e => rfl
  both hx hy s := by rw [both_state, hy, hx]

theorem objects_store {c : Context σ} {v : Value} (h : v.isPlain) (s : Draft σ) :
    (c.store v s).2.objects = s.objects := by
  obtain ⟨r, hr⟩ := Value.exists_gives h
  rw [Context.store, Attempt.within, Attempt.failingAs, hr c.objects s.objects]
  cases r <;> rfl

theorem state_condition (h : ∀ e ∈ filter, e.ConstantsPlain) {mode : Mode}
    (hmode : mode ≠ .pipeline) (s : σ) : (c.condition l filter mode s).2 = s := by
  cases filter with
  | none => rfl
  | some e =>
    have hfilters : ∀ x ∈ e.conjuncts.map (plainFilter (c.rowContext l mode)), ∀ s, (x s).2.objects = s.objects := by
      intro x hx
      obtain ⟨term, hterm, rfl⟩ := mem_map.mp hx
      rw [plainFilter]
      split
      · exact fun _ => rfl
      · have hplain : term.ConstantsPlain := Expression.forall_conjuncts
          (fun _ h e he v hv => h v (Expression.mem_parts.mpr (.inr ⟨e, he, hv⟩))) e (h e rfl) term hterm
        refine Expression.partwise_filter { partwise_keepsObjects with
          register := fun _ _ _ => rfl, groupedPath? := by simp, aggregate := by simp } (fun _ hpipeline => ?_) term
          fun v hv => objects_store (hplain v hv)
        exact absurd hpipeline hmode
    have hall := partwise_keepsObjects.all hfilters { objects := s }
    exact (state_bind_pure s).trans hall

theorem puts_standaloneFilter (h : ∀ e ∈ filter, e.ConstantsPlain) :
    Puts c.objects [] (c.standaloneFilter l filter) := by
  refine Puts.andLast (fun s q s' hq => ?_) fun _ => .pure _
  have hstate : (c.condition l filter .standalone s).2 = s := state_condition h (by decide) s
  rwa [hq] at hstate

theorem puts_propagation (document : Document) (change : CopyChange) :
    Puts c.objects [] (c.propagation l document change) := by
  rw [propagation]
  split
  · exact (Puts.ofExcept _).ret
  · exact .pure _

theorem puts_nested (action : NestedAction) (copies : List CopyFetch) :
    Puts c.objects [] (c.nested l filter action copies) :=
  (Puts.ofExcept _).andLast fun _ => (Puts.ofExcept _).ret

theorem puts_planDelete {delete : Delete} (h : ∀ e ∈ delete.filter, e.ConstantsPlain) :
    Puts c.objects [] (c.planDelete delete) := by
  refine (Puts.ofExcept _).andThen fun _ table _ _ => (Puts.ofExcept _).andThen fun _ l _ _ => ?_
  split
  · exact (puts_standaloneFilter h).andLast fun _ => (puts_propagation _ _).ret
  · split
    · refine Puts.andThen (fun s choice s' hchoice => ?_) fun _ choice _ _ => ?_
      · have hstate : (c.condition l delete.filter .element s).2 = s := state_condition h (by decide) s
        rw [fastDelete] at hchoice
        split at hchoice <;> cases hchoice <;> rename_i hq <;> rwa [hq] at hstate
      · cases choice with
        | inl q =>
          refine Puts.andThen ?_ fun _ _ _ _ => .pure _
          exact (puts_standaloneFilter h).ret
        | inr _ => exact puts_nested _ _
    · exact puts_nested _ _

theorem puts_refreshedCopies {assigned : ColumnValues} (h : assigned.KeysPlain l) :
    Puts c.objects [] (c.refreshedCopies l assigned) :=
  (Puts.ofExcept _).andLast fun _ => (puts_copyFetches h).ret

end WriteContext

def Expression.contents : Expression → List (List UInt8)
  | .literal v => v.contents
  | _ => []

namespace Command

/-- The contents of the large values that a write is given for its columns. -/
def contents : Command → List (List UInt8)
  | .insert i => i.rows.flatMap (·.flatMap Expression.contents)
  | .update u => u.assignments.flatMap (·.value.contents)
  | _ => []

/-- Whether a write is given a value for a column. -/
def Gives (name : String) (v : Value) : Command → Prop
  | .insert i => ∃ row ∈ i.rows, (name, .literal v) ∈ i.columns.zip row
  | .update u => ∃ a ∈ u.assignments, a.column = name ∧ a.value = .literal v
  | _ => False

def target : Command → String
  | .select _ => ""
  | .insert i => i.table
  | .update u => u.table
  | .delete d => d.table

def filter? : Command → Option Expression
  | .update u => u.filter
  | .delete d => d.filter
  | _ => none

/-- None of the values that a write looks up rows by is large. -/
structure LooksUpPlain (c : Catalog) (command : Command) : Prop where
  keys : ∀ t l, c.table command.target = .ok t → c.layout t.name = .ok l → ∀ name v, command.Gives name v →
    Text.hasName l.keyColumns name → v.isPlain
  filter : ∀ e ∈ command.filter?, e.ConstantsPlain

end Command

namespace WriteContext

variable {c : WriteContext σ}

theorem flatMap_of_forall₂ {α β γ : Type} {r : α → β → Prop} {f : α → List γ} {g : β → List γ} {l : List α}
    {bs : List β} (h : List.Forall₂ r l bs) (hr : ∀ a b, r a b → f a = g b) : l.flatMap f = bs.flatMap g := by
  induction h with
  | nil => rfl
  | cons hab _ ih => rw [flatMap_cons, flatMap_cons, hr _ _ hab, ih]

theorem puts_planInsert {insert : Insert} (h : (Command.insert insert).LooksUpPlain c.catalog) :
    Puts c.objects (Command.insert insert).contents (c.planInsert insert) := by
  refine (Puts.ofExcept _).andThen fun _ t _ ht => (Puts.ofExcept _).andThen fun _ l _ hl =>
    (Puts.ofExcept _).andThen fun _ columns _ hcolumns => ?_
  have hspelled := (mapM_ok_iff.mp (ofExcept_ok hcolumns).1).imp fun _ _ => spelled_ok
  extract_lets generated rest
  have hrest : Puts c.objects (Command.insert insert).contents (rest ()) := by
    refine Puts.andLast (Puts.mapM fun row hrow => ?_) fun _ => .pure _
    refine (Puts.ofExcept _).andThen fun _ values _ hvalues => ?_
    obtain ⟨constants, rfl, hlen, hconstants⟩ := rowValues_ok (ofExcept_ok hvalues).1
    have hcontents : (columns.zip constants).flatMap (·.2.contents) = row.flatMap Expression.contents := by
      have hrow : row.flatMap Expression.contents = constants.flatMap Value.contents :=
        flatMap_of_forall₂ hconstants fun e v he => by rw [he]; rfl
      rw [hrow]
      conv_rhs => rw [← map_snd_zip hlen.ge, flatMap_map]
    rw [← hcontents]
    refine puts_insertRow fun v hv hname => ?_
    obtain ⟨name, e, hmem, ⟨col, hcol, hcolumn⟩, rfl⟩ := exists_zip_of_forall₂ hspelled.flip hconstants.flip hv
    refine h.keys t l (table_ok ht).1 (layout_ok hl).1 name v.2 ⟨row, hrow, hmem⟩ ?_
    rwa [← Text.hasName_congr (hcolumn ▸ Table.same_of_column? hcol)]
  split
  · exact (Puts.throw _).andThen fun _ _ _ hthrow => by cases hthrow
  · exact hrest

theorem puts_planUpdate {update : Update} (h : (Command.update update).LooksUpPlain c.catalog) :
    Puts c.objects (Command.update update).contents (c.planUpdate update) := by
  refine (Puts.ofExcept _).andThen fun _ t _ ht => (Puts.ofExcept _).andThen fun _ l _ hl =>
    (Puts.ofExcept _).andThen fun _ assigned _ hassigned => ?_
  have hby := assignedBy_of_mapM (ofExcept_ok hassigned).1
  have hkeys : ColumnValues.KeysPlain l assigned := by
    intro v hv hname
    obtain ⟨a, hmem, hsame, hvalue⟩ := exists_left_of_forall₂ hby hv
    refine h.keys t l (table_ok ht).1 (layout_ok hl).1 a.column v.2 ⟨a, (of_mem_zip hmem).1, rfl, hvalue⟩ ?_
    rwa [← Text.hasName_congr hsame]
  have hcontents : assigned.flatMap (·.2.contents) = (Command.update update).contents :=
    (flatMap_of_forall₂ hby fun a v ha => by rw [ha.2]; rfl).symm
  extract_lets rest
  have hrest : Puts c.objects (Command.update update).contents (rest ()) := by
    refine (puts_refreshedCopies hkeys).andThen fun _ copies _ _ => ?_
    rw [← hcontents]
    refine (Puts.mapM fun v _ => puts_storeColumn v).andLast fun fields => ?_
    split
    · exact puts_nested _ _
    · exact (puts_standaloneFilter h.filter).andLast fun _ => (puts_propagation _ _).ret
  split
  · exact (Puts.throw _).andThen fun _ _ _ hthrow => by cases hthrow
  · exact hrest

theorem uploads_given_values {command : Command} (h : command.LooksUpPlain c.catalog) {s s' : σ} {plan : WritePlan}
    (hplan : c.plan command s = (.ok plan, s')) : s' = c.objects.putAll command.contents s := by
  cases command with
  | select q => cases hplan
  | insert i =>
    obtain ⟨p, hp, -⟩ := bind_pure_ok hplan
    exact puts_planInsert h s p s' hp
  | update u => exact puts_planUpdate h s plan s' hplan
  | delete d => exact puts_planDelete h.filter s plan s' hplan

/-- Orders with items, and a store that keeps what is put there. -/
def keepingOrders : WriteContext (List (List UInt8)) where
  catalog := orders.catalog
  objects := { put := fun content s => (.ok (toString s.length), s ++ [content]), fetch := fun _ _ => .ok [] }

def withBlob : Command :=
  .insert ⟨"items", ["no", "order_id", "note"],
    [[.literal (.integer 1), .literal (.integer 7), .literal (.array [.blob [1, 2], .null, .blob [3]])]]⟩

/-- An insert uploads its large values. A delete uploads those that it looks for, each twice where the rows are
counted first. -/
theorem uploads_given_values_items :
    (∃ plan, keepingOrders.plan withBlob [] = (.ok plan, [[1, 2], [3]])) ∧ withBlob.contents = [[1, 2], [3]] ∧
      ∃ plan, keepingOrders.plan (.delete (withNote (.blob [4]))) [] = (.ok plan, [[4], [4]]) := by
  have hplain : withBlob.LooksUpPlain keepingOrders.catalog := by
    refine ⟨fun t l ht hl name v ⟨row, hrow, hmem⟩ hname => ?_, fun e he => by cases he⟩
    have htable : (keepingOrders.catalog.table "items").map Table.name = .ok "items" := rfl
    have hkeys : (keepingOrders.catalog.layout "items").map Layout.keyColumns = .ok ["no", "order_id"] := rfl
    rw [show keepingOrders.catalog.table "items" = .ok t from ht] at htable
    rw [Except.ok.inj htable] at hl
    rw [hl] at hkeys
    rw [Except.ok.inj hkeys] at hname
    obtain rfl := mem_singleton.mp hrow
    simp only [zip_cons_cons, mem_cons, Prod.mk.injEq, Expression.literal.injEq] at hmem
    rcases hmem with ⟨-, rfl⟩ | ⟨-, rfl⟩ | ⟨rfl, -⟩ | hmem
    · rfl
    · rfl
    · cases hname
    · cases hmem
  have hinsert : ∃ plan s', keepingOrders.plan withBlob [] = (.ok plan, s') := ⟨_, _, rfl⟩
  obtain ⟨plan, s', hplan⟩ := hinsert
  refine ⟨⟨plan, ?_⟩, rfl, _, rfl⟩
  rw [hplan, uploads_given_values hplain hplan]
  rfl

end WriteContext

end Pushdown
