import Pushdown.Proofs.Path
import Pushdown.Write.Plan

/-!
# What an update does to a document

`put?` and `drop` read a path of an update name by name: a name leads to the field of a document, or to a position
in an array when it is written as positions are. Setting a path makes the documents that are missing on the way;
removing one that is not there changes nothing. Two changes of one update may not touch the same place.

Changes at places that part ways (`diverge`) do not depend on each other. That is why it makes no difference that an
update lists all fields to set apart from all fields to remove (`act?_ofEdits`).
-/

namespace Pushdown

open List

/-! ### Fields of documents -/

variable {a b name : String} {value : Bson} {i : Nat} {items : List Bson} {q : List String} {fields : Document}

namespace Document

theorem insert_of_get? {d : Document} {key : String} (h : get? d key = some value) : insert d key value = d := by
  induction d with
  | nil => cases h
  | cons f rest ih =>
    obtain ⟨k, v⟩ := f
    rw [get?_cons] at h
    by_cases hk : k = key
    · rw [if_pos hk] at h
      rw [insert, if_pos hk, Option.some.inj h]
    · rw [if_neg hk] at h
      rw [insert, if_neg hk, ih h]

@[simp] theorem insert_insert (d : Document) (key : String) (v w : Bson) :
    insert (insert d key v) key w = insert d key w := by
  induction d with
  | nil => simp [insert]
  | cons f rest ih => by_cases hk : f.1 = key <;> simp [insert, hk, ih]

theorem insert_comm {d : Document} {w : Bson} (h : get? d b = some w) (hab : a ≠ b) (x y : Bson) :
    insert (insert d a x) b y = insert (insert d b y) a x := by
  induction d with
  | nil => cases h
  | cons f rest ih =>
    obtain ⟨k, v⟩ := f
    rw [get?_cons] at h
    by_cases hb : k = b
    · have ha : k ≠ a := fun ha => hab (ha.symm.trans hb)
      simp only [insert, if_pos hb, if_neg ha]
    · rw [if_neg hb] at h
      by_cases ha : k = a
      · simp only [insert, if_neg hb, if_pos ha]
      · simp only [insert, if_neg ha, if_neg hb, ih h]

theorem erase_insert_of_ne (d : Document) (hab : a ≠ b) (x : Bson) :
    erase (insert d a x) b = insert (erase d b) a x := by
  induction d with
  | nil => simp [insert, erase, hab]
  | cons f rest ih =>
    obtain ⟨k, v⟩ := f
    by_cases ha : k = a
    · have hb : k ≠ b := fun hb => hab (ha.symm.trans hb)
      simp only [insert, if_pos ha, erase_cons, if_neg hb]
    · by_cases hb : k = b
      · simp only [insert, if_neg ha, erase_cons, if_pos hb, ih]
      · simp only [insert, if_neg ha, erase_cons, if_neg hb, ih]

end Document

/-! ### Setting and removing a path -/

namespace Bson

def position? (name : String) : Option Nat := (readIndex? name).filter fun i => toString i == name

def padTo (n : Nat) (items : List Bson) : List Bson :=
  items ++ List.replicate (n - items.length) .null

/-- The value with `value` put where the names lead. Through a value that is neither a document nor
an array no path leads. -/
def put? (value : Bson) : List String → Bson → Option Bson
  | [], _ => some value
  | name :: names, .document fields =>
    (put? value names ((Document.get? fields name).getD (.document []))).map
      fun b => .document (Document.insert fields name b)
  | name :: names, .array items =>
    (position? name).bind fun i =>
      (put? value names (items[i]?.getD (.document []))).map fun b => .array ((padTo (i + 1) items).set i b)
  | _ :: _, _ => none

/-- The value without what the names lead to. An item of an array leaves a null behind. -/
def drop : List String → Bson → Bson
  | [name], .document fields => .document (Document.erase fields name)
  | name :: names, .document fields =>
    match Document.get? fields name with
    | some b => .document (Document.insert fields name (drop names b))
    | none => .document fields
  | [name], .array items =>
    match position? name with
    | some i => .array (items.modify i fun _ => .null)
    | none => .array items
  | name :: names, .array items =>
    match position? name with
    | some i => .array (items.modify i (drop names))
    | none => .array items
  | _, b => b

theorem position?_toString (i : Nat) : position? (toString i) = some i := by
  rw [position?, readIndex?_toString]
  simp

@[simp] theorem position?_repr (i : Nat) : position? i.repr = some i := position?_toString i

theorem toString_of_position? (h : position? name = some i) : name = toString i := by
  rw [position?, Option.filter_eq_some_iff] at h
  exact (beq_iff_eq.mp h.2).symm

theorem padTo_of_le {n : Nat} (h : n ≤ items.length) : padTo n items = items := by
  simp [padTo, Nat.sub_eq_zero_of_le h]

theorem padTo_modify (n : Nat) (items : List Bson) (j : Nat) {f : Bson → Bson}
    (hf : f .null = .null) : (padTo n items).modify j f = padTo n (items.modify j f) := by
  apply ext_getElem?
  intro k
  simp only [padTo, getElem?_modify, getElem?_append, length_modify]
  by_cases hk : k < items.length
  · simp [hk]
  · simp only [hk, if_false, getElem?_replicate]
    split <;> split <;> simp [hf]

theorem modify_set_of_ne (items : List Bson) {j : Nat} (hij : i ≠ j) (b : Bson) (f : Bson → Bson) :
    (items.set i b).modify j f = (items.modify j f).set i b := by
  apply ext_getElem?
  intro k
  grind

theorem modify_set_self (items : List Bson) (i : Nat) (b : Bson) (f : Bson → Bson) :
    (items.set i b).modify i f = items.set i (f b) := by
  apply ext_getElem?
  intro k
  grind

theorem set_modify_self (items : List Bson) (i : Nat) (b : Bson) (f : Bson → Bson) :
    (items.modify i f).set i b = items.set i b := by
  apply ext_getElem?
  intro k
  grind

@[simp] theorem drop_null (names : List String) : drop names .null = .null := by
  cases names with
  | nil => rfl
  | cons name names => cases names <;> rfl

@[simp] theorem drop_empty (names : List String) : drop names (.document []) = .document [] := by
  cases names with
  | nil => rfl
  | cons name names => cases names <;> rfl

theorem drop_singleton_document (name : String) (fields : Document) :
    drop [name] (.document fields) = .document (Document.erase fields name) := rfl

theorem drop_cons_document {names : List String} (hne : names ≠ []) (name : String) (fields : Document) :
    drop (name :: names) (.document fields) =
      match Document.get? fields name with
      | some b => .document (Document.insert fields name (drop names b))
      | none => .document fields := by
  cases names with
  | nil => exact absurd rfl hne
  | cons => rfl

/-- What removing a path through an array does to the item it leads to. -/
def dropItem (names : List String) : Bson → Bson :=
  if names = [] then fun _ => .null else drop names

theorem drop_cons_array (name : String) (names : List String) (items : List Bson) :
    drop (name :: names) (.array items) =
      match position? name with
      | some i => .array (items.modify i (dropItem names))
      | none => .array items := by
  cases names <;> rfl

theorem dropItem_null (names : List String) : dropItem names .null = .null := by
  unfold dropItem; split <;> simp

end Bson

/-! ### Places that part ways -/

/-- Whether two lists of names part ways, so that neither leads into what the other leads to. -/
def Path.diverge : List String → List String → Bool
  | a :: p, b :: q => a != b || diverge p q
  | _, _ => false

namespace Path

variable {p : List String}

theorem diverge_cons_cons (a b : String) (p q : List String) :
    diverge (a :: p) (b :: q) = (a != b || diverge p q) := rfl

theorem diverge_cons : diverge (a :: p) (b :: q) = true ↔ a ≠ b ∨ diverge p q = true := by
  simp [diverge_cons_cons]

theorem diverge_comm (p q : List String) : diverge p q = diverge q p := by
  induction p generalizing q with
  | nil => cases q <;> rfl
  | cons a p ih =>
    cases q with
    | nil => rfl
    | cons b q => rw [diverge_cons_cons, diverge_cons_cons, ih q, bne_comm]

theorem diverge_append_left (start p q : List String) : diverge (start ++ p) (start ++ q) = diverge p q := by
  induction start with
  | nil => rfl
  | cons a start ih => simp [diverge_cons_cons, ih]

theorem diverge_append (h : diverge p q = true) (p' q' : List String) : diverge (p ++ p') (q ++ q') = true := by
  induction p generalizing q with
  | nil => cases q <;> cases h
  | cons a p ih =>
    cases q with
    | nil => cases h
    | cons b q =>
      rcases diverge_cons.mp h with hab | hpq
      · exact diverge_cons.mpr (.inl hab)
      · exact diverge_cons.mpr (.inr (ih hpq))

@[simp] theorem diverge_self (p : List String) : diverge p p = false := by
  induction p with
  | nil => rfl
  | cons a p ih => simp [diverge_cons_cons, ih]

theorem ne_nil_of_diverge (h : diverge p q = true) : p ≠ [] ∧ q ≠ [] := by
  cases p with
  | nil => cases h
  | cons a p =>
    cases q with
    | nil => cases h
    | cons b q => simp

end Path

namespace Bson

theorem put?_drop_of_ne {c : String} (hac : a ≠ c) (p q : List String) (v b : Bson) :
    (put? v (a :: p) b).map (drop (c :: q)) = put? v (a :: p) (drop (c :: q) b) := by
  cases b with
  | document fields =>
    by_cases hq : q = []
    · subst hq
      simp only [put?, drop_singleton_document, Option.map_map, Document.get?_erase_of_ne fields (Ne.symm hac)]
      congr 1
      funext x
      simp [drop_singleton_document, Document.erase_insert_of_ne fields hac]
    · rw [drop_cons_document hq]
      cases hc : Document.get? fields c with
      | none =>
        simp only [put?, Option.map_map]
        congr 1
        funext x
        simp [drop_cons_document hq, Document.get?_insert_of_ne fields x hac, hc]
      | some y =>
        simp only [put?, Option.map_map, Document.get?_insert_of_ne fields _ (Ne.symm hac)]
        congr 1
        funext x
        simp [drop_cons_document hq, Document.get?_insert_of_ne fields x hac, hc, Document.insert_comm hc hac]
  | array items =>
    rw [drop_cons_array]
    cases hc : position? c with
    | none =>
      simp only [put?, Option.map_bind, Function.comp_def, Option.map_map, drop_cons_array, hc]
    | some j =>
      simp only [put?, Option.map_bind, Function.comp_def, Option.map_map, drop_cons_array, hc]
      cases ha : position? a with
      | none => rfl
      | some i =>
        have hij : i ≠ j := by
          rintro rfl
          exact hac ((toString_of_position? ha).trans (toString_of_position? hc).symm)
        simp only [Option.bind_some, getElem?_modify, Ne.symm hij, if_false,
          modify_set_of_ne _ hij, padTo_modify _ _ _ (dropItem_null q)]
        simp
  | _ => cases q <;> rfl

theorem put?_drop {p : List String} (h : Path.diverge p q = true) (v b : Bson) :
    (put? v p b).map (drop q) = put? v p (drop q b) := by
  induction p generalizing q b with
  | nil => cases q <;> cases h
  | cons a p ih =>
    obtain - | ⟨c, q⟩ := q
    · cases h
    by_cases hac : a = c
    · subst hac
      have hpq : Path.diverge p q = true := (Path.diverge_cons.mp h).resolve_left (absurd rfl)
      have hq := (Path.ne_nil_of_diverge hpq).2
      cases b with
      | document fields =>
        rw [drop_cons_document hq]
        cases ha : Document.get? fields a with
        | none =>
          -- the path is made anew, and holds nothing else
          have hnew := ih hpq (.document [])
          rw [drop_empty] at hnew
          simp only [put?, ha, Option.getD_none, Option.map_map, Function.comp_def,
            drop_cons_document hq, Document.get?_insert_self, Document.insert_insert]
          cases hx : put? v p (.document []) with
          | none => rfl
          | some x =>
            rw [hx, Option.map_some, Option.some.injEq] at hnew
            rw [Option.map_some, Option.map_some, hnew]
        | some y =>
          simp only [put?, ha, Option.getD_some, Option.map_map, Function.comp_def,
            drop_cons_document hq, Document.get?_insert_self, Document.insert_insert, ← ih hpq y]
      | array items =>
        rw [drop_cons_array]
        cases ha : position? a with
        | none => simp [put?, ha]
        | some i =>
          simp only [put?, ha, Option.bind_some, Option.map_map, Function.comp_def, drop_cons_array,
            dropItem, hq, if_false, modify_set_self, ← padTo_modify _ _ _ (drop_null q),
            set_modify_self, getElem?_modify, if_true, Option.map_eq_map]
          have hnew : (put? v p (items[i]?.getD (.document []))).map (drop q) =
              put? v p ((items[i]?.map (drop q)).getD (.document [])) := by
            cases items[i]? with
            | none => simpa using ih hpq (.document [])
            | some y => exact ih hpq y
          rw [← hnew, Option.map_map]
          rfl
      | _ => cases q <;> rfl
    · exact put?_drop_of_ne hac p q v b

end Bson

/-! ### Edits -/

/-- One change of an update: a new value for a place, or none when it is removed. -/
structure Edit where
  names : List String
  value : Option Bson

namespace Edit

variable {es : List Edit} {e : Edit}

def act? (e : Edit) (b : Bson) : Option Bson :=
  match e.value with
  | some v => Bson.put? v e.names b
  | none => some (b.drop e.names)

def run? (es : List Edit) (b : Bson) : Option Bson := es.foldlM (fun b e => e.act? b) b

def below (name : String) (e : Edit) : Edit := { e with names := name :: e.names }

def Apart (es : List Edit) : Prop := es.Pairwise fun a b => Path.diverge a.names b.names = true

instance (es : List Edit) : Decidable (Apart es) := inferInstanceAs (Decidable (es.Pairwise _))

@[simp] theorem run?_nil (b : Bson) : run? [] b = some b := rfl

@[simp] theorem run?_cons (e : Edit) (es : List Edit) (b : Bson) : run? (e :: es) b = (e.act? b).bind (run? es) := rfl

theorem run?_append (es fs : List Edit) (b : Bson) : run? (es ++ fs) b = (run? es b).bind (run? fs) := by
  induction es generalizing b with
  | nil => rfl
  | cons e es ih =>
    rw [cons_append, run?_cons, run?_cons, Option.bind_assoc]
    congr 1
    funext c
    exact ih c

theorem act?_comm {f : Edit} (he : e.value.isSome) (hf : f.value.isNone)
    (h : Path.diverge e.names f.names = true) (b : Bson) : (e.act? b).bind f.act? = (f.act? b).bind e.act? := by
  obtain ⟨v, hv⟩ := Option.isSome_iff_exists.mp he
  have hdrop : f.act? = fun c => some (c.drop f.names) := by simp [funext_iff, act?, Option.isNone_iff_eq_none.mp hf]
  have hput : e.act? = Bson.put? v e.names := by simp [funext_iff, act?, hv]
  rw [hdrop, hput, Option.bind_some, ← Bson.put?_drop h]
  exact Option.map_eq_bind.symm

theorem run?_comm (h : ∀ f ∈ es, ∀ b, (e.act? b).bind f.act? = (f.act? b).bind e.act?) (b : Bson) :
    (e.act? b).bind (run? es) = (run? es b).bind e.act? := by
  induction es generalizing b with
  | nil => cases hc : e.act? b <;> simp [hc]
  | cons f es ih =>
    obtain ⟨hf, hes⟩ := forall_mem_cons.mp h
    calc (e.act? b).bind (run? (f :: es))
        = ((e.act? b).bind f.act?).bind (run? es) := (Option.bind_assoc ..).symm
      _ = (f.act? b).bind fun c => (e.act? c).bind (run? es) := by rw [hf, Option.bind_assoc]
      _ = (run? (f :: es) b).bind e.act? := by rw [funext (ih hes), run?_cons, Option.bind_assoc]

theorem run?_partition {p : Edit → Bool}
    (h : es.Pairwise fun e f => p e = false → p f → ∀ b, (e.act? b).bind f.act? = (f.act? b).bind e.act?) :
    run? (es.filter p ++ es.filter (!p ·)) = run? es := by
  induction es with
  | nil => rfl
  | cons e es ih =>
    obtain ⟨he, hes⟩ := pairwise_cons.mp h
    funext b
    cases hp : p e with
    | true => simp [hp, ih hes]
    | false =>
      have hmove := run?_comm (fun f hf => he f (mem_filter.mp hf).1 hp (mem_filter.mp hf).2) b
      calc run? (filter p (e :: es) ++ filter (!p ·) (e :: es)) b
          = ((run? (es.filter p) b).bind e.act?).bind (run? (es.filter (!p ·))) := by
            simp only [hp, filter_cons, Bool.false_eq_true, if_false, Bool.not_false, if_true, run?_append]
            exact (Option.bind_assoc ..).symm
        _ = (e.act? b).bind (run? (es.filter p ++ es.filter (!p ·))) := by
            rw [← hmove, Option.bind_assoc]
            exact congrArg _ (funext fun c => (run?_append ..).symm)
        _ = run? (e :: es) b := by rw [ih hes, run?_cons]

def sets (es : List Edit) : List Edit := es.filter (·.value.isSome)

def unsets (es : List Edit) : List Edit := es.filter (·.value.isNone)

theorem mem_sets : e ∈ sets es ↔ e ∈ es ∧ e.value.isSome :=
  mem_filter

theorem mem_unsets : e ∈ unsets es ↔ e ∈ es ∧ e.value.isNone :=
  mem_filter

theorem sets_cons (e : Edit) (es : List Edit) :
    sets (e :: es) = if e.value.isSome then e :: sets es else sets es := filter_cons

theorem unsets_cons (e : Edit) (es : List Edit) :
    unsets (e :: es) = if e.value.isNone then e :: unsets es else unsets es := filter_cons

theorem sets_append (es fs : List Edit) : sets (es ++ fs) = sets es ++ sets fs := filter_append ..

theorem unsets_append (es fs : List Edit) : unsets (es ++ fs) = unsets es ++ unsets fs :=
  filter_append ..

theorem unsets_eq (es : List Edit) : unsets es = es.filter (!·.value.isSome) := by
  simp [unsets]

theorem run?_sets_append_unsets (h : Apart es) : run? (sets es ++ unsets es) = run? es := by
  rw [unsets_eq]
  refine run?_partition (h.imp fun hab he hf b => (act?_comm hf (by simpa using he) ?_ b).symm)
  rwa [Path.diverge_comm]

theorem run?_unsets_append_sets (h : Apart es) : run? (unsets es ++ sets es) = run? es := by
  have hsets : sets es = es.filter (!·.value.isNone) := by simp [sets]
  rw [hsets]
  refine run?_partition (h.imp ?_)
  intro e f hab he hf b
  exact act?_comm (by simpa using he) hf hab b

theorem sets_append_unsets_perm (es : List Edit) : (sets es ++ unsets es).Perm es := by
  rw [unsets_eq]
  exact filter_append_perm _ _

theorem Apart.perm {es fs : List Edit} (h : Apart es) (hp : es.Perm fs) : Apart fs :=
  List.Pairwise.perm h hp fun hd => by rw [Path.diverge_comm]; exact hd

end Edit

/-! ### Edits further down -/

variable {es : List Edit}

namespace Edit

variable {b : Bson}

theorem act?_below_array (h : items[i]? = some b) {e : Edit} (hne : e.names ≠ []) :
    (e.below (toString i)).act? (.array items) = (e.act? b).map fun c => .array (items.set i c) := by
  have hi : i + 1 ≤ items.length := (List.getElem?_eq_some_iff.mp h).1
  cases hv : e.value with
  | some v => simp [act?, below, hv, Bson.put?, h, Bson.padTo_of_le hi]
  | none =>
    have hset : items.modify i (Bson.drop e.names) = items.set i (b.drop e.names) := by
      apply ext_getElem?
      intro k
      rw [getElem?_modify, getElem?_set]
      by_cases hk : i = k
      · rw [← hk, h]
        simp [Nat.lt_of_succ_le hi]
      · simp [hk]
    simp [act?, below, hv, Bson.drop_cons_array, Bson.dropItem, hne, hset]

theorem run?_below_document (h : Document.get? fields name = some b) (hne : ∀ e ∈ es, e.names ≠ []) :
    run? (es.map (below name)) (.document fields) =
      (run? es b).map fun c => .document (Document.insert fields name c) := by
  induction es generalizing fields b with
  | nil => rw [map_nil, run?_nil, run?_nil, Option.map_some, Document.insert_of_get? h]
  | cons e es ih =>
    have hact : (e.below name).act? (.document fields) =
        (e.act? b).map fun c => .document (Document.insert fields name c) := by
      cases hv : e.value with
      | some v => simp [act?, below, hv, Bson.put?, h]
      | none => simp [act?, below, hv, Bson.drop_cons_document (hne e (mem_cons_self ..)), h]
    rw [map_cons, run?_cons, run?_cons, hact]
    cases he : e.act? b with
    | none => rfl
    | some c =>
      simp only [Option.map_some, Option.bind_some]
      rw [ih (Document.get?_insert_self ..) fun f hf => hne f (mem_cons_of_mem _ hf)]
      simp

theorem run?_below_array (h : items[i]? = some b) (hne : ∀ e ∈ es, e.names ≠ []) :
    run? (es.map (below (toString i))) (.array items) = (run? es b).map fun c => .array (items.set i c) := by
  induction es generalizing items b with
  | nil =>
    obtain ⟨hi, rfl⟩ := List.getElem?_eq_some_iff.mp h
    rw [map_nil, run?_nil, run?_nil, Option.map_some, set_getElem_self]
  | cons e es ih =>
    have hi := (List.getElem?_eq_some_iff.mp h).1
    rw [map_cons, run?_cons, run?_cons, act?_below_array h (hne e (mem_cons_self ..))]
    cases he : e.act? b with
    | none => rfl
    | some c =>
      simp only [Option.map_some, Option.bind_some]
      rw [ih (getElem?_set_self hi) fun f hf => hne f (mem_cons_of_mem _ hf)]
      simp

end Edit

/-! ### Updates -/

namespace Document

variable {d : Document} {key : String}

theorem insert_ne_nil (d : Document) (key : String) (value : Bson) : insert d key value ≠ [] := by
  cases d with
  | nil => simp [insert]
  | cons f rest => rw [insert]; split <;> simp

theorem insert_of_not_mem (h : key ∉ d.map Prod.fst) (value : Bson) : insert d key value = d ++ [(key, value)] := by
  induction d with
  | nil => rfl
  | cons f rest ih =>
    obtain ⟨hf, hrest⟩ := not_or.mp (mt mem_cons.mpr h)
    rw [insert, if_neg (Ne.symm hf), ih hrest, cons_append]

theorem ofFields_of_nodup {fields : Document} (h : (fields.map Prod.fst).Nodup) : ofFields fields = fields := by
  have hfold (d : Document) (hd : ((d ++ fields).map Prod.fst).Nodup) :
      fields.foldl (fun d f => insert d f.1 f.2) d = d ++ fields := by
    clear h
    induction fields generalizing d with
    | nil => simp
    | cons f fields ih =>
      have hnew : f.1 ∉ d.map Prod.fst := by
        rw [map_append, nodup_append] at hd
        exact fun hmem => hd.2.2 _ hmem _ (mem_map_of_mem (mem_cons_self ..)) rfl
      rw [foldl_cons, insert_of_not_mem hnew, ih _ (by simpa using hd), append_assoc, singleton_append]
  exact hfold [] h

theorem nodup_insert (h : (d.map Prod.fst).Nodup) (key : String) (value : Bson) :
    ((insert d key value).map Prod.fst).Nodup := by
  rw [map_fst_insert]
  split
  · exact h
  · rename_i hmem
    refine nodup_append.mpr ⟨h, by simp, fun a ha b hb hab => hmem ?_⟩
    rwa [← mem_singleton.mp hb, ← hab]

theorem mem_map_fst_insert {key : String} :
    name ∈ (insert d key value).map Prod.fst ↔ name ∈ d.map Prod.fst ∨ name = key := by
  rw [map_fst_insert]
  split
  · rename_i hmem
    exact ⟨.inl, fun h => h.elim id fun h => h ▸ hmem⟩
  · rw [mem_append, mem_singleton]

theorem nodup_ofFields (fields : List (String × Bson)) : ((ofFields fields).map Prod.fst).Nodup :=
  foldlRecOn (motive := fun d : Document => (d.map Prod.fst).Nodup) fields _ nodup_nil
    fun _ hd f _ => nodup_insert hd f.1 f.2

variable {fields : List (String × Bson)} {f : String × Bson}

theorem mem_map_fst_ofFields : key ∈ (ofFields fields).map Prod.fst ↔ key ∈ fields.map Prod.fst := by
  have hfold (d : Document) : key ∈ (fields.foldl (fun d f => insert d f.1 f.2) d).map Prod.fst ↔
      key ∈ d.map Prod.fst ∨ key ∈ fields.map Prod.fst := by
    induction fields generalizing d with
    | nil => simp
    | cons f fields ih =>
      rw [foldl_cons, ih, mem_map_fst_insert, map_cons, mem_cons, or_assoc]
  rw [ofFields, hfold]
  simp

theorem mem_of_mem_insert (h : f ∈ insert d key value) : f ∈ d ∨ f = (key, value) := by
  induction d with
  | nil => exact .inr (mem_singleton.mp h)
  | cons f' d ih =>
    rw [insert] at h
    split at h
    · rename_i hkey
      rcases mem_cons.mp h with rfl | h
      · exact .inr (by rw [hkey])
      · exact .inl (mem_cons_of_mem _ h)
    · rcases mem_cons.mp h with rfl | h
      · exact .inl (mem_cons_self ..)
      · exact (ih h).imp_left (mem_cons_of_mem _)

theorem mem_of_mem_ofFields (h : f ∈ ofFields fields) : f ∈ fields := by
  refine foldlRecOn (motive := fun d : Document => ∀ f ∈ d, f ∈ fields) fields _ (by simp) ?_ f h
  intro d hd f' hf' f hf
  rcases mem_of_mem_insert hf with hf | rfl
  · exact hd f hf
  · exact hf'

theorem get?_of_not_mem (h : key ∉ d.map Prod.fst) : get? d key = none := by
  induction d with
  | nil => rfl
  | cons f rest ih =>
    obtain ⟨hf, hrest⟩ := not_or.mp (mt mem_cons.mpr h)
    rw [get?_cons, if_neg (Ne.symm hf), ih hrest]

theorem insertUnder_of_not_mem {op : String} (h : op ∉ d.map Prod.fst) (path : String) (value : Bson) :
    insertUnder d op path value = d ++ [(op, .document [(path, value)])] := by
  rw [insertUnder, get?_of_not_mem h, insert_of_not_mem h]

theorem insertUnder_of_mem {start : Document} {op : String} (h : op ∉ start.map Prod.fst)
    (fields rest : Document) (path : String) (value : Bson) :
    insertUnder (start ++ (op, .document fields) :: rest) op path value =
      start ++ (op, .document (insert fields path value)) :: rest := by
  have hget : ∀ start : Document, op ∉ start.map Prod.fst →
      get? (start ++ (op, .document fields) :: rest) op = some (.document fields) ∧
      ∀ b, insert (start ++ (op, .document fields) :: rest) op b = start ++ (op, b) :: rest := by
    intro start h
    induction start with
    | nil => simp [get?_cons, insert]
    | cons f start ih =>
      obtain ⟨hf, hstart⟩ := not_or.mp (mt mem_cons.mpr h)
      obtain ⟨ih₁, ih₂⟩ := ih hstart
      refine ⟨?_, fun b => ?_⟩
      · rw [cons_append, get?_cons, if_neg (Ne.symm hf), ih₁]
      · rw [cons_append, insert, if_neg (Ne.symm hf), ih₂, cons_append]
  rw [insertUnder, (hget start h).1]
  exact (hget start h).2 _

end Document

namespace Changes

def operatorEdits? : String × Bson → Option (List Edit)
  | ("$set", .document fields) => some (fields.map fun f => ⟨Path.split f.1, some f.2⟩)
  | ("$unset", .document fields) => some (fields.map fun f => ⟨Path.split f.1, none⟩)
  | _ => none

def edits? (changes : Changes) : Option (List Edit) :=
  (changes.mapM operatorEdits?).map List.flatten

def act? (changes : Changes) (d : Document) : Option Document :=
  (edits? changes).bind fun es =>
    if Edit.Apart es then
      match Edit.run? es (.document d) with
      | some (.document d) => some d
      | _ => none
    else
      none

/-- Lists one more edit. -/
def addEdit (changes : Changes) (e : Edit) : Changes :=
  match e.value with
  | some v => changes.assign (Path.join e.names) v
  | none => changes.clear (Path.join e.names)

def ofEdits (es : List Edit) : Changes := es.foldl addEdit []

theorem ofEdits_append (es fs : List Edit) : ofEdits (es ++ fs) = fs.foldl addEdit (ofEdits es) :=
  foldl_append

/-- Both operators, those of them that have fields, with the removals first or last. -/
def render (unsetFirst : Bool) (sets unsets : Document) : Changes :=
  if unsetFirst then operator "$unset" unsets ++ operator "$set" sets
  else operator "$set" sets ++ operator "$unset" unsets

theorem operator_of_ne_nil (op : String) (h : fields ≠ []) : operator op fields = [(op, .document fields)] := by
  rw [operator, if_neg (by simpa using h)]

theorem not_mem_operator (hab : a ≠ b) (fields : Document) : b ∉ (operator a fields).map Prod.fst := by
  rw [operator]; split <;> simp [Ne.symm hab]

theorem insertUnder_second (hab : a ≠ b) (fs gs : Document) (path : String) (v : Bson) :
    Document.insertUnder (operator a fs ++ operator b gs) b path v =
      operator a fs ++ operator b (Document.insert gs path v) := by
  have hb := not_mem_operator hab fs
  rw [operator_of_ne_nil b (Document.insert_ne_nil gs path v)]
  by_cases hgs : gs = []
  · subst hgs
    exact (congrArg (Document.insertUnder · b path v) (append_nil _)).trans (Document.insertUnder_of_not_mem hb path v)
  · rw [operator_of_ne_nil b hgs]
    exact Document.insertUnder_of_mem hb gs [] path v

/-- A field for the first operator goes to its fields, if it has some; otherwise that operator
becomes the second. -/
theorem insertUnder_first (hab : a ≠ b) (fs gs : Document) (path : String) (v : Bson) :
    Document.insertUnder (operator a fs ++ operator b gs) a path v =
      if fs = [] then operator b gs ++ operator a (Document.insert fs path v)
      else operator a (Document.insert fs path v) ++ operator b gs := by
  rw [operator_of_ne_nil a (Document.insert_ne_nil fs path v)]
  split
  · rename_i hfs
    subst hfs
    exact Document.insertUnder_of_not_mem (not_mem_operator (Ne.symm hab) gs) path v
  · rename_i hfs
    rw [operator_of_ne_nil a hfs]
    have hnil : a ∉ ([] : Document).map Prod.fst := not_mem_nil
    exact Document.insertUnder_of_mem hnil fs _ path v

theorem unset_ne_set : "$unset" ≠ "$set" := by decide

theorem assign_render (first : Bool) (sets unsets : Document) (path : String) (v : Bson) :
    ∃ first', (render first sets unsets).assign path v = render first' (Document.insert sets path v) unsets := by
  cases first with
  | true => exact ⟨true, insertUnder_second unset_ne_set unsets sets path v⟩
  | false =>
    have h := insertUnder_first (Ne.symm unset_ne_set) sets unsets path v
    split at h
    · exact ⟨true, h⟩
    · exact ⟨false, h⟩

theorem clear_render (first : Bool) (sets unsets : Document) (path : String) :
    ∃ first', (render first sets unsets).clear path =
      render first' sets (Document.insert unsets path (.string "")) := by
  cases first with
  | false => exact ⟨false, insertUnder_second (Ne.symm unset_ne_set) sets unsets path _⟩
  | true =>
    have h := insertUnder_first unset_ne_set unsets sets path (.string "")
    split at h
    · exact ⟨false, h⟩
    · exact ⟨true, h⟩

def setFields (es : List Edit) : Document := es.map fun e => (Path.join e.names, e.value.getD .null)

def unsetFields (es : List Edit) : Document := es.map fun e => (Path.join e.names, .string "")

theorem foldl_addEdit (first : Bool) (sets unsets : Document)
    (hs : (sets.map Prod.fst ++ (Edit.sets es).map fun e => Path.join e.names).Nodup)
    (hu : (unsets.map Prod.fst ++ (Edit.unsets es).map fun e => Path.join e.names).Nodup) :
    ∃ first', es.foldl addEdit (render first sets unsets) =
      render first' (sets ++ setFields (Edit.sets es)) (unsets ++ unsetFields (Edit.unsets es)) := by
  induction es generalizing first sets unsets with
  | nil => exact ⟨first, by simp [Edit.sets, Edit.unsets, setFields, unsetFields]⟩
  | cons e es ih =>
    cases hv : e.value with
    | some v =>
      have hsets : Edit.sets (e :: es) = e :: Edit.sets es := by simp [Edit.sets_cons, hv]
      have hunsets : Edit.unsets (e :: es) = Edit.unsets es := by simp [Edit.unsets_cons, hv]
      rw [hsets] at hs ⊢
      rw [hunsets] at hu ⊢
      have hnew : Path.join e.names ∉ sets.map Prod.fst := fun hm =>
        (nodup_append.mp hs).2.2 _ hm _ (mem_cons_self ..) rfl
      obtain ⟨first₁, h₁⟩ := assign_render first sets unsets (Path.join e.names) v
      rw [Document.insert_of_not_mem hnew] at h₁
      obtain ⟨first₂, h₂⟩ := ih first₁ (sets ++ [(Path.join e.names, v)]) unsets (by simpa using hs) hu
      refine ⟨first₂, ?_⟩
      rw [foldl_cons, addEdit, hv]
      simp only [h₁, h₂, setFields, map_cons, hv, Option.getD_some, append_assoc, singleton_append]
    | none =>
      have hsets : Edit.sets (e :: es) = Edit.sets es := by simp [Edit.sets_cons, hv]
      have hunsets : Edit.unsets (e :: es) = e :: Edit.unsets es := by simp [Edit.unsets_cons, hv]
      rw [hsets] at hs ⊢
      rw [hunsets] at hu ⊢
      have hnew : Path.join e.names ∉ unsets.map Prod.fst := fun hm =>
        (nodup_append.mp hu).2.2 _ hm _ (mem_cons_self ..) rfl
      obtain ⟨first₁, h₁⟩ := clear_render first sets unsets (Path.join e.names)
      rw [Document.insert_of_not_mem hnew] at h₁
      obtain ⟨first₂, h₂⟩ := ih first₁ sets (unsets ++ [(Path.join e.names, .string "")]) hs (by simpa using hu)
      refine ⟨first₂, ?_⟩
      rw [foldl_cons, addEdit, hv]
      simp only [h₁, h₂, unsetFields, map_cons, append_assoc, singleton_append]

theorem edits?_append (a b : Changes) : edits? (a ++ b) = (edits? a).bind fun es => (edits? b).map (es ++ ·) := by
  simp only [edits?, mapM_append]
  cases ha : List.mapM operatorEdits? a with
  | none => rfl
  | some x =>
    cases hb : List.mapM operatorEdits? b with
    | none => rfl
    | some y => simp [pure]

theorem edits?_set (fields : Document) :
    edits? (operator "$set" fields) = some (fields.map fun f => ⟨Path.split f.1, some f.2⟩) := by
  cases fields with
  | nil => rfl
  | cons f fields => simp [operator, edits?, operatorEdits?]

theorem edits?_unset (fields : Document) :
    edits? (operator "$unset" fields) = some (fields.map fun f => ⟨Path.split f.1, none⟩) := by
  cases fields with
  | nil => rfl
  | cons f fields => simp [operator, edits?, operatorEdits?]

theorem edits?_render {sets unsets : Document} {ss us : List Edit} (hs : edits? (operator "$set" sets) = some ss)
    (hu : edits? (operator "$unset" unsets) = some us) (first : Bool) :
    edits? (render first sets unsets) = some (if first then us ++ ss else ss ++ us) := by
  cases first <;> simp [render, edits?_append, hs, hu]

end Changes

def Edit.Named (e : Edit) : Prop := e.names ≠ [] ∧ ∀ s ∈ e.names, Path.IsName s

namespace Changes

theorem edits?_setFields (h : ∀ e ∈ es, e.Named) :
    edits? (operator "$set" (setFields (Edit.sets es))) = some (Edit.sets es) := by
  rw [edits?_set, setFields, map_map]
  refine congrArg some ((map_congr_left (g := id) fun e he => ?_).trans (map_id _))
  obtain ⟨hmem, hsome⟩ := Edit.mem_sets.mp he
  obtain ⟨v, hv⟩ := Option.isSome_iff_exists.mp hsome
  obtain ⟨names, value⟩ := e
  cases hv
  simp [Path.split_join (h _ hmem).1 (h _ hmem).2]

theorem edits?_unsetFields (h : ∀ e ∈ es, e.Named) :
    edits? (operator "$unset" (unsetFields (Edit.unsets es))) = some (Edit.unsets es) := by
  rw [edits?_unset, unsetFields, map_map]
  refine congrArg some ((map_congr_left (g := id) fun e he => ?_).trans (map_id _))
  obtain ⟨hmem, hnone⟩ := Edit.mem_unsets.mp he
  have hv := Option.isNone_iff_eq_none.mp hnone
  obtain ⟨names, value⟩ := e
  cases hv
  simp [Path.split_join (h _ hmem).1 (h _ hmem).2]

theorem nodup_paths (h : Edit.Apart es) (hn : ∀ e ∈ es, e.Named) : (es.map fun e => Path.join e.names).Nodup := by
  rw [List.Nodup, pairwise_map]
  refine List.Pairwise.imp_of_mem (fun {a b} ha hb hab heq => ?_) h
  have hnames := Path.join_injective (hn a ha).1 (hn b hb).1 (hn a ha).2 (hn b hb).2 heq
  rw [hnames, Path.diverge_self] at hab
  cases hab

end Changes

/-- Edits that do not interfere, at places that a path can name, and what they make of a document. -/
structure Edit.Turn (es : List Edit) (d d' : Document) : Prop where
  apart : Edit.Apart es
  named : ∀ e ∈ es, e.Named
  run : Edit.run? es (.document d) = some (.document d')

namespace Edit.Turn

variable {d d' : Document}

theorem unsets_append_sets (h : Turn es d d') : Turn (unsets es ++ sets es) d d' where
  apart := h.apart.perm ((sets_append_unsets_perm es).symm.trans perm_append_comm)
  named := forall_mem_append.mpr ⟨fun e he => h.named e (mem_unsets.mp he).1, fun e he => h.named e (mem_sets.mp he).1⟩
  run := (congrFun (run?_unsets_append_sets h.apart) _).trans h.run

/-- An update does the edits it lists, as if it did them in the order in which they were added. -/
theorem act?_ofEdits (h : Turn es d d') : Changes.act? (Changes.ofEdits es) d = some d' := by
  have hpaths := Changes.nodup_paths h.apart h.named
  obtain ⟨first, hlist⟩ := Changes.foldl_addEdit false [] []
    (List.Sublist.nodup (filter_sublist.map _) hpaths)
    (List.Sublist.nodup (filter_sublist.map _) hpaths)
  have hlist : Changes.ofEdits es =
      Changes.render first (Changes.setFields (sets es)) (Changes.unsetFields (unsets es)) :=
    hlist
  rw [Changes.act?, hlist, Changes.edits?_render (Changes.edits?_setFields h.named)
      (Changes.edits?_unsetFields h.named),
    Option.bind_some]
  cases first with
  | true => rw [if_pos rfl, if_pos h.unsets_append_sets.apart, h.unsets_append_sets.run]
  | false =>
    rw [if_neg Bool.false_ne_true, if_pos (h.apart.perm (sets_append_unsets_perm es).symm),
      run?_sets_append_unsets h.apart, h.run]

end Edit.Turn

end Pushdown
