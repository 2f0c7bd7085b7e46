import Pushdown.Proofs.CalendarText
import Pushdown.Proofs.NestedReading
import Pushdown.Proofs.Parts
import Pushdown.Sql.Codec

/-!
# The written form of expressions

The JSON form of types, values and expressions, read under a bound on the nesting. `Value.readsAt`,
`Expression.readsAt`: the reading gives back what was written, with times `settled`, as long as the form is not
nested deeper than the bound, and fails where it is. Floating-point constants are left out.
-/

namespace Pushdown

open Json List Value

namespace Json

variable {m fuel : Nat} {fields : List (String × Json)}

theorem bound_of_tagged {name : String} {payload : Json}
    (h : min (m + 1) (tagged name payload).depth < fuel + 1) : min m payload.depth < fuel := by
  rw [depth_tagged] at h
  omega

theorem bound_of_field (h : min (m + 1) (Json.object fields).depth < fuel) (name : String)
    {j : Json} (hj : (name, j) ∈ fields) : min m j.depth < fuel := by
  have hdepth : j.depth ≤ depthFields fields := by
    clear h
    induction fields with
    | nil => cases hj
    | cons field fields ih =>
      obtain ⟨k, i⟩ := field
      rw [depthFields]
      rcases mem_cons.mp hj with heq | hj
      · cases heq
        exact Nat.le_max_left ..
      · exact Nat.le_trans (ih hj) (Nat.le_max_right ..)
  rw [depth] at h
  omega

theorem bound_of_item {items : List Json} (h : min (m + 1) (Json.array items).depth < fuel) {j : Json}
    (hj : j ∈ items) : min m j.depth < fuel := by
  have hdepth : j.depth ≤ depthItems items := by
    clear h
    induction items with
    | nil => cases hj
    | cons i items ih =>
      rw [depthItems]
      rcases mem_cons.mp hj with rfl | hj
      · exact Nat.le_max_left ..
      · exact Nat.le_trans (ih hj) (Nat.le_max_right ..)
  rw [depth] at h
  omega

variable {α : Type} {n : Nat} {f : Json → Option α} {name : String} {payload : Json} {a : α}

theorem readsAt_tagged (hzero : f (cutBelow 0 (tagged name payload)) = none) (h : ∀ m, n = m + 1 →
      f (cutBelow (m + 1) (tagged name payload)) = if payload.depth ≤ m then some a else none) :
    ReadsAt n f (tagged name payload) a := by
  rw [ReadsAt, depth_tagged]
  cases n with
  | zero => exact hzero
  | succ m => simpa using h m rfl

theorem readsAt_object (hzero : f (cutBelow 0 (.object fields)) = none) (h : ∀ m, n = m + 1 →
      f (cutBelow (m + 1) (.object fields)) = if depthFields fields ≤ m then some a else none) :
    ReadsAt n f (.object fields) a := by
  rw [ReadsAt, depth]
  cases n with
  | zero => exact hzero
  | succ m => simpa using h m rfl

theorem readsAt_tagged_object (hzero : f (cutBelow 0 (tagged name (.object fields))) = none)
    (hone : f (cutBelow 1 (tagged name (.object fields))) = none) (h : ∀ m, n = m + 2 →
      f (cutBelow (m + 2) (tagged name (.object fields))) =
        if depthFields fields ≤ m then some a else none) : ReadsAt n f (tagged name (.object fields)) a := by
  refine readsAt_tagged hzero fun m hm => ?_
  rw [depth]
  cases m with
  | zero => exact hone
  | succ m => simpa using h m hm

@[simp] theorem whole_ofOption {t : α → Json} {o : Option α} : (ofOption t o).Whole ↔ ∀ a ∈ o, (t a).Whole := by
  cases o <;> simp [ofOption, Whole]

@[simp] theorem wholeItems_map {t : α → Json} {as : List α} : WholeItems (as.map t) ↔ ∀ a ∈ as, (t a).Whole := by
  induction as with
  | nil => simp [WholeItems]
  | cons a as ih => simp [WholeItems, ih]

end Json

variable {fuel n : Nat}

namespace SqlType

theorem readsAt_within (type : SqlType) (hfuel : min n type.toJson.depth < fuel) :
    ReadsAt n (ofJsonWithin? fuel) type.toJson type := by
  induction type generalizing fuel n with
  | array component ih =>
    obtain ⟨fuel, rfl⟩ : ∃ k, fuel = k + 1 := ⟨fuel - 1, by omega⟩
    refine readsAt_tagged rfl fun m hm => ?_
    subst hm
    exact (ih (bound_of_tagged hfuel)).map SqlType.array
  | _ =>
    obtain ⟨fuel, rfl⟩ : ∃ k, fuel = k + 1 := ⟨fuel - 1, by omega⟩
    simp only [ReadsAt, toJson, cutBelow_string, depth, Nat.zero_le, if_true]
    rfl

theorem readsAt (n : Nat) (type : SqlType) : ReadsAt n ofJson? type.toJson type :=
  type.readsAt_within (Nat.lt_succ_of_le (min_depth_le n type.toJson))

theorem whole_toJson (type : SqlType) : type.toJson.Whole := by
  induction type with
  | array component ih => simpa [toJson, tagged, Whole, WholeFields] using ih
  | _ => simp [toJson, Whole]

end SqlType

namespace Value

mutual

def isFloatFree : Value → Bool
  | .float _ => false
  | .double _ => false
  | .array items => allFloatFree items
  | _ => true

def allFloatFree : List Value → Bool
  | [] => true
  | v :: vs => v.isFloatFree && allFloatFree vs

end

theorem readsAt_bytes (n : Nat) (bytes : List UInt8) : ReadsAt n bytesOfJson? (bytesToJson bytes) bytes := by
  refine readsAt_list fun m _ b _ => ?_
  have hbyte := b.toNat_lt
  have hrange : (0 : Int) ≤ b.toNat ∧ (b.toNat : Int) ≤ 255 := by omega
  exact readsAt_width hrange (by simp) m

theorem whole_bytesToJson (bytes : List UInt8) : (bytesToJson bytes).Whole := by
  rw [bytesToJson, Whole]
  induction bytes with
  | nil => simp [WholeItems]
  | cons b bytes ih => exact ⟨⟨_, rfl⟩, ih⟩

mutual

theorem readsAt_within : ∀ (v : Value), v.isFloatFree → ∀ {fuel n : Nat}, min n v.toJson.depth < fuel →
    ReadsAt n (ofJsonWithin? fuel) v.toJson v.settled := by
  intro v hv fuel n hfuel
  obtain ⟨fuel, rfl⟩ : ∃ k, fuel = k + 1 := ⟨fuel - 1, by omega⟩
  cases v with
  | null =>
    simp only [ReadsAt, toJson, cutBelow_string, depth, Nat.zero_le, if_true]
    rfl
  | float x | double x => cases hv
  | boolean b => exact readsAt_tagged rfl fun m _ => (readsAt_bool m b).map boolean
  | byte k =>
    have hrange : -128 ≤ k.toInt ∧ k.toInt ≤ 127 := ⟨k.le_toInt, Int.le_of_lt_add_one k.toInt_lt⟩
    exact readsAt_tagged rfl fun m _ => readsAt_width hrange (congrArg byte k.ofInt_toInt) m
  | short k =>
    have hrange : -32768 ≤ k.toInt ∧ k.toInt ≤ 32767 := ⟨k.le_toInt, Int.le_of_lt_add_one k.toInt_lt⟩
    exact readsAt_tagged rfl fun m _ => readsAt_width hrange (congrArg short k.ofInt_toInt) m
  | integer k =>
    have hrange : -2147483648 ≤ k.toInt ∧ k.toInt ≤ 2147483647 := ⟨k.le_toInt, Int.le_of_lt_add_one k.toInt_lt⟩
    exact readsAt_tagged rfl fun m _ => readsAt_width hrange (congrArg integer k.ofInt_toInt) m
  | long k =>
    have hrange : -9223372036854775808 ≤ k.toInt ∧ k.toInt ≤ 9223372036854775807 :=
      ⟨k.le_toInt, Int.le_of_lt_add_one k.toInt_lt⟩
    exact readsAt_tagged rfl fun m _ => readsAt_width hrange (congrArg long k.ofInt_toInt) m
  | bigInteger k =>
    have hk : BigInteger.ofInt? k.val = some k := dif_pos ⟨k.lower, k.upper⟩
    exact readsAt_tagged rfl fun m _ => ((readsAt_int m k.val).bind hk).map bigInteger
  | bigDecimal text => exact readsAt_tagged rfl fun m _ => (readsAt_string m text).map bigDecimal
  | char c => exact readsAt_tagged rfl fun m _ => (readsAt_char m c).map char
  | string s => exact readsAt_tagged rfl fun m _ => (readsAt_string m s).map string
  | date d =>
    exact readsAt_tagged rfl fun m _ => ((readsAt_string m d.text).bind d.ofText?_text).map date
  | time t =>
    exact readsAt_tagged rfl fun m _ => ((readsAt_string m t.text).bind t.ofText?_text).map time
  | timestamp t =>
    exact readsAt_tagged rfl fun m _ => ((readsAt_string m (t.text "T")).bind t.ofText?_text).map Value.timestamp
  | varbinary bytes => exact readsAt_tagged rfl fun m _ => (readsAt_bytes m bytes).map varbinary
  | blob bytes => exact readsAt_tagged rfl fun m _ => (readsAt_bytes m bytes).map blob
  | clob s => exact readsAt_tagged rfl fun m _ => (readsAt_string m s).map clob
  | xml s => exact readsAt_tagged rfl fun m _ => (readsAt_string m s).map xml
  | array items =>
    refine readsAt_tagged rfl fun m hm => ?_
    subst hm
    have hbound := bound_of_tagged hfuel
    refine (readsAt_array fun k hk => ?_).map array
    subst hk
    exact readsAt_items_within items (by rwa [isFloatFree] at hv) fun j hj => bound_of_item hbound hj

theorem readsAt_items_within : ∀ (vs : List Value), allFloatFree vs → ∀ {fuel n : Nat},
    (∀ j ∈ listToJson vs, min n j.depth < fuel) →
      List.Forall₂ (ReadsAt n (ofJsonWithin? fuel)) (listToJson vs) (allSettled vs)
  | [], _, _, _, _ => by
    rw [listToJson]
    exact .nil
  | v :: vs, hvs, _, _, hfuel => by
    rw [allFloatFree, Bool.and_eq_true] at hvs
    rw [listToJson] at hfuel ⊢
    obtain ⟨hv, hrest⟩ := forall_mem_cons.mp hfuel
    exact .cons (readsAt_within v hvs.1 hv) (readsAt_items_within vs hvs.2 hrest)

end

theorem readsAt {v : Value} (hv : v.isFloatFree) (n : Nat) : ReadsAt n ofJson? v.toJson v.settled :=
  v.readsAt_within hv (Nat.lt_succ_of_le (min_depth_le n v.toJson))

mutual

theorem whole_toJson (v : Value) (hv : v.isFloatFree) : v.toJson.Whole := by
  cases v with
  | array items =>
    rw [isFloatFree] at hv
    simpa [toJson, tagged, Whole, WholeFields] using whole_listToJson items hv
  | varbinary bytes | blob bytes => simpa [toJson, tagged, Whole, WholeFields] using whole_bytesToJson bytes
  | byte n | short n | integer n | long n => exact ⟨⟨n.toInt, rfl⟩, trivial⟩
  | bigInteger n => exact ⟨⟨n.val, rfl⟩, trivial⟩
  | float x | double x => cases hv
  | _ => simp [toJson, tagged, Whole, WholeFields]

theorem whole_listToJson : ∀ (vs : List Value), allFloatFree vs → WholeItems (listToJson vs)
  | [], _ => by simp [listToJson, WholeItems]
  | v :: vs, hvs => by
    rw [allFloatFree, Bool.and_eq_true] at hvs
    rw [listToJson, WholeItems]
    exact ⟨whole_toJson v hvs.1, whole_listToJson vs hvs.2⟩

end

end Value

theorem ColumnRef.readsAt (n : Nat) (c : ColumnRef) : ReadsAt n ofJson? c.toJson c := by
  refine readsAt_object rfl fun m _ => ?_
  rw [ofJson?, record?_cut_object]
  exact required_bind (readsAt_string m c.table) (required_bind (readsAt_string m c.column) (pure_read m c))

theorem ComparisonOp.readsAt (n : Nat) (op : ComparisonOp) : ReadsAt n ofJson? (.string op.name) op := by
  cases op <;> simp only [ReadsAt, name, cutBelow_string, depth, Nat.zero_le, if_true] <;> rfl

theorem AggregateFunction.readsAt (n : Nat) (function : AggregateFunction) :
    ReadsAt n ofJson? (.string function.name) function := by
  cases function <;> simp only [ReadsAt, name, cutBelow_string, depth, Nat.zero_le, if_true] <;> rfl

namespace Expression

/-- Whether none of the constants in an expression is or holds a number of floating point or a time that is
not settled. -/
def IsExact (e : Expression) : Prop := ∀ v, .literal v ∈ e.parts → v.isFloatFree ∧ v.settled = v

theorem IsExact.inner {e e' : Expression} (he : e.IsExact) (h : e' ∈ e.inner) : e'.IsExact :=
  fun v hv => he v (mem_parts.mpr (.inr ⟨e', h, hv⟩))

theorem toJson_ne_null (e : Expression) : e.toJson ≠ .null := by
  cases e with
  | aggregate function arg distinct => cases arg <;> simp [toJson, tagged]
  | _ => simp [toJson, tagged]

theorem listToJson_eq_map (es : List Expression) : listToJson es = es.map toJson := by
  induction es with
  | nil => rw [listToJson, map_nil]
  | cons e es ih => rw [listToJson, map_cons, ih]

variable {es : List Expression}

theorem readsAt_items_within
    (hes : ∀ e ∈ es, ∀ k, min k e.toJson.depth < fuel → ReadsAt k (ofJsonWithin? fuel) e.toJson e)
    (hfuel : min n (Json.array (listToJson es)).depth < fuel) :
    ReadsAt n (list? (ofJsonWithin? fuel)) (.array (listToJson es)) es := by
  rw [listToJson_eq_map] at hfuel ⊢
  refine readsAt_list fun m hm e he => ?_
  subst hm
  exact hes e he m (bound_of_item hfuel (mem_map_of_mem he))

theorem readsAt_within (e : Expression) (he : e.IsExact) (hfuel : min n e.toJson.depth < fuel) :
    ReadsAt n (ofJsonWithin? fuel) e.toJson e := by
  induction e using induction_inner generalizing fuel n with | step e ih =>
  obtain ⟨fuel, rfl⟩ : ∃ k, fuel = k + 1 := ⟨fuel - 1, by omega⟩
  have hinner : ∀ e' ∈ e.inner, ∀ k, min k e'.toJson.depth < fuel →
      ReadsAt k (ofJsonWithin? fuel) e'.toJson e' := fun e' he' _ => ih e' he' (he.inner he')
  clear ih
  cases e with
  | column ref => exact readsAt_tagged rfl fun m _ => (ref.readsAt m).map Expression.column
  | literal v =>
    obtain ⟨hv, hsettled⟩ := he v (self_mem_parts _)
    refine readsAt_tagged rfl fun m _ => ReadsAt.map ?_ Expression.literal
    simpa only [hsettled] using Value.readsAt hv m
  | comparison op left right =>
    refine readsAt_tagged_object rfl rfl fun m hm => ?_
    subst hm
    have hbound := bound_of_tagged hfuel
    have hleft := hinner left (.head _) m (bound_of_field hbound "left" (.tail _ (.head _)))
    have hright := hinner right (.tail _ (.head _)) m (bound_of_field hbound "right" (.tail _ (.tail _ (.head _))))
    rw [ofJsonWithin?, variant?_cut_tagged]
    simp only [record?_cut_object]
    exact required_bind (op.readsAt m) (required_bind hleft (required_bind hright (pure_read m _)))
  | and terms =>
    refine readsAt_tagged rfl fun m hm => ?_
    subst hm
    exact (readsAt_items_within hinner (bound_of_tagged hfuel)).map Expression.and
  | or terms =>
    refine readsAt_tagged rfl fun m hm => ?_
    subst hm
    exact (readsAt_items_within hinner (bound_of_tagged hfuel)).map Expression.or
  | not term =>
    refine readsAt_tagged rfl fun m hm => ?_
    subst hm
    exact (hinner term (.head _) m (bound_of_tagged hfuel)).map Expression.not
  | isIn input list negated =>
    refine readsAt_tagged_object rfl rfl fun m hm => ?_
    subst hm
    have hbound := bound_of_tagged hfuel
    have hinput := hinner input (.head _) m (bound_of_field hbound "expr" (.head _))
    have hlist := readsAt_items_within (fun e' he' => hinner e' (.tail _ he'))
      (bound_of_field hbound "list" (.tail _ (.head _)))
    rw [ofJsonWithin?, variant?_cut_tagged]
    simp only [record?_cut_object]
    exact required_bind hinput (required_bind hlist (defaulted_bind false (readsAt_bool m negated) (pure_read m _)))
  | isNull input negated =>
    refine readsAt_tagged_object rfl rfl fun m hm => ?_
    subst hm
    have hinput := hinner input (.head _) m (bound_of_field (bound_of_tagged hfuel) "expr" (.head _))
    rw [ofJsonWithin?, variant?_cut_tagged]
    simp only [record?_cut_object]
    exact required_bind hinput (defaulted_bind false (readsAt_bool m negated) (pure_read m _))
  | like input pattern escape negated =>
    refine readsAt_tagged_object rfl rfl fun m hm => ?_
    subst hm
    have hbound := bound_of_tagged hfuel
    have hinput := hinner input (.head _) m (bound_of_field hbound "expr" (.head _))
    have hpattern := hinner pattern (.tail _ (.head _)) m (bound_of_field hbound "pattern" (.tail _ (.head _)))
    rw [ofJsonWithin?, variant?_cut_tagged]
    simp only [record?_cut_object]
    have hescape := readsAt_ofOption (o := escape) (fun _ => by simp) fun c _ => readsAt_char m c
    exact required_bind hinput (required_bind hpattern (defaulted_bind none hescape
      (defaulted_bind false (readsAt_bool m negated) (pure_read m _))))
  | call name args =>
    refine readsAt_tagged_object rfl rfl fun m hm => ?_
    subst hm
    have hargs := readsAt_items_within hinner (bound_of_field (bound_of_tagged hfuel) "args" (.tail _ (.head _)))
    rw [ofJsonWithin?, variant?_cut_tagged]
    simp only [record?_cut_object]
    exact required_bind (readsAt_string m name) (required_bind hargs (pure_read m _))
  | aggregate function arg distinct =>
    have harg : ∀ m, n = m + 2 → ReadsAt m (option? (ofJsonWithin? fuel)) (.ofOption toJson arg) arg := by
      intro m hm
      subst hm
      refine readsAt_ofOption toJson_ne_null fun e' he' => ?_
      subst he'
      exact hinner e' (.head _) m (bound_of_field (bound_of_tagged hfuel) "arg" (.tail _ (.head _)))
    cases arg with
    | none | some arg =>
      refine readsAt_tagged_object rfl rfl fun m hm => ?_
      specialize harg m hm
      subst hm
      rw [ofJsonWithin?, variant?_cut_tagged]
      simp only [record?_cut_object]
      exact required_bind (function.readsAt m) (defaulted_bind none harg
        (defaulted_bind false (readsAt_bool m distinct) (pure_read m _)))

theorem readsAt {e : Expression} (he : e.IsExact) (n : Nat) : ReadsAt n ofJson? e.toJson e :=
  e.readsAt_within he (Nat.lt_succ_of_le (min_depth_le n e.toJson))

theorem readsAt_option {o : Option Expression} (ho : ∀ e ∈ o, e.IsExact) (n : Nat) :
    ReadsAt n (option? ofJson?) (.ofOption toJson o) o :=
  readsAt_ofOption toJson_ne_null fun e he => readsAt (ho e he) n

theorem readsAt_exprs (hes : ∀ e ∈ es, e.IsExact) (n : Nat) :
    ReadsAt n (list? ofJson?) (.array (listToJson es)) es := by
  rw [listToJson_eq_map]
  exact readsAt_list fun m _ e he => readsAt (hes e he) m

theorem whole_toJson (e : Expression) (he : e.IsExact) : e.toJson.Whole := by
  induction e using induction_inner with | step e ih =>
  have hinner : ∀ e' ∈ e.inner, e'.toJson.Whole := fun e' he' => ih e' he' (he.inner he')
  cases e with
  | column ref => simp [toJson, ColumnRef.toJson, tagged, Whole, WholeFields]
  | literal v => simpa [toJson, tagged, Whole, WholeFields] using v.whole_toJson (he v (self_mem_parts _)).1
  | aggregate function arg distinct =>
    cases arg with
    | none => simp [toJson, tagged, Whole, WholeFields]
    | some arg => simpa [toJson, tagged, Whole, WholeFields, inner] using hinner
  | _ => simpa [toJson, tagged, Whole, WholeFields, listToJson_eq_map, inner] using hinner

end Expression

end Pushdown
