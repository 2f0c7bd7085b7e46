import Pushdown.Proofs.AggregateCover
import Pushdown.Proofs.OutputNames

/-!
# Fields of groups

A group is written as one document (`Group.fields`), with the keys under `_id` and a field for each aggregate. A
field is lost where two have one name. A key is `NamedByColumn` or `IsNumbered`, and so are aggregates by their
aliases; `group_fields_of_plan`: a name is taken twice only where a column or an alias is spelled like a number.
-/

namespace Pushdown

open List

namespace Document

theorem ofFields_eq_iff {fields : Document} : ofFields fields = fields ↔ (fields.map Prod.fst).Nodup :=
  ⟨fun h => h ▸ nodup_ofFields fields, ofFields_of_nodup⟩

end Document

def Group.fields (g : Group) : Document :=
  ("_id", g.keys.toBson) :: g.accumulators.map fun a => (a.name, .op a.function.operator a.arg)

theorem Group.toDocument_eq (g : Group) : g.toDocument = Document.ofFields g.fields := by
  rw [toDocument, Document.ofFields, fields, foldl_cons, foldl_map]
  rfl

namespace Select

variable {σ : Type} {c : Context σ} {s s' : Draft σ} {keys : List Expression}
  {ks : List GroupingKey}

/-- The name that a key takes for itself, if its column can be a field. -/
def plainName? : Expression → Option String
  | .column ref => if isPlainField ref.column then some (Text.lower ref.column) else none
  | _ => none

/-- Whether the key at a position is named by its column, which can be a field and is new there. -/
def NamedByColumn (keys : List Expression) (i : Nat) (ref : ColumnRef) : Prop :=
  keys[i]? = some (.column ref) ∧ isPlainField ref.column ∧ Text.lower ref.column ∉ (keys.take i).filterMap plainName?

def IsNumbered (keys : List Expression) (i : Nat) : Prop := i < keys.length ∧ ∀ ref, ¬ NamedByColumn keys i ref

theorem plainName?_eq_some {key : Expression} {name : String} :
    plainName? key = some name ↔
      ∃ ref, key = .column ref ∧ isPlainField ref.column ∧ Text.lower ref.column = name := by
  cases key <;> simp [plainName?]

theorem mem_keyName (position : Nat) (names : List String) (key : Expression) (name : String) :
    name ∈ (keyName position names key).2 ↔ name ∈ names ∨ plainName? key = some name := by
  rw [plainName?_eq_some]
  rcases keyName_cases position names key with ⟨ref, rfl, hplain, -, h⟩ | ⟨htaken, h⟩
  · rw [h, mem_cons, or_comm]
    refine or_congr Iff.rfl ⟨fun hname => ⟨ref, rfl, hplain, hname.symm⟩, ?_⟩
    rintro ⟨ref', href, -, hname⟩
    cases href
    exact hname.symm
  · rw [h]
    refine ⟨.inl, fun hname => hname.elim id ?_⟩
    rintro ⟨ref, href, hplain, rfl⟩
    exact htaken ref href hplain

variable {i : Nat}

theorem name_of_compileKeys {position : Nat} {names : List String}
    (h : compileKeys c position names keys s = (.ok ks, s')) {k : GroupingKey} (hk : ks[i]? = some k) :
    (∃ ref, keys[i]? = some (.column ref) ∧ isPlainField ref.column ∧
      Text.lower ref.column ∉ names ++ (keys.take i).filterMap plainName? ∧ k.name = ref.column) ∨
      (∀ ref, keys[i]? = some (.column ref) → isPlainField ref.column →
        Text.lower ref.column ∈ names ++ (keys.take i).filterMap plainName?) ∧
        k.name = "_k" ++ toString (position + i) := by
  induction keys generalizing position names ks s i with
  | nil =>
    obtain ⟨rfl, -⟩ := Attempt.pure_ok h
    cases hk
  | cons key keys ih =>
    obtain ⟨b, s₁, ks', -, hks, rfl⟩ := compileKeys_cons_ok h
    cases i with
    | zero =>
      cases hk
      rw [take_zero, filterMap_nil, append_nil]
      rcases keyName_cases position names key with ⟨ref, rfl, hplain, hnew, hname⟩ | ⟨htaken, hname⟩
      · exact .inl ⟨ref, rfl, hplain, hnew, by rw [hname]⟩
      · exact .inr ⟨fun ref href => htaken ref (Option.some.inj href), by rw [hname]; rfl⟩
    | succ i =>
      have htaken (name : String) : name ∈ (keyName position names key).2 ++ (keys.take i).filterMap plainName? ↔
          name ∈ names ++ ((key :: keys).take (i + 1)).filterMap plainName? := by
        rw [mem_append, mem_keyName, mem_append, take_succ_cons, mem_filterMap, mem_filterMap]
        simp [or_assoc]
      have hrest := ih hks hk
      simp only [htaken] at hrest
      rw [Nat.add_assoc, Nat.add_comm 1 i] at hrest
      exact hrest

theorem namedByColumn_or_isNumbered (h : compileKeys c 0 [] keys s = (.ok ks, s')) {k : GroupingKey}
    (hk : ks[i]? = some k) :
    (∃ ref, NamedByColumn keys i ref ∧ k.name = ref.column) ∨ IsNumbered keys i ∧ k.name = "_k" ++ toString i := by
  have hlength := (compileKeys_ok h).length_eq
  have hi := (List.getElem?_eq_some_iff.mp hk).1
  rcases name_of_compileKeys h hk with ⟨ref, href, hplain, hnew, hname⟩ | ⟨htaken, hname⟩
  · exact .inl ⟨ref, ⟨href, hplain, hnew⟩, hname⟩
  · refine .inr ⟨⟨hlength ▸ hi, ?_⟩, by rw [hname, Nat.zero_add]⟩
    rintro ref ⟨href, hplain, hnew⟩
    exact hnew (htaken ref href hplain)

theorem NamedByColumn.ne {j : Nat} {ref ref' : ColumnRef} (hij : i < j) (hi : NamedByColumn keys i ref)
    (hj : NamedByColumn keys j ref') : ref.column ≠ ref'.column := by
  intro hname
  refine hj.2.2 (mem_filterMap.mpr ⟨.column ref, ?_, plainName?_eq_some.mpr ⟨ref, rfl, hi.2.1, by rw [hname]⟩⟩)
  exact mem_of_getElem? ((getElem?_take_of_lt hij).trans hi.1)

/-- Keys have different names just when no column that names a key is spelled like a numbered key. -/
theorem nodup_names_iff (h : compileKeys c 0 [] keys s = (.ok ks, s')) :
    (ks.map (·.name)).Nodup ↔
      ∀ i j ref, NamedByColumn keys i ref → IsNumbered keys j → ref.column ≠ "_k" ++ toString j := by
  have hlength := (compileKeys_ok h).length_eq
  constructor
  · intro hnodup i j ref hi hj hname
    have hlt : i < ks.length := hlength ▸ (List.getElem?_eq_some_iff.mp hi.1).1
    have hlt' : j < ks.length := hlength ▸ hj.1
    have hnamed : ks[i].name = ref.column := by
      rcases namedByColumn_or_isNumbered h (getElem?_eq_getElem hlt) with ⟨ref', href', hname'⟩ | ⟨hnumbered, -⟩
      · cases hi.1.symm.trans href'.1
        exact hname'
      · exact absurd hi (hnumbered.2 ref)
    have hnumbered : ks[j].name = "_k" ++ toString j := by
      rcases namedByColumn_or_isNumbered h (getElem?_eq_getElem hlt') with ⟨ref', href', -⟩ | ⟨-, hname'⟩
      · exact absurd href' (hj.2 ref')
      · exact hname'
    have hsame : (ks.map (·.name))[i]? = (ks.map (·.name))[j]? := by
      rw [getElem?_map, getElem?_map, getElem?_eq_getElem hlt, getElem?_eq_getElem hlt']
      simp only [Option.map_some, hnamed, hnumbered, hname]
    have hij : i = j := (getElem?_inj (by simpa using hlt) hnodup).mp hsame
    exact hj.2 ref (hij ▸ hi)
  · intro hne
    rw [nodup_iff_getElem?_ne_getElem?]
    intro i j hij hj hsame
    rw [length_map] at hj
    have hi : i < ks.length := by omega
    rw [getElem?_map, getElem?_map, getElem?_eq_getElem hi, getElem?_eq_getElem hj] at hsame
    have hname : ks[i].name = ks[j].name := Option.some.inj hsame
    have hcases := namedByColumn_or_isNumbered h (getElem?_eq_getElem hi)
    have hcases' := namedByColumn_or_isNumbered h (getElem?_eq_getElem hj)
    rcases hcases with ⟨ref, href, heq⟩ | ⟨hnumbered, heq⟩ <;>
      rcases hcases' with ⟨ref', href', heq'⟩ | ⟨hnumbered', heq'⟩ <;> rw [heq, heq'] at hname
    · exact href.ne hij href' hname
    · exact hne i j ref href hnumbered' hname
    · exact hne j i ref' href' hnumbered hname.symm
    · rw [String.append_right_inj] at hname
      exact absurd (toString_injective hname) (by omega)

namespace Clauses.CompiledFrom

variable {q : Select} {placement : Placement} {r : Clauses σ} {objects : σ}

theorem names_of_compound (h : r.CompiledFrom c placement q { objects }) {keys : List (String × Bson)}
    (hkeys : r.keys = some (.compound keys)) :
    keys.length = q.groupingKeys.length ∧ ((keys.map Prod.fst).Nodup ↔ ∀ i j ref,
      NamedByColumn q.groupingKeys i ref → IsNumbered q.groupingKeys j → ref.column ≠ "_k" ++ toString j) := by
  obtain ⟨ks, s₁, hks, hcases⟩ := compileGroup_ok h.keys
  rcases hcases with ⟨-, hnone⟩ | ⟨-, hsome, -⟩
  · rw [hnone] at hkeys
    split_ifs at hkeys
    cases hkeys
  · have hof : keysOf ks = .compound keys := Option.some.inj (hsome.symm.trans hkeys)
    have hlength : ks.length ≠ 1 := by
      intro hone
      obtain ⟨k, rfl⟩ := length_eq_one_iff.mp hone
      cases hof
    rw [keysOf_of_length hlength] at hof
    cases hof
    rw [← nodup_names_iff hks, (compileKeys_ok hks).length_eq, length_map, map_map]
    exact ⟨rfl, Iff.rfl⟩

/-- Two aggregates get one name only where the earlier has an alias that is spelled like the number of the
later. -/
theorem label_of_clash (h : r.CompiledFrom c placement q { objects }) {keys : GroupKeys} (hkeys : r.keys = some keys)
    {j : Nat} {a b : Accumulator} (hij : i < j) (ha : r.selected.accumulators[i]? = some a)
    (hb : r.selected.accumulators[j]? = some b) (hname : a.name = b.name) :
    b.name = "agg" ++ toString j ∧ ∃ item ∈ q.columns, item.expr.isAggregate ∧ item.label = some b.name := by
  obtain ⟨hnumbered, ⟨item, o⟩, hmem, haggregate, ho⟩ := (h.accounted hkeys).named.clash hij ha hb hname
  refine ⟨hnumbered, item, (of_mem_zip hmem).1, haggregate, ?_⟩
  obtain ⟨n, hn⟩ := getElem?_of_mem hmem
  obtain ⟨hitem, houtput⟩ := getElem?_zip_eq_some.mp hn
  have hnamed := name_of_compileItems h.outputs hitem houtput
  rcases label_or_positional haggregate _ _ with hlabel | ⟨rest, hrest⟩
  · rw [hlabel, ← hnamed, ho]
  · have hlist := congrArg String.toList (hnumbered.symm.trans (ho.symm.trans (hnamed.trans hrest)))
    simp at hlist

end Clauses.CompiledFrom

/-- All keys of an accepted query have fields in its group unless a column is spelled like a numbered key, and all
aggregates do unless an alias is spelled like a numbered aggregate. There is one accumulator for each aggregate that
HAVING and the select items have outside of keys, and none takes the place of the keys. -/
theorem group_fields_of_plan {c : Catalog} {options : Options} {q : Select} {p : Pipeline} {outputs : List Output}
    {g : Group} (h : q.plan c options = .ok (p, outputs)) (hg : p.group = some g) :
    (∀ keys, g.keys = .compound keys → keys.length = q.groupingKeys.length ∧
      (g.keys.toBson = .document keys ↔ (keys.map Prod.fst).Nodup) ∧
      ((keys.map Prod.fst).Nodup ↔ ∀ i j ref, NamedByColumn q.groupingKeys i ref →
        IsNumbered q.groupingKeys j → ref.column ≠ "_k" ++ toString j)) ∧
      "_id" ∉ g.accumulators.map (·.name) ∧
      (g.toDocument = g.fields ↔ (g.accumulators.map (·.name)).Nodup) ∧
      (∀ (i j : Nat) (a b : Accumulator), i < j → g.accumulators[i]? = some a → g.accumulators[j]? = some b →
        a.name = b.name → b.name = "agg" ++ toString j ∧
          ∃ item ∈ q.columns, item.expr.isAggregate ∧ item.label = some b.name) ∧
      ∃ placement texts, c.place q.source = .ok placement ∧ texts.Nodup ∧
        List.Forall₂ (Expression.Computes (placement.context c options)) texts g.accumulators ∧
        ∀ e, (e ∈ q.having ∨ ∃ item ∈ q.columns, item.expr = e) → ∀ a ∈ e.parts, a.isAggregate →
          ∃ part ∈ e.parts, a ∈ part.parts ∧ (part.sql ∈ texts ∨ ∃ key ∈ q.groupingKeys, key.sql = part.sql) := by
  obtain ⟨placement, r, hplace, hr, hgives⟩ := exists_clauses_of_plan h
  rw [hgives.group] at hg
  obtain ⟨keys, hkeys, rfl⟩ := Option.map_eq_some_iff.mp hg
  have haccounted := hr.accounted hkeys
  have hid : "_id" ∉ r.selected.accumulators.map (·.name) := by
    intro hmem
    obtain ⟨a, ha, hname⟩ := mem_map.mp hmem
    exact haccounted.named.name_ne_id ha hname
  refine ⟨?_, hid, ?_, fun i j a b hij ha hb hname => hr.label_of_clash hkeys hij ha hb hname, ?_⟩
  · rintro keys' rfl
    obtain ⟨hlength, hnames⟩ := hr.names_of_compound hkeys
    refine ⟨hlength, ?_, hnames⟩
    rw [GroupKeys.toBson, Bson.document.injEq, Document.ofFields_eq_iff]
  · rw [Group.toDocument_eq, Document.ofFields_eq_iff, Group.fields, map_cons, nodup_cons, map_map]
    exact and_iff_right hid
  · obtain ⟨texts, htexts⟩ := haccounted.accounts
    refine ⟨placement, texts, hplace, htexts.nodup, htexts.accumulators.imp fun _ _ ha => ha.1, ?_⟩
    intro e he a ha haggregate
    obtain ⟨part, hpart, hmem, hfound⟩ := hr.covers hkeys he a ha haggregate
    refine ⟨part, hpart, hmem, ?_⟩
    by_cases htext : part.sql ∈ texts
    · exact .inl htext
    · rw [htexts.others _ htext] at hfound
      obtain ⟨path, hpath⟩ := Option.isSome_iff_exists.mp hfound
      exact .inr (hr.grouped.2 hpath).1

/-- A key and an aggregate are lost when a column is called `_k1` and an alias `agg1`, and only then. -/
theorem group_fields_of_plan_points :
    let c : Catalog := .ofTables [
      { name := "points", columns := [⟨"id", .integer, false⟩, ⟨"x", .integer, false⟩, ⟨"y", .integer, false⟩,
          ⟨"_k1", .integer, false⟩]
        primaryKey := ["id"] }]
    let x : Expression := .column ⟨"", "x"⟩
    let q (column label : String) : Select :=
      { source := ⟨⟨"points", none⟩, []⟩, groupBy := [.column ⟨"", column⟩, .isNull x false]
        columns := [⟨.aggregate .count none false, some label⟩, ⟨.aggregate .max (some x) false, some "max.x"⟩] }
    (∃ p outputs g keys, (q "y" "n").plan c {} = .ok (p, outputs) ∧ p.group = some g ∧ g.keys = .compound keys ∧
      g.keys.toBson = .document keys ∧ g.toDocument = g.fields) ∧
      ∃ p outputs g keys, (q "_k1" "agg1").plan c {} = .ok (p, outputs) ∧ p.group = some g ∧
        g.keys = .compound keys ∧ g.keys.toBson ≠ .document keys ∧ g.toDocument ≠ g.fields := by
  intro c x q
  let keys (column : String) : List (String × Bson) :=
    [(column, .fieldRef column), ("_k1", .opList "$eq" [.opList "$ifNull" [.fieldRef "x", .null], .null])]
  let g (column label : String) : Group :=
    ⟨.compound (keys column), [⟨label, .sum, .int32 1⟩, ⟨"agg1", .max, .fieldRef "x"⟩]⟩
  let outputs (label : String) : List Output :=
    [⟨⟨label, label, .integer⟩, .fieldRef label⟩, ⟨⟨"max.x", "max.x", .integer⟩, .fieldRef "agg1"⟩]
  let p (column label : String) : Pipeline :=
    { collection := "points", group := some (g column label), projection := some (finalProjection (outputs label)) }
  have hclear : (q "y" "n").plan c {} = .ok (p "y" "n", outputs "n") := by
    simp only [c, x, q, keys, g, outputs, p]
    cbv
  have hclash : (q "_k1" "agg1").plan c {} = .ok (p "_k1" "agg1", outputs "agg1") := by
    simp only [c, x, q, keys, g, outputs, p]
    cbv
  obtain ⟨hkeys, -, hfields, -⟩ := group_fields_of_plan hclear rfl
  obtain ⟨hkeys', -, hfields', -⟩ := group_fields_of_plan hclash rfl
  refine ⟨⟨_, _, _, keys "y", hclear, rfl, rfl, ?_, ?_⟩, _, _, _, keys "_k1", hclash, rfl, rfl, ?_, ?_⟩
  · exact (hkeys _ rfl).2.1.mpr (by decide)
  · exact hfields.mpr (by decide)
  · exact fun hall => absurd ((hkeys' _ rfl).2.1.mp hall) (by decide)
  · exact fun hall => absurd (hfields'.mp hall) (by decide)

end Select

end Pushdown
