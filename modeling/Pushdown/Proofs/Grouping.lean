import Pushdown.Proofs.DraftSteps
import Pushdown.Proofs.Path
import Pushdown.Query.Select

/-!
# Grouped queries

The keys of a grouped query are compiled before they are grouped by, each with a field of its own
(`compileKeys_ok`), and are found in the group by their texts from then on. `Clauses.CompiledFrom` takes an accepted
query apart into its clauses and the drafts between them, and `Gives` says what its pipeline is.
-/

namespace Pushdown

open List Attempt Expression

namespace Compiling

variable {α : Type}

def Settled (x : Compiling Unit α) : Prop :=
  ∀ (s t : Draft Unit) a b (s' t' : Draft Unit), x s = (.ok a, s') → x t = (.ok b, t') → a = b

theorem partwise_settled : Partwise fun _ => Settled where
  ofExcept r s t a b s' t' hs ht := Except.ok.inj ((ofExcept_ok hs).1.symm.trans (ofExcept_ok ht).1)
  bind hx hf s t a b s' t' hs ht := by
    obtain ⟨a₁, s₁, hxs, hs⟩ := bind_ok hs
    obtain ⟨b₁, t₁, hxt, ht⟩ := bind_ok ht
    obtain rfl := hx s t a₁ b₁ s₁ t₁ hxs hxt
    exact hf a₁ s₁ t₁ a b s' t' hs ht
  both hx hy s t a b s' t' hs ht := by
    obtain ⟨a₁, a₂, s₁, hxs, hys, rfl⟩ := both_ok hs
    obtain ⟨b₁, b₂, t₁, hxt, hyt, rfl⟩ := both_ok ht
    rw [hx s t a₁ b₁ s₁ t₁ hxs hxt, hy s₁ t₁ a₂ b₂ s' t' hys hyt]

theorem settled_store {c : Context Unit} (v : Value) : Settled (c.store v) := by
  intro s t a b s' t' hs ht
  have hstored := Context.toStored_of_store hs
  rw [Context.toStored_of_store ht] at hstored
  exact (Except.ok.inj (Prod.mk.inj hstored).1).symm

end Compiling

namespace Expression

open Compiling

variable {c : Context Unit}

theorem settled_compile (e : Expression) : Settled (e.compile c .raw) :=
  partwise_compile { partwise_settled with
    register := fun _ _ _ _ _ _ _ _ _ _ => rfl, groupedPath? := by simp, aggregate := by simp } e
    fun v _ => settled_store v

end Expression

namespace Select

open Compiling

variable {σ : Type} {c : Context σ} {position : Nat} {s s' : Draft σ} {names : List String}
  {R : Draft σ → Draft σ → Prop} {ks : List GroupingKey} {outputs : List Output}
  {used : List String} {items : List SelectItem} {keys : List Expression}

/-- How a key is compiled. -/
structure GroupingKey.CompiledFrom (c : Context σ) (e : Expression) (k : GroupingKey) : Prop where
  key : k.key = e
  plain : isPlainField k.name
  compiled : ∃ s s', e.compile c .raw s = (.ok k.expression, s')

theorem isPlainField_numbered (n : Nat) : isPlainField ("_k" ++ toString n) := by
  have hdot : '.' ∉ (toString n).toList := (toString_isName n).2
  generalize toString n = t at hdot
  have hid : "_k" ++ t ≠ "_id" := by
    intro h
    have hlist := congrArg String.toList h
    simp at hlist
  simp [isPlainField, hdot, hid]

theorem keyName_cases (position : Nat) (names : List String) (key : Expression) :
    (∃ ref, key = .column ref ∧ isPlainField ref.column ∧ Text.lower ref.column ∉ names ∧
      keyName position names key = (ref.column, Text.lower ref.column :: names)) ∨
      (∀ ref, key = .column ref → isPlainField ref.column → Text.lower ref.column ∈ names) ∧
        keyName position names key = ("_k" ++ toString position, names) := by
  cases key with
  | column ref =>
    by_cases h : isPlainField ref.column && !names.contains (Text.lower ref.column)
    · refine .inl ⟨ref, rfl, ?_, ?_, if_pos h⟩
      · exact (Bool.and_eq_true_iff.mp h).1
      · simpa using (Bool.and_eq_true_iff.mp h).2
    · refine .inr ⟨fun ref' href hplain => ?_, if_neg h⟩
      cases href
      simpa [hplain] using h
  | _ => exact .inr ⟨fun _ href => (by cases href), rfl⟩

theorem isPlainField_keyName (position : Nat) (names : List String) (key : Expression) :
    isPlainField (keyName position names key).1 := by
  rcases keyName_cases position names key with ⟨ref, -, hplain, -, h⟩ | ⟨-, h⟩
  · rw [h]
    exact hplain
  · rw [h]
    exact isPlainField_numbered position

theorem compileKeys_cons_ok {key : Expression} (h : compileKeys c position names (key :: keys) s = (.ok ks, s')) :
    ∃ b s₁ ks', key.compile c .raw s = (.ok b, s₁) ∧
      compileKeys c (position + 1) (keyName position names key).2 keys s₁ = (.ok ks', s') ∧
      ks = ⟨key, (keyName position names key).1, b⟩ :: ks' := by
  rw [compileKeys] at h
  split at h
  · cases h
  · obtain ⟨b, s₁, hb, h⟩ := bind_ok h
    obtain ⟨ks', hks, rfl⟩ := bind_pure_ok h
    exact ⟨b, s₁, ks', hb, hks, rfl⟩

theorem compileKeys_ok (h : compileKeys c position names keys s = (.ok ks, s')) :
    List.Forall₂ (GroupingKey.CompiledFrom c) keys ks := by
  induction keys generalizing position names ks s with
  | nil =>
    obtain ⟨rfl, -⟩ := pure_ok h
    exact .nil
  | cons key keys ih =>
    obtain ⟨b, s₁, ks', hb, hks, rfl⟩ := compileKeys_cons_ok h
    exact .cons ⟨rfl, isPlainField_keyName .., s, s₁, hb⟩ (ih hks)

/-- Whether a name may be given to a key from a position on, when `names` are taken. -/
def IsFreeName (position : Nat) (names : List String) (name : String) : Prop :=
  (∃ n, position ≤ n ∧ name = "_k" ++ toString n) ∨ Path.hasPrefix "_k" name = false ∧ Text.lower name ∉ names

variable {name : String}

theorem IsFreeName.of_succ (h : IsFreeName (position + 1) names name) : IsFreeName position names name := by
  rcases h with ⟨n, hn, hname⟩ | hother
  · exact .inl ⟨n, by omega, hname⟩
  · exact .inr hother

theorem hasPrefix_numbered (n : Nat) : Path.hasPrefix "_k" ("_k" ++ toString n) := by
  rw [Path.hasPrefix, isPrefixOf_iff_prefix, String.toList_append]
  exact prefix_append ..

theorem names_of_compileKeys (h : compileKeys c position names keys s = (.ok ks, s'))
    (hkeys : ∀ ref, .column ref ∈ keys → Path.hasPrefix "_k" ref.column = false) :
    (ks.map (·.name)).Nodup ∧ ∀ k ∈ ks, IsFreeName position names k.name := by
  induction keys generalizing position names ks s with
  | nil =>
    obtain ⟨rfl, -⟩ := pure_ok h
    exact ⟨nodup_nil, by simp⟩
  | cons key keys ih =>
    obtain ⟨b, s₁, ks', -, hks, rfl⟩ := compileKeys_cons_ok h
    obtain ⟨hnodup, hfree⟩ := ih hks fun ref href => hkeys ref (mem_cons_of_mem _ href)
    rcases keyName_cases position names key with ⟨ref, rfl, -, hnew, hname⟩ | ⟨-, hname⟩
    · have hcolumn := hkeys ref (mem_cons_self ..)
      simp only [hname, map_cons, nodup_cons, forall_mem_cons] at hfree ⊢
      refine ⟨⟨fun hmem => ?_, hnodup⟩, .inr ⟨hcolumn, hnew⟩, fun k hk => ?_⟩
      · obtain ⟨k, hk, hsame⟩ := mem_map.mp hmem
        rcases hfree k hk with ⟨n, -, hn⟩ | ⟨-, hother⟩
        · rw [← hsame, hn, hasPrefix_numbered] at hcolumn
          cases hcolumn
        · exact hother (hsame ▸ mem_cons_self ..)
      · refine Or.imp_right (fun hfree => ⟨hfree.1, fun hmem => hfree.2 (mem_cons_of_mem _ hmem)⟩) (hfree k hk).of_succ
    · simp only [hname, map_cons, nodup_cons, forall_mem_cons] at hfree ⊢
      refine ⟨⟨fun hmem => ?_, hnodup⟩, .inl ⟨position, Nat.le_refl _, rfl⟩, fun k hk => ?_⟩
      · obtain ⟨k, hk, hsame⟩ := mem_map.mp hmem
        rcases hfree k hk with ⟨n, hn, heq⟩ | ⟨hstart, -⟩
        · rw [hsame, String.append_right_inj] at heq
          have hnumber := toString_injective heq
          omega
        · rw [hsame, hasPrefix_numbered] at hstart
          cases hstart
      · exact (hfree k hk).of_succ

def keyPath (count : Nat) (k : GroupingKey) : String := if count = 1 then "_id" else "_id." ++ k.name

theorem groupedPath?_foldl_registerGrouped (count : Nat) (ks : List GroupingKey) (r : Registry) (text : String) :
    let found := (ks.foldl (fun r k => r.registerGrouped k.key.sql (.ofExpression k.expression) (keyPath count k))
      r).groupedPath? text
    (found = r.groupedPath? text ∧ ∀ k ∈ ks, k.key.sql ≠ text) ∨
      ∃ k ∈ ks, k.key.sql = text ∧ found = some (keyPath count k) := by
  induction ks generalizing r with
  | nil => exact .inl ⟨rfl, by simp⟩
  | cons k ks ih =>
    rw [foldl_cons]
    rcases ih (r.registerGrouped k.key.sql (.ofExpression k.expression) (keyPath count k)) with
      ⟨hfound, hks⟩ | ⟨k', hk', htext, hfound⟩
    · rw [Registry.groupedPath?_registerGrouped] at hfound
      by_cases hk : text = k.key.sql
      · rw [if_pos hk] at hfound
        exact .inr ⟨k, mem_cons_self .., hk.symm, hfound⟩
      · rw [if_neg hk] at hfound
        exact .inl ⟨hfound, forall_mem_cons.mpr ⟨Ne.symm hk, hks⟩⟩
    · exact .inr ⟨k', mem_cons_of_mem _ hk', htext, hfound⟩

def keysOf : List GroupingKey → GroupKeys
  | [k] => .single k.expression
  | ks => .compound (ks.map fun k => (k.name, k.expression))

theorem compileGroup_ok {q : Select} {keys : Option GroupKeys} (h : compileGroup c q s = (.ok keys, s')) :
    ∃ ks s₁, compileKeys c 0 [] q.groupingKeys s = (.ok ks, s₁) ∧
      ((ks = [] ∧ keys = if q.aggregates then some .none else none) ∨
        (ks ≠ [] ∧ keys = some (keysOf ks) ∧ s' = { s₁ with registry := registerKeys ks s₁.registry })) := by
  rw [compileGroup] at h
  obtain ⟨ks, s₁, hks, h⟩ := bind_ok h
  refine ⟨ks, s₁, hks, ?_⟩
  rcases ks with _ | ⟨k, _ | ⟨k', ks⟩⟩
  · obtain ⟨rfl, -⟩ := pure_ok h
    exact .inl ⟨rfl, rfl⟩
  · cases h
    exact .inr ⟨by simp, rfl, rfl⟩
  · cases h
    exact .inr ⟨by simp, rfl, rfl⟩

theorem traces_compileItem {scope : Scope} (hR : Draft.IsTrace R)
    (hacc : scope = .grouped → Expression.Accumulates c none R) {e : Expression}
    (hwanted : scope = .grouped → e.isAggregate → Expression.Accumulates c (some name) R) :
    Traces R (compileItem c scope name e) := by
  cases e with
  | aggregate function arg distinct =>
    cases scope with
    | raw => exact traces_compile hR .raw hacc _
    | grouped =>
      exact traces_compileAggregate hR (hwanted rfl rfl) function arg distinct
  | literal v => exact hR.partwise.bind (traces_store hR v) fun _ => hR.partwise.ofExcept _
  | _ => exact traces_compile hR scope hacc _

theorem compileItem_of_groupedPath? {path : String} {e : Expression} (he : ∀ v, e ≠ .literal v) {s : Draft σ}
    (hpath : s.registry.groupedPath? e.sql = some path) :
    compileItem c .grouped name e s = (.ok (.fieldRef path), s) := by
  have hfound : (groupedPath? e.sql : Compiling σ (Option String)) s = (.ok (some path), s) := by
    rw [← hpath]
    rfl
  cases e with
  | literal v => exact absurd rfl (he v)
  | _ => exact bind_of_ok hfound _

def givenOut (s : Draft σ) (text : String) (b : Bson) (label : String) : Draft σ :=
  { s with registry := (s.registry.register text (.ofExpression b)).addLabel text label }

theorem compileItems_cons_ok {scope : Scope} {item : SelectItem}
    (h : compileItems c scope position used (item :: items) s = (.ok outputs, s')) :
    ∃ b type s₁ rest, compileItem c scope (outputName used position item) item.expr s = (.ok b, s₁) ∧
      compileItems c scope (position + 1) (Text.lower (outputName used position item) :: used) items
        (givenOut s₁ item.expr.sql b (outputName used position item)) = (.ok rest, s') ∧
      outputs = ⟨⟨outputName used position item,
        outputPath scope (!s₁.helperFields.isEmpty) (outputName used position item) b, type⟩, b⟩ :: rest := by
  rw [compileItems] at h
  obtain ⟨b, s₁, hb, h⟩ := bind_ok h
  obtain ⟨type, s₂, htype, h⟩ := bind_ok h
  obtain ⟨-, rfl⟩ := ofExcept_ok htype
  obtain ⟨_, s₃, hregister, h⟩ := bind_ok h
  obtain ⟨_, s₄, hget, h⟩ := bind_ok h
  obtain ⟨rest, hrest, rfl⟩ := bind_pure_ok h
  cases hregister
  cases hget
  exact ⟨b, type, s₁, rest, hb, hrest, rfl⟩

/-- Whatever holds of the changes, and of giving a value out under a name, holds of what comes before and
after each select item of a grouped query. -/
theorem traces_compileItems (hR : Draft.IsTrace R)
    (hlabel : ∀ (s : Draft σ) text label, R s { s with registry := s.registry.addLabel text label })
    (hacc : Expression.Accumulates c none R) (h : compileItems c .grouped position used items s = (.ok outputs, s'))
    (hwanted : ∀ p ∈ items.zip outputs, p.1.expr.isAggregate → Expression.Accumulates c (some p.2.column.name) R) :
    R s s' ∧ List.Forall₂ (fun item o => ∃ s₁ s₂, R s s₁ ∧ R s₂ s' ∧
      compileItem c .grouped o.column.name item.expr s₁ = (.ok o.expression, s₂) ∧
      o.column.path = outputPath .grouped (!s₂.helperFields.isEmpty) o.column.name o.expression) items outputs := by
  induction items generalizing position used outputs s with
  | nil =>
    obtain ⟨rfl, rfl⟩ := pure_ok h
    exact ⟨hR.refl s, .nil⟩
  | cons item items ih =>
    obtain ⟨b, type, s₁, rest, hb, hrest, rfl⟩ := compileItems_cons_ok h
    rw [zip_cons_cons, forall_mem_cons] at hwanted
    have hitem := traces_compileItem hR (fun _ => hacc) (fun _ => hwanted.1) s b s₁ hb
    have hgiven : R s₁ (givenOut s₁ item.expr.sql b (outputName used position item)) :=
      hR.trans (hR.register s₁ item.expr.sql b) (hlabel _ _ _)
    obtain ⟨hafter, houtputs⟩ := ih hrest hwanted.2
    have hleft := hR.trans hgiven hafter
    refine ⟨hR.trans hitem hleft, .cons ⟨s, s₁, hR.refl s, hleft, hb, rfl⟩ (houtputs.imp ?_)⟩
    rintro item' o ⟨t, t', ht, ht', hcompile, hpath⟩
    exact ⟨t, t', hR.trans hitem (hR.trans hgiven ht), ht', hcompile, hpath⟩

theorem compileItems_ok (h : compileItems c .grouped position used items s = (.ok outputs, s')) :
    s'.helperFields = s.helperFields ∧
      List.Forall₂ (fun item o => ∃ s₁ s₂ : Draft σ,
        (∀ text path, s.registry.groupedPath? text = some path → s₁.registry.groupedPath? text = some path) ∧
        compileItem c .grouped o.column.name item.expr s₁ = (.ok o.expression, s₂) ∧
        o.column.path = outputPath .grouped (!s.helperFields.isEmpty) o.column.name o.expression) items outputs := by
  obtain ⟨hkeeps, houtputs⟩ := traces_compileItems Draft.isTrace_keeps Draft.keeps_label
    (accumulates_keeps c none) h fun _ _ _ => accumulates_keeps c _
  refine ⟨hkeeps.helperFields, houtputs.imp ?_⟩
  rintro item o ⟨s₁, s₂, hs₁, hs₂, hcompile, hpath⟩
  refine ⟨s₁, s₂, fun text path => hs₁.groupedPath?, hcompile, ?_⟩
  rw [hpath, ← hs₂.helperFields, hkeeps.helperFields]

def compileHaving (c : Context σ) (q : Select) : Compiling σ (Option Condition) :=
  match q.having with
  | some e => conditionOf (e.conjuncts.map (Expression.filter c .grouped))
  | none => pure none

def compileRest (c : Context σ) (placement : Placement) (q : Select) (filter having : Option Condition)
    (keys : Option GroupKeys) (outputs : List Output) (d : Draft σ) : Compiling σ (Pipeline × List Output) := do
  let early := !d.helperFields.isEmpty
  let sort ← Attempt.ofExcept (sortKeys d.registry outputs q.orderBy)
  let skip ← Attempt.ofExcept (signedOr .offsetOutOfRange q.offset)
  let limit ← Attempt.ofExcept (signedOr .limitOutOfRange q.limit)
  let earlyProjection ←
    if early then some <$> Attempt.ofExcept (earlyProjection d outputs keys.isSome)
    else pure none
  let top ← Attempt.ofExcept ((c.catalog.layout placement.top).mapError .layout)
  return (
    { collection := top.collection
      prestages := placement.prestages
      earlyProjection := earlyProjection
      filter := filter
      group := keys.map fun keys => ⟨keys, d.accumulators⟩
      having := having
      projection := if early then none else some (finalProjection outputs)
      sort := sort
      skip := skip
      limit := limit },
    outputs)

theorem compileClauses_eq (c : Context σ) (placement : Placement) (q : Select) :
    compileClauses c placement q = (do
      let joinTerms ← Attempt.ofExcept (joinTerms c placement.joins)
      let filter ← conditionOf (((q.filter.map conjuncts).getD [] ++ joinTerms).map (whereTerm c))
      let keys ← compileGroup c q
      let having ← compileHaving c q
      let outputs ← compileItems c (if keys.isSome then .grouped else .raw) 0 [] q.columns
      let d ← get
      if !d.helperFields.isEmpty && keys.isSome then
        Attempt.ofExcept (checkGroupOutputs d.accumulators outputs)
      compileRest c placement q filter having keys outputs d) := by
  rw [compileClauses]
  simp only [compileHaving]
  cases q.having <;> rfl

theorem traces_compileHaving (hR : Expression.IsFilterTrace c .grouped R) (q : Select) :
    Traces R (compileHaving c q) := by
  rw [compileHaving]
  split
  · refine hR.partwise.bind (hR.partwise.all fun x hx => ?_) fun _ => hR.partwise.pure _
    obtain ⟨e, -, rfl⟩ := mem_map.mp hx
    exact traces_filter hR e
  · exact hR.partwise.pure _

/-- What the clauses of a query are compiled to, and the drafts after WHERE, GROUP BY, HAVING and SELECT. -/
structure Clauses (σ : Type) where
  filter : Option Condition
  keys : Option GroupKeys
  having : Option Condition
  outputs : List Output
  filtered : Draft σ
  grouped : Draft σ
  tested : Draft σ
  selected : Draft σ

namespace Clauses

variable {placement : Placement} {q : Select} {r : Clauses σ} {p : Pipeline}

/-- Whether all clauses compile, from a draft on. -/
structure CompiledFrom (c : Context σ) (placement : Placement) (q : Select) (s : Draft σ) (r : Clauses σ) : Prop where
  filter : ∃ terms, joinTerms c placement.joins = .ok terms ∧
    conditionOf (((q.filter.map Expression.conjuncts).getD [] ++ terms).map (whereTerm c)) s =
      (.ok r.filter, r.filtered)
  keys : compileGroup c q r.filtered = (.ok r.keys, r.grouped)
  having : compileHaving c q r.grouped = (.ok r.having, r.tested)
  outputs : compileItems c (if r.keys.isSome then .grouped else .raw) 0 [] q.columns r.tested =
    (.ok r.outputs, r.selected)

def finish (c : Context σ) (placement : Placement) (q : Select) (r : Clauses σ) :
    Compiling σ (Pipeline × List Output) := do
  if !r.selected.helperFields.isEmpty && r.keys.isSome then
    Attempt.ofExcept (checkGroupOutputs r.selected.accumulators r.outputs)
  compileRest c placement q r.filter r.having r.keys r.outputs r.selected

theorem CompiledFrom.compileClauses_eq (h : r.CompiledFrom c placement q s) :
    compileClauses c placement q s = r.finish c placement q r.selected := by
  obtain ⟨terms, hterms, hfilter⟩ := h.filter
  have hjoins : (Attempt.ofExcept (joinTerms c placement.joins) : Compiling σ (List Expression)) s =
      (.ok terms, s) := by
    rw [hterms]
    rfl
  rw [Select.compileClauses_eq, bind_of_ok hjoins, bind_of_ok hfilter, bind_of_ok h.keys,
    bind_of_ok h.having, bind_of_ok h.outputs]
  rfl

theorem CompiledFrom.outputs_of_keys (h : r.CompiledFrom c placement q s) {keys : GroupKeys}
    (hkeys : r.keys = some keys) : compileItems c .grouped 0 [] q.columns r.tested = (.ok r.outputs, r.selected) := by
  have houtputs := h.outputs
  rwa [hkeys] at houtputs

theorem exists_of_compileClauses (h : compileClauses c placement q s = (.ok (p, outputs), s')) :
    ∃ r : Clauses σ, r.CompiledFrom c placement q s ∧ r.finish c placement q r.selected = (.ok (p, outputs), s') := by
  rw [Select.compileClauses_eq] at h
  obtain ⟨terms, t₁, hterms, h⟩ := bind_ok h
  obtain ⟨hjoins, rfl⟩ := ofExcept_ok hterms
  obtain ⟨filter, t₂, hfilter, h⟩ := bind_ok h
  obtain ⟨keys, t₃, hkeys, h⟩ := bind_ok h
  obtain ⟨having, t₄, hhaving, h⟩ := bind_ok h
  obtain ⟨outputs', t₅, hitems, h⟩ := bind_ok h
  exact ⟨⟨filter, keys, having, outputs', t₂, t₃, t₄, t₅⟩, ⟨⟨terms, hjoins, hfilter⟩, hkeys, hhaving, hitems⟩, h⟩

/-- What the pipeline of compiled clauses is. -/
structure Gives (r : Clauses σ) (p : Pipeline) (outputs : List Output) : Prop where
  outputs : outputs = r.outputs
  group : p.group = r.keys.map (⟨·, r.selected.accumulators⟩)
  having : p.having = r.having
  projection : p.projection = if r.selected.helperFields.isEmpty then some (finalProjection r.outputs) else none
  early : r.selected.helperFields.isEmpty = false →
    ∃ e, earlyProjection r.selected r.outputs r.keys.isSome = .ok e ∧ p.earlyProjection = some e
  late : r.selected.helperFields.isEmpty → p.earlyProjection = none
  checked : r.selected.helperFields.isEmpty = false → r.keys.isSome →
    checkGroupOutputs r.selected.accumulators r.outputs = .ok ()

theorem Gives.group_eq_some (h : r.Gives p outputs) {keys : GroupKeys} (hkeys : r.keys = some keys) :
    p.group = some ⟨keys, r.selected.accumulators⟩ := by
  rw [h.group, hkeys]
  rfl

theorem Gives.projection_eq_none (h : r.Gives p outputs) (hearly : r.selected.helperFields.isEmpty = false) :
    p.projection = none := by
  rw [h.projection, hearly]
  rfl

theorem gives_of_compileRest {t : Draft σ}
    (h : compileRest c placement q r.filter r.having r.keys r.outputs r.selected t = (.ok (p, outputs), s'))
    (hchecked : r.selected.helperFields.isEmpty = false → r.keys.isSome →
      checkGroupOutputs r.selected.accumulators r.outputs = .ok ()) : r.Gives p outputs := by
  rw [compileRest] at h
  obtain ⟨sort, t₁, -, h⟩ := bind_ok h
  obtain ⟨skip, t₂, -, h⟩ := bind_ok h
  obtain ⟨limit, t₃, -, h⟩ := bind_ok h
  cases hearly : r.selected.helperFields.isEmpty with
  | true =>
    simp only [hearly, Bool.not_true, Bool.false_eq_true, if_false] at h
    obtain ⟨projection, t₄, hprojection, h⟩ := bind_ok h
    obtain ⟨rfl, -⟩ := pure_ok hprojection
    obtain ⟨top, t₅, -, h⟩ := bind_ok h
    cases (pure_ok h).1
    exact ⟨rfl, rfl, rfl, by simp [hearly], by simp [hearly], fun _ => rfl, hchecked⟩
  | false =>
    simp only [hearly, Bool.not_false, if_true] at h
    obtain ⟨projection, t₄, hprojection, h⟩ := bind_ok h
    obtain ⟨e, he, rfl⟩ := map_ok hprojection
    obtain ⟨top, t₅, -, h⟩ := bind_ok h
    cases (pure_ok h).1
    exact ⟨rfl, rfl, rfl, by simp [hearly], fun _ => ⟨e, (ofExcept_ok he).1, rfl⟩, by simp [hearly], hchecked⟩

theorem gives_of_finish (h : r.finish c placement q r.selected = (.ok (p, outputs), s')) : r.Gives p outputs := by
  rw [finish] at h
  split at h
  · obtain ⟨_, t, hcheck, h⟩ := bind_ok h
    exact gives_of_compileRest h fun _ _ => (ofExcept_ok hcheck).1
  · rename_i hskip
    refine gives_of_compileRest h fun hearly hgrouped => absurd ?_ hskip
    rw [hearly, hgrouped]
    rfl

end Clauses

theorem compileClauses_ok {placement : Placement} {q : Select} {p : Pipeline}
    (h : compileClauses c placement q s = (.ok (p, outputs), s')) :
    ∃ keys s₁ s₂ s₃ s₄, compileGroup c q s₁ = (.ok keys, s₂) ∧ s₂.Steps .grouped s₃ ∧
      compileItems c (if keys.isSome then .grouped else .raw) 0 [] q.columns s₃ = (.ok outputs, s₄) ∧
      p.group = keys.map (⟨·, s₄.accumulators⟩) ∧
      p.projection = if s₄.helperFields.isEmpty then some (finalProjection outputs) else none := by
  obtain ⟨r, hr, hfinish⟩ := Clauses.exists_of_compileClauses h
  have hgives := Clauses.gives_of_finish hfinish
  obtain rfl := hgives.outputs
  have hsteps := traces_compileHaving (isFilterTrace_steps c) q r.grouped r.having r.tested hr.having
  exact ⟨r.keys, r.filtered, r.grouped, r.tested, r.selected, hr.keys, hsteps, hr.outputs, hgives.group,
    hgives.projection⟩

end Select

end Pushdown
