import Pushdown.Proofs.Partwise

/-!
# What compiling leaves behind

Compiling changes a draft in few ways: the state of the store of large objects changes, a value is met, a predicate
is to be computed ahead of the match, or an aggregate is to be computed for a group. `traces_compile`: a relation
between drafts that holds of each of them, and of one after the other (`IsTrace`), holds of whatever is compiled.
-/

namespace Pushdown

open List Attempt Registry

namespace Registry

variable {r : Registry} {text : String} {d : ColumnDetail}

theorem get?_register (r : Registry) (text : String) (d : ColumnDetail) (t : String) :
    (r.register text d).get? t = if t = text ∧ r.get? text = none then some d else r.get? t := by
  rw [register]
  cases hknown : r.get? text with
  | some known => simp
  | none =>
    simp only [Option.isSome_none, Bool.false_eq_true, if_false, and_true]
    rw [get?, lookup_append]
    by_cases ht : t = text
    · subst ht
      rw [get?] at hknown
      simp [hknown]
    · have hne : (t == text) = false := by simpa using ht
      simp [ht, hne, get?, lookup_cons]

theorem get?_modify (r : Registry) (text : String) (f : ColumnDetail → ColumnDetail) (t : String) :
    (r.modify text f).get? t = if t = text then (r.get? t).map f else r.get? t := by
  induction r with
  | nil => simp [modify, get?]
  | cons entry r ih =>
    obtain ⟨k, d⟩ := entry
    simp only [modify, get?, map_cons] at ih ⊢
    by_cases hk : k = text
    · subst hk
      by_cases ht : t = k
      · subst ht
        simp
      · have hne : (t == k) = false := by simpa using ht
        simp [ht, hne, lookup_cons] at ih ⊢
        exact ih
    · by_cases ht : t = k
      · subst ht
        simp [hk]
      · have hne : (t == k) = false := by simpa using ht
        simpa [hk, hne, lookup_cons] using ih

theorem groupedPath?_register (hd : d.groupedPath = none) (t : String) :
    (r.register text d).groupedPath? t = r.groupedPath? t := by
  rw [groupedPath?, groupedPath?, get?_register]
  split_ifs with h
  · rw [h.1, h.2]
    exact hd
  · rfl

theorem groupedPath?_addLabel (r : Registry) (text label t : String) :
    (r.addLabel text label).groupedPath? t = r.groupedPath? t := by
  have hlabel (d : ColumnDetail) : (d.withLabel label).groupedPath = d.groupedPath := by
    rw [ColumnDetail.withLabel]
    split_ifs <;> rfl
  rw [addLabel, groupedPath?, get?_modify, groupedPath?]
  cases hknown : r.get? t with
  | none => simp
  | some d => split_ifs <;> simp [hlabel]

theorem groupedPath?_registerGrouped (r : Registry) (text : String) (d : ColumnDetail) (path t : String) :
    (r.registerGrouped text d path).groupedPath? t = if t = text then some path else r.groupedPath? t := by
  rw [registerGrouped, groupedPath?, get?_modify, get?_register]
  by_cases ht : t = text
  · subst ht
    cases hknown : r.get? t <;> simp
  · simp [ht, groupedPath?]

end Registry

namespace Draft

variable {σ : Type}

def accumulated (s : Draft σ) (text : String) (a : Accumulator) : Draft σ :=
  { s with
    accumulators := s.accumulators ++ [a]
    registry := s.registry.registerGrouped text { expression := .fieldRef a.name, fieldPath := none } a.name }

def computed (s : Draft σ) (b : Bson) : Draft σ :=
  { s with helperFields := s.helperFields ++ [("__m" ++ toString s.helperFields.length, b)] }

/-- A relation that holds of storing and of meeting a value, and of changes one after the other. -/
structure IsTrace (R : Draft σ → Draft σ → Prop) : Prop where
  refl : ∀ s, R s s
  trans : ∀ {s₁ s₂ s₃}, R s₁ s₂ → R s₂ s₃ → R s₁ s₃
  store : ∀ (s : Draft σ) (objects : σ), R s { s with objects }
  register : ∀ (s : Draft σ) (text : String) (b : Bson),
    R s { s with registry := s.registry.register text (.ofExpression b) }

/-- Nothing is added to what a group holds. -/
structure SameGroup (s s' : Draft σ) : Prop where
  accumulators : s'.accumulators = s.accumulators
  groupedPath? : ∀ text, s'.registry.groupedPath? text = s.registry.groupedPath? text

theorem isTrace_sameGroup : IsTrace (SameGroup (σ := σ)) where
  refl _ := ⟨rfl, fun _ => rfl⟩
  trans h h' := ⟨h'.accumulators.trans h.accumulators, fun text => (h'.groupedPath? text).trans (h.groupedPath? text)⟩
  store _ _ := ⟨rfl, fun _ => rfl⟩
  register _ _ _ := ⟨rfl, fun text => groupedPath?_register rfl text⟩

/-- What is found in a group stays where it is, and nothing is computed ahead of the match. -/
structure Keeps (s s' : Draft σ) : Prop where
  helperFields : s'.helperFields = s.helperFields
  groupedPath? : ∀ {text path}, s.registry.groupedPath? text = some path → s'.registry.groupedPath? text = some path

theorem isTrace_keeps : IsTrace (Keeps (σ := σ)) where
  refl _ := ⟨rfl, id⟩
  trans h h' := ⟨h'.helperFields.trans h.helperFields, h'.groupedPath? ∘ h.groupedPath?⟩
  store _ _ := ⟨rfl, id⟩
  register _ _ _ := ⟨rfl, (groupedPath?_register rfl _).trans⟩

theorem keeps_label (s : Draft σ) (text label : String) :
    s.Keeps { s with registry := s.registry.addLabel text label } :=
  ⟨rfl, (groupedPath?_addLabel ..).trans⟩

theorem keeps_accumulated {s : Draft σ} {text : String} (hnew : s.registry.groupedPath? text = none)
    (a : Accumulator) : s.Keeps (s.accumulated text a) := by
  refine ⟨rfl, fun {t path} hpath => ?_⟩
  rw [accumulated, groupedPath?_registerGrouped, if_neg, hpath]
  rintro rfl
  rw [hnew] at hpath
  cases hpath

end Draft

variable {b : Bson}

theorem Context.toStored_of_store {σ : Type} {c : Context σ} {v : Value} {s s' : Draft σ}
    (h : c.store v s = (.ok b, s')) : v.toStored c.objects s.objects = (.ok b, s'.objects) := by
  rw [store, Attempt.within] at h
  rcases hstored : (v.toStored c.objects).failingAs QueryError.conversion s.objects with ⟨r, objects⟩
  rw [hstored] at h
  cases h
  exact failingAs_ok hstored

namespace Compiling

open Draft (IsTrace)

variable {σ α β γ : Type} {R : Draft σ → Draft σ → Prop} {x : Compiling σ α}

def Traces (R : Draft σ → Draft σ → Prop) (x : Compiling σ α) : Prop :=
  ∀ (s : Draft σ) a (s' : Draft σ), x s = (.ok a, s') → R s s'

theorem traces_store (hR : IsTrace R) {c : Context σ} (v : Value) : Traces R (c.store v) := by
  intro s b s' h
  obtain rfl : { s with objects := _ } = s' := congrArg Prod.snd h
  exact hR.store s _

theorem traces_register (hR : IsTrace R) (text : String) (b : Bson) :
    Traces R (updateRegistry fun r => r.register text (.ofExpression b) : Compiling σ Unit) := by
  intro s _ s' h
  cases h
  exact hR.register s text b

end Compiling

theorem Draft.IsTrace.partwise {σ : Type} {R : Draft σ → Draft σ → Prop} (hR : IsTrace R) :
    Compiling.Partwise fun _ => Compiling.Traces R where
  ofExcept r s a s' h := (ofExcept_ok h).2 ▸ hR.refl s
  bind hx hf s b s' h := by
    obtain ⟨a, s₁, ha, h⟩ := bind_ok h
    exact hR.trans (hx s a s₁ ha) (hf a s₁ b s' h)
  both hx hy s c s' h := by
    obtain ⟨a, b, s₁, ha, hb, -⟩ := both_ok h
    exact hR.trans (hx s a s₁ ha) (hy s₁ b s' hb)

namespace Expression

open Compiling
open Draft (IsTrace)

variable {σ : Type} {c : Context σ} {scope : Scope} {R : Draft σ → Draft σ → Prop} {text : String}

variable {x : Compiling σ Bson} {arg : Option (Compiling σ Bson)} {function : AggregateFunction}
  {wanted : Option String} {e : Expression} {s s' : Draft σ}

theorem orFound_ok (h : orGrouped .grouped text x s = (.ok b, s')) :
    (s = s' ∧ ∃ path, s.registry.groupedPath? text = some path ∧ b = .fieldRef path) ∨
      (s.registry.groupedPath? text = none ∧ x s = (.ok b, s')) := by
  obtain ⟨path, s₁, hpath, h⟩ := bind_ok h
  obtain ⟨rfl, rfl⟩ : s.registry.groupedPath? text = path ∧ s = s₁ := by cases hpath; exact ⟨rfl, rfl⟩
  cases hfound : s.registry.groupedPath? text with
  | some path =>
    rw [hfound] at h
    obtain ⟨rfl, rfl⟩ := pure_ok h
    exact .inl ⟨rfl, path, rfl, rfl⟩
  | none =>
    rw [hfound] at h
    exact .inr ⟨rfl, h⟩

theorem orGrouped_ok (h : orGrouped scope text x s = (.ok b, s')) :
    (scope = .grouped ∧ s = s' ∧ ∃ path, s.registry.groupedPath? text = some path ∧ b = .fieldRef path) ∨
      x s = (.ok b, s') := by
  cases scope with
  | raw => exact .inr h
  | grouped => exact (orFound_ok h).imp (fun hfound => ⟨rfl, hfound⟩) (·.2)

def compileArg? (arg : Option (Compiling σ Bson)) : Compiling σ (Option Bson) :=
  match arg with
  | some compile => some <$> compile
  | none => pure none

def accumulate (text : String) (wanted : Option String) (p : AccumulatorFunction × Bson) : Compiling σ Bson := do
  let name := accumulatorName (← get).accumulators wanted
  modify fun d => { d with accumulators := d.accumulators ++ [⟨name, p.1, p.2⟩] }
  updateRegistry fun r => r.registerGrouped text { expression := .fieldRef name, fieldPath := none } name
  return .fieldRef name

theorem compileAggregate_ok {distinct : Bool}
    (h : compileAggregate text function distinct arg wanted s = (.ok b, s')) :
    (s = s' ∧ ∃ path, s.registry.groupedPath? text = some path ∧ b = .fieldRef path) ∨
      (s.registry.groupedPath? text = none ∧ distinct = false ∧ ∃ arg' s₁ f e,
        compileArg? arg s = (.ok arg', s₁) ∧ accumulation text function arg' = .ok (f, e) ∧
        s' = s₁.accumulated text ⟨accumulatorName s₁.accumulators wanted, f, e⟩ ∧
        b = .fieldRef (accumulatorName s₁.accumulators wanted)) := by
  rcases orFound_ok h with hfound | ⟨hnone, h⟩
  · exact .inl hfound
  cases distinct with
  | true => cases h
  | false =>
    replace h : (compileArg? arg >>= fun arg' =>
        Attempt.ofExcept (accumulation text function arg') >>= accumulate text wanted) s = (.ok b, s') := by
      cases arg <;> exact h
    obtain ⟨arg', s₁, harg, h⟩ := bind_ok h
    obtain ⟨⟨f, e⟩, s₂, haccumulation, h⟩ := bind_ok h
    obtain ⟨heq, rfl⟩ := ofExcept_ok haccumulation
    cases h
    exact .inr ⟨hnone, rfl, arg', s₁, f, e, harg, heq, rfl, rfl⟩

theorem groupedPath?_of_field? {field : String} (h : field? c .grouped e s = (.ok (some field), s')) :
    s'.registry.groupedPath? e.sql = some field := by
  have hfound {t : Draft σ} (h : (groupedPath? e.sql : Compiling σ (Option String)) t = (.ok (some field), s')) :
      s'.registry.groupedPath? e.sql = some field := by
    obtain ⟨hpath, rfl⟩ := Prod.mk.inj h
    exact Except.ok.inj hpath
  cases e with
  | aggregate function arg distinct =>
    obtain ⟨b, s₁, -, h⟩ := bind_ok h
    exact hfound h
  | _ => exact hfound h

/-- Whether an accumulator computes the aggregate with a text. -/
def Computes (c : Context σ) (text : String) (a : Accumulator) : Prop :=
  ∃ function arg arg' s s', text = (Expression.aggregate function arg false).sql ∧
    compileArg? (arg.map (compile c .raw)) s = (.ok arg', s') ∧
    accumulation text function arg' = .ok (a.function, a.arg)

/-- Whether the relation holds of a new aggregate, for which a name is wanted. -/
def Accumulates (c : Context σ) (wanted : Option String) (R : Draft σ → Draft σ → Prop) : Prop :=
  ∀ (s : Draft σ) (text : String) (a : Accumulator), s.registry.groupedPath? text = none → Computes c text a →
    a.name = accumulatorName s.accumulators wanted → R s (s.accumulated text a)

theorem accumulates_keeps (c : Context σ) (wanted : Option String) : Accumulates c wanted Draft.Keeps :=
  fun _ _ a hnew _ _ => Draft.keeps_accumulated hnew a

theorem traces_compileRaw {R : Draft σ → Draft σ → Prop} (hR : IsTrace R) (e : Expression) :
    Traces R (e.compile c .raw) :=
  partwise_compile { hR.partwise with
    register := traces_register hR, groupedPath? := by simp, aggregate := by simp } e
    fun v _ => traces_store hR v

theorem traces_compileAggregate (hR : IsTrace R) (hacc : Accumulates c wanted R) (function : AggregateFunction)
    (arg : Option Expression) (distinct : Bool) :
    Traces R (compileAggregate (Expression.aggregate function arg distinct).sql function distinct
      (arg.map (compile c .raw)) wanted) := by
  have harg {R : Draft σ → Draft σ → Prop} (hR : IsTrace R) : Traces R (compileArg? (arg.map (compile c .raw))) := by
    cases arg with
    | none => exact hR.partwise.pure none
    | some arg => exact hR.partwise.map (traces_compileRaw hR arg) some
  intro s b s' h
  rcases compileAggregate_ok h with ⟨rfl, -⟩ | ⟨hnew, rfl, arg', s₁, f, e, hcompile, haccumulation, rfl, -⟩
  · exact hR.refl s
  · have hsame := harg Draft.isTrace_sameGroup s arg' s₁ hcompile
    exact hR.trans (harg hR s arg' s₁ hcompile)
      (hacc s₁ _ _ ((hsame.groupedPath? _).trans hnew) ⟨function, arg, arg', s, s₁, rfl, hcompile, haccumulation⟩ rfl)

theorem ofSteps_traces (hR : IsTrace R) (hacc : scope = .grouped → Accumulates c none R) :
    OfSteps c scope fun _ => Traces R :=
  { hR.partwise with
    register := traces_register hR
    groupedPath? := fun _ _ s _ s' h => by
      cases h
      exact hR.refl s
    aggregate := fun h => traces_compileAggregate hR (hacc h) }

theorem traces_compile (hR : IsTrace R) (scope : Scope) (hacc : scope = .grouped → Accumulates c none R)
    (e : Expression) : Traces R (e.compile c scope) :=
  partwise_compile (ofSteps_traces hR hacc) e fun v _ => traces_store hR v

theorem traces_compileAll (hR : IsTrace R) (scope : Scope) (hacc : scope = .grouped → Accumulates c none R)
    (es : List Expression) : Traces R (compileAll c scope es) :=
  partwise_compileAll (ofSteps_traces hR hacc) fun e _ => traces_compile hR scope hacc e

theorem keeps_compileAll (scope : Scope) (es : List Expression) : Traces Draft.Keeps (compileAll c scope es) :=
  traces_compileAll Draft.isTrace_keeps scope (fun _ => accumulates_keeps c none) es

/-- The expression was compiled, and what was found in the group then is found there now. -/
def Compiled (c : Context σ) (scope : Scope) (e : Expression) (now : Draft σ) : Prop :=
  ∃ b s s', e.compile c scope s = (.ok b, s') ∧ s'.Keeps now

theorem compiled_of_compileAll {es : List Expression} {bs : List Bson}
    (h : compileAll c scope es s = (.ok bs, s')) : ∀ e ∈ es, Compiled c scope e s' := by
  induction es generalizing s bs with
  | nil => simp
  | cons e es ih =>
    obtain ⟨b, bs', s₁, hb, hbs, -⟩ := both_ok h
    exact forall_mem_cons.mpr ⟨⟨b, s, s₁, hb, keeps_compileAll scope es s₁ bs' s' hbs⟩, ih hbs⟩

theorem isSome_of_compileAggregate {distinct : Bool}
    (h : compileAggregate e.sql function distinct arg wanted s = (.ok b, s')) :
    (s'.registry.groupedPath? e.sql).isSome := by
  rcases compileAggregate_ok h with ⟨rfl, path, hpath, -⟩ | ⟨-, -, -, s₁, f, e, -, -, rfl, -⟩
  · rw [hpath]
    rfl
  · rw [Draft.accumulated, groupedPath?_registerGrouped, if_pos rfl]
    rfl

/-- The expressions that an operation computes with. The pattern of LIKE is none of them. -/
def operands : Expression → List Expression
  | .like input _ _ _ => [input]
  | e => e.inner

theorem mem_inner_of_operands {x : Expression} (h : x ∈ e.operands) : x ∈ e.inner := by
  cases e with
  | like input pattern escape negated => exact mem_cons.mpr (.inl (mem_singleton.mp h))
  | _ => exact h

theorem partsOf_operands_subset (e : Expression) : partsOf e.operands ⊆ e.parts := by
  intro p hp
  obtain ⟨x, hx, hp⟩ := mem_partsOf.mp hp
  exact mem_parts.mpr (.inr ⟨x, mem_inner_of_operands hx, hp⟩)

/-- Whether an operation becomes `b` with the compiled operands `args`. -/
def BuiltFrom (guarded : Bool) (args : List Bson) (b : Bson) : Expression → Prop
  | .comparison op _ _ => b = .opList op.operator args
  | .and _ => b = .opList "$and" args
  | .or _ => b = .opList "$or" args
  | .not _ => b = .opList "$not" args
  | .isIn _ _ negated => ∃ input list, args = input :: list ∧
      b = negatedIf negated (.opList "$in" [input, .array list])
  | .isNull _ negated => ∃ input, args = [input] ∧
      b = .opList (if negated then "$ne" else "$eq") [.opList "$ifNull" [input, .null], .null]
  | .like _ pattern escape negated => ∃ input text, args = [input] ∧ pattern.likePattern = .ok text ∧
      b = negatedIf negated (.op "$regexMatch" (.document [("input", input),
        ("regex", .string (LikeRegex.ofPattern text escape).text), ("options", .string "s")]))
  | .call name es => ∃ f, ScalarFunction.ofName name = .ok f ∧ f.apply name guarded (startLiteral? es) args = .ok b
  | _ => False

/-- The ways in which an expression compiles: it is found in the group, it is a column, a constant or an
aggregate, or it is an operation whose operands compile one after the other. -/
inductive CompiledBy (c : Context σ) : Scope → Expression → Bson → Draft σ → Draft σ → Prop
  | found {e s path} (hpath : s.registry.groupedPath? e.sql = some path) :
      CompiledBy c .grouped e (.fieldRef path) s s
  | column {ref found s s'} (hcolumn : c.resolve ref = .ok found) :
      CompiledBy c .raw (.column ref) (.fieldRef found.path) s s'
  | literal {scope v b s s'} (h : compileLiteral c v s = (.ok b, s')) : CompiledBy c scope (.literal v) b s s'
  | aggregate {function arg distinct b s s'} (h : compileAggregate (Expression.aggregate function arg distinct).sql
      function distinct (arg.map (compile c .raw)) none s = (.ok b, s')) :
      CompiledBy c .grouped (.aggregate function arg distinct) b s s'
  | operation {scope e b bs s s'} (hbs : compileAll c scope e.operands s = (.ok bs, s'))
      (hb : e.BuiltFrom c.options.guardDateFunctions bs b) : CompiledBy c scope e b s s'

theorem compileAll_singleton (h : e.compile c scope s = (.ok b, s')) : compileAll c scope [e] s = (.ok [b], s') := by
  simp only [compileAll, both, h]
  rfl

theorem compiledBy_orGrouped (h : orGrouped scope e.sql x s = (.ok b, s'))
    (hx : x s = (.ok b, s') → CompiledBy c scope e b s s') : CompiledBy c scope e b s s' := by
  rcases orGrouped_ok h with ⟨rfl, rfl, path, hpath, rfl⟩ | h
  · exact .found hpath
  · exact hx h

theorem compile_ok (h : e.compile c scope s = (.ok b, s')) : CompiledBy c scope e b s s' := by
  cases e with
  | column ref =>
    refine compiledBy_orGrouped h fun h => ?_
    cases scope with
    | grouped => cases h
    | raw =>
      obtain ⟨column, s₁, hcolumn, h⟩ := bind_ok h
      obtain ⟨_, -, rfl⟩ := bind_pure_ok h
      exact .column (ofExcept_ok hcolumn).1
  | literal v => exact compiledBy_orGrouped h .literal
  | comparison op left right =>
    refine compiledBy_orGrouped h fun h => ?_
    obtain ⟨args, hargs, rfl⟩ := bind_pure_ok h
    obtain ⟨l, r, s₁, hl, hr, rfl⟩ := both_ok hargs
    refine .operation ?_ rfl
    simp only [operands, inner, compileAll, both, hl, hr]
    rfl
  | and terms | or terms =>
    refine compiledBy_orGrouped h fun h => ?_
    obtain ⟨bs, hbs, rfl⟩ := bind_pure_ok h
    exact .operation hbs rfl
  | not term =>
    refine compiledBy_orGrouped h fun h => ?_
    obtain ⟨b', hb, rfl⟩ := bind_pure_ok h
    exact .operation (compileAll_singleton hb) rfl
  | isIn input list negated =>
    refine compiledBy_orGrouped h fun h => ?_
    obtain ⟨b', s₁, hb, h⟩ := bind_ok h
    obtain ⟨bs, hbs, rfl⟩ := bind_pure_ok h
    refine .operation (?_ : compileAll c scope _ s = (.ok (b' :: bs), _)) ⟨b', bs, rfl, rfl⟩
    simp only [operands, inner, compileAll, both, hb, hbs]
  | isNull input negated =>
    refine compiledBy_orGrouped h fun h => ?_
    obtain ⟨b', hb, rfl⟩ := bind_pure_ok h
    exact .operation (compileAll_singleton hb) ⟨b', rfl, rfl⟩
  | like input pattern escape negated =>
    refine compiledBy_orGrouped h fun h => ?_
    obtain ⟨text, s₁, htext, h⟩ := bind_ok h
    obtain ⟨b', hb, rfl⟩ := bind_pure_ok h
    obtain ⟨hpattern, rfl⟩ := ofExcept_ok htext
    exact .operation (compileAll_singleton hb) ⟨b', text, rfl, hpattern, rfl⟩
  | call name args =>
    refine compiledBy_orGrouped h fun h => ?_
    obtain ⟨f, s₁, hf, h⟩ := bind_ok h
    obtain ⟨bs, s₂, hbs, hcall⟩ := bind_ok h
    obtain ⟨hname, rfl⟩ := ofExcept_ok hf
    obtain ⟨happly, rfl⟩ := ofExcept_ok hcall
    exact .operation hbs ⟨f, hname, happly⟩
  | aggregate function arg distinct =>
    cases scope with
    | raw => cases arg <;> cases h
    | grouped => exact .aggregate (by cases arg <;> exact h)

/-- What is compiled is found in the group, or the expressions that it is made of are compiled, the patterns of
LIKE apart. -/
theorem compiled_inner (h : e.compile c scope s = (.ok b, s')) :
    (scope = .grouped ∧ (s'.registry.groupedPath? e.sql).isSome) ∨
      (e.isAggregate = false ∧ ∀ x ∈ e.inner, (∃ text, x.likePattern = .ok text) ∨ Compiled c scope x s') := by
  cases compile_ok h with
  | found hpath => exact .inl ⟨rfl, Option.isSome_of_mem hpath⟩
  | column | literal => exact .inr ⟨rfl, by simp [inner]⟩
  | aggregate h => exact .inl ⟨rfl, isSome_of_compileAggregate h⟩
  | operation hbs hb =>
    have hoperands := compiled_of_compileAll hbs
    cases e with
    | column | literal | aggregate => cases hb
    | like input pattern escape negated =>
      obtain ⟨_, text, -, htext, -⟩ := hb
      refine .inr ⟨rfl, forall_mem_cons.mpr ⟨.inr (hoperands input (.head _)), forall_mem_singleton.mpr ?_⟩⟩
      exact .inl ⟨text, htext⟩
    | _ => exact .inr ⟨rfl, fun x hx => .inr (hoperands x hx)⟩

/-- A relation that also holds of what filters add: predicates to be computed, or aggregates. -/
structure IsFilterTrace (c : Context σ) (scope : Scope) (R : Draft σ → Draft σ → Prop) : Prop extends IsTrace R where
  accumulate : scope = .grouped → Accumulates c none R
  compute : scope = .raw → ∀ s b, R s (s.computed b)

theorem IsFilterTrace.computedTest (hR : IsFilterTrace c scope R) (h : scope = .raw) (b : Bson) :
    Traces R (computedTest b) := by
  intro s q s' hq
  cases hq
  exact hR.compute h s b

theorem traces_filter (hR : IsFilterTrace c scope R) (e : Expression) : Traces R (e.filter c scope) :=
  partwise_filter (ofSteps_traces hR.toIsTrace hR.accumulate) (fun h _ => hR.computedTest h) e
    fun v _ => traces_store hR.toIsTrace v

theorem traces_filters (hR : IsFilterTrace c scope R) (es : List Expression) : Traces R (filters c scope es) :=
  partwise_filters (ofSteps_traces hR.toIsTrace hR.accumulate) (fun h _ => hR.computedTest h) es
    fun v _ => traces_store hR.toIsTrace v

end Expression

end Pushdown
