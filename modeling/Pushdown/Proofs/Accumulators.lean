import Pushdown.Proofs.DistinctRows

/-!
# Aggregates of groups

`Accounted`: what `groupedPath?` finds in a draft are the keys and the aggregates met so far (`Accounts`), and each
aggregate has an accumulator, under a wanted name that is usable and free or under a number (`Named`). Compiling
HAVING and the select items keeps this. `clash` says when two accumulators get one name.
-/

namespace Pushdown

open Compiling List Attempt

def GroupKeys.paths : GroupKeys → List String
  | .none => []
  | .single _ => ["_id"]
  | .compound keys => keys.map fun k => "_id." ++ k.1

def Group.paths (g : Group) : List String := g.keys.paths ++ g.accumulators.map (·.name)

theorem Expression.accumulatorName_cases (known : List Accumulator) (wanted : Option String) :
    accumulatorName known wanted = "agg" ++ toString known.length ∨
      accumulatorName known wanted ∈ wanted ∧ isPlainField (accumulatorName known wanted) ∧
        ∀ a ∈ known, a.name ≠ accumulatorName known wanted := by
  cases wanted with
  | none => exact .inl rfl
  | some name =>
    by_cases hfree : isPlainField name && !known.any (·.name == name)
    · have hname : accumulatorName known (some name) = name := if_pos hfree
      obtain ⟨hplain, hnew⟩ := Bool.and_eq_true_iff.mp hfree
      rw [hname]
      exact .inr ⟨rfl, hplain, by simpa using hnew⟩
    · exact .inl (if_neg hfree)

namespace Draft

variable {σ : Type} {s s' : Draft σ}

theorem sameGroup_label (s : Draft σ) (text label : String) :
    s.SameGroup { s with registry := s.registry.addLabel text label } :=
  ⟨rfl, fun _ => Registry.groupedPath?_addLabel ..⟩

/-- Whether what is found in the group are the keys, where `keyPath?` says, and the aggregates with the given
texts, each under the name of its accumulator. -/
structure Accounts (c : Context σ) (keyPath? : String → Option String) (texts : List String) (s : Draft σ) :
    Prop where
  nodup : texts.Nodup
  accumulators : List.Forall₂ (fun text a => Expression.Computes c text a ∧ keyPath? text = none ∧
    s.registry.groupedPath? text = some a.name) texts s.accumulators
  others : ∀ text ∉ texts, s.registry.groupedPath? text = keyPath? text

namespace Accounts

variable {c : Context σ} {keyPath? : String → Option String} {texts : List String}

theorem of_sameGroup (h : s.Accounts c keyPath? texts) (hsame : s.SameGroup s') : s'.Accounts c keyPath? texts where
  nodup := h.nodup
  accumulators := by
    rw [hsame.accumulators]
    refine h.accumulators.imp ?_
    rintro text a ⟨hcomputes, hkey, hpath⟩
    exact ⟨hcomputes, hkey, (hsame.groupedPath? text).trans hpath⟩
  others text htext := (hsame.groupedPath? text).trans (h.others text htext)

theorem accumulated (h : s.Accounts c keyPath? texts) {text : String} {a : Accumulator}
    (hnew : s.registry.groupedPath? text = none) (ha : Expression.Computes c text a) :
    (s.accumulated text a).Accounts c keyPath? (texts ++ [text]) := by
  have hmem : text ∉ texts := by
    intro hmem
    obtain ⟨a, -, -, -, hpath⟩ := exists_right_of_forall₂ h.accumulators hmem
    cases hnew.symm.trans hpath
  have hpath (t : String) : (s.accumulated text a).registry.groupedPath? t =
      if t = text then some a.name else s.registry.groupedPath? t := Registry.groupedPath?_registerGrouped ..
  refine ⟨?_, ?_, fun t ht => ?_⟩
  · exact nodup_append.mpr ⟨h.nodup, by simp, fun t ht t' ht' heq => hmem (by simp_all)⟩
  · refine rel_append (h.accumulators.imp ?_) (.cons ⟨ha, ?_, ?_⟩ .nil)
    · rintro t b ⟨hcomputes, hkey, hfound⟩
      exact ⟨hcomputes, hkey, (Draft.keeps_accumulated hnew a).groupedPath? hfound⟩
    · rw [← h.others text hmem, hnew]
    · rw [hpath, if_pos rfl]
  · rw [mem_append, mem_singleton, not_or] at ht
    rw [hpath, if_neg ht.2, h.others t ht.1]

end Accounts

/-- Whether each accumulator has the number of its position as its name, or a name that is wanted, usable and
new. -/
def Named (wanted : String → Prop) (as : List Accumulator) : Prop :=
  ∀ (i : Nat) (a : Accumulator), as[i]? = some a → a.name = "agg" ++ toString i ∨
    wanted a.name ∧ isPlainField a.name ∧ ∀ j < i, ∀ b, as[j]? = some b → b.name ≠ a.name

variable {name? : Option String}

namespace Named

variable {wanted : String → Prop} {as : List Accumulator} {a : Accumulator}

theorem append_singleton (h : Named wanted as) (ha : a.name = Expression.accumulatorName as name?)
    (hname : ∀ name ∈ name?, wanted name) : Named wanted (as ++ [a]) := by
  have hnew : a.name = "agg" ++ toString as.length ∨
      wanted a.name ∧ isPlainField a.name ∧ ∀ b ∈ as, b.name ≠ a.name := by
    rw [ha]
    rcases Expression.accumulatorName_cases as name? with heq | ⟨hmem, hplain, hfree⟩
    · exact .inl heq
    · exact .inr ⟨hname _ hmem, hplain, hfree⟩
  intro i b hb
  have hbefore (j : Nat) (hj : j < as.length) : (as ++ [a])[j]? = as[j]? := getElem?_append_left hj
  rcases Nat.lt_or_ge i as.length with hi | hi
  · rw [hbefore i hi] at hb
    rcases h i b hb with hnumbered | ⟨hwanted, hplain, hfirst⟩
    · exact .inl hnumbered
    · refine .inr ⟨hwanted, hplain, fun j hj => ?_⟩
      rw [hbefore j (by omega)]
      exact hfirst j hj
  · have hlast : i = as.length := by
      have := (List.getElem?_eq_some_iff.mp hb).1
      simp at this
      omega
    subst hlast
    rw [getElem?_concat_length, Option.some_inj] at hb
    subst hb
    rcases hnew with hnumbered | ⟨hwanted, hplain, hfirst⟩
    · exact .inl hnumbered
    · refine .inr ⟨hwanted, hplain, fun j hj b hb => ?_⟩
      rw [hbefore j hj] at hb
      exact hfirst b (mem_of_getElem? hb)

theorem name_ne_id (h : Named wanted as) (ha : a ∈ as) : a.name ≠ "_id" := by
  obtain ⟨i, hi⟩ := getElem?_of_mem ha
  rcases h i a hi with hname | ⟨-, hplain, -⟩
  · intro hid
    have hlist := congrArg String.toList (hname.symm.trans hid)
    simp at hlist
  · rintro hid
    rw [hid] at hplain
    exact absurd hplain (by decide)

/-- Of two accumulators with one name, the later is numbered and the name of the earlier was wanted. -/
theorem clash (h : Named wanted as) {b : Accumulator} {i j : Nat} (hij : i < j) (ha : as[i]? = some a)
    (hb : as[j]? = some b) (hname : a.name = b.name) : b.name = "agg" ++ toString j ∧ wanted b.name := by
  rcases h j b hb with hlater | ⟨-, -, hfirst⟩
  · refine ⟨hlater, ?_⟩
    rcases h i a ha with hearlier | ⟨hwanted, -, -⟩
    · rw [hlater, hearlier, String.append_right_inj] at hname
      exact absurd (toString_injective hname) (by omega)
    · exact hname ▸ hwanted
  · exact absurd hname (hfirst i hij a ha)

end Named

/-- Whether what is found in the group are the keys and the aggregates, and the accumulators are named. -/
structure Accounted (c : Context σ) (keyPath? : String → Option String) (wanted : String → Prop) (s : Draft σ) :
    Prop where
  accounts : ∃ texts, s.Accounts c keyPath? texts
  named : Named wanted s.accumulators

namespace Accounted

variable {c : Context σ} {keyPath? : String → Option String} {wanted : String → Prop}

theorem of_sameGroup (hsame : s.SameGroup s') (h : s.Accounted c keyPath? wanted) :
    s'.Accounted c keyPath? wanted := by
  obtain ⟨texts, htexts⟩ := h.accounts
  exact ⟨⟨texts, htexts.of_sameGroup hsame⟩, hsame.accumulators ▸ h.named⟩

theorem of_accumulators_eq_nil (hs : s.accumulators = []) : s.Accounted c s.registry.groupedPath? wanted where
  accounts := ⟨[], nodup_nil, hs ▸ .nil, fun _ _ => rfl⟩
  named i a ha := by
    rw [hs] at ha
    cases ha

theorem accumulates (hname : ∀ name ∈ name?, wanted name) :
    Expression.Accumulates c name? fun s s' => s.Accounted c keyPath? wanted → s'.Accounted c keyPath? wanted := by
  rintro s text a hnew hcomputes ha ⟨⟨texts, htexts⟩, hnamed⟩
  exact ⟨⟨_, htexts.accumulated hnew hcomputes⟩, hnamed.append_singleton ha hname⟩

theorem isFilterTrace (c : Context σ) (keyPath? : String → Option String) (wanted : String → Prop) :
    Expression.IsFilterTrace c .grouped
      fun s s' : Draft σ => s.Accounted c keyPath? wanted → s'.Accounted c keyPath? wanted where
  refl _ := id
  trans h h' := h' ∘ h
  store s objects := of_sameGroup (isTrace_sameGroup.store s objects)
  register s text b := of_sameGroup (isTrace_sameGroup.register s text b)
  accumulate _ := accumulates (by simp)
  compute h := by cases h

end Accounted

end Draft

namespace Select

variable {σ : Type} {c : Context σ} {q : Select} {s s' : Draft σ}

theorem isFilterTrace_sameGroup (c : Context σ) : Expression.IsFilterTrace c .raw (Draft.SameGroup (σ := σ)) where
  toIsTrace := Draft.isTrace_sameGroup
  accumulate h := by cases h
  compute _ _ _ := ⟨rfl, fun _ => rfl⟩

variable {R : Draft σ → Draft σ → Prop}

theorem traces_where (hR : Expression.IsFilterTrace c .raw R) (es : List Expression) :
    Traces R (conditionOf (es.map (whereTerm c))) := by
  refine hR.partwise.bind (hR.partwise.all fun x hx => ?_) fun _ => hR.partwise.pure _
  obtain ⟨e, -, rfl⟩ := mem_map.mp hx
  rw [whereTerm]
  split_ifs
  · exact hR.partwise.throw _
  · exact Expression.traces_filter hR e

theorem traces_compileKeys (hR : Draft.IsTrace R) (position : Nat) (names : List String) (keys : List Expression) :
    Traces R (compileKeys c position names keys) := by
  intro s ks s' h
  induction keys generalizing position names ks s with
  | nil =>
    obtain ⟨-, rfl⟩ := pure_ok h
    exact hR.refl s
  | cons key keys ih =>
    obtain ⟨b, s₁, ks', hb, hks, -⟩ := compileKeys_cons_ok h
    exact hR.trans (Expression.traces_compile hR .raw (by simp) key s b s₁ hb) (ih _ _ _ _ hks)

theorem exists_key_of_groupedPath? {ks : List GroupingKey} {r : Registry} (hr : ∀ text, r.groupedPath? text = none)
    {text path : String} (h : (registerKeys ks r).groupedPath? text = some path) :
    ∃ k ∈ ks, k.key.sql = text ∧ path = keyPath ks.length k := by
  rcases groupedPath?_foldl_registerGrouped ks.length ks r text with ⟨hnot, -⟩ | ⟨k, hk, htext, hfound⟩
  · cases (hnot.trans (hr text)).symm.trans h
  · exact ⟨k, hk, htext, Option.some.inj (h.symm.trans hfound)⟩

theorem groupedPath?_compileGroup {keys : Option GroupKeys} (h : compileGroup c q s = (.ok keys, s'))
    (hs : ∀ text, s.registry.groupedPath? text = none) :
    s'.accumulators = s.accumulators ∧ ∀ {text path}, s'.registry.groupedPath? text = some path →
      (∃ key ∈ q.groupingKeys, key.sql = text) ∧ ∃ k ∈ keys, path ∈ k.paths := by
  rw [compileGroup] at h
  obtain ⟨ks, s₁, hks, h⟩ := bind_ok h
  have hsame := traces_compileKeys Draft.isTrace_sameGroup _ _ _ s ks s₁ hks
  have hcompiled := compileKeys_ok hks
  have hnone (text : String) : s₁.registry.groupedPath? text = none := (hsame.groupedPath? text).trans (hs text)
  have hfound {text path : String} (hpath : (registerKeys ks s₁.registry).groupedPath? text = some path) :
      (∃ key ∈ q.groupingKeys, key.sql = text) ∧ ∃ k ∈ ks, path = keyPath ks.length k := by
    obtain ⟨k, hk, htext, rfl⟩ := exists_key_of_groupedPath? hnone hpath
    obtain ⟨key, hkey, hkeyk⟩ := exists_left_of_forall₂ hcompiled hk
    exact ⟨⟨key, (of_mem_zip hkey).1, by rw [← htext, hkeyk.key]⟩, k, hk, rfl⟩
  rcases ks with _ | ⟨k, _ | ⟨k', ks⟩⟩
  · obtain ⟨-, rfl⟩ := pure_ok h
    refine ⟨hsame.accumulators, fun {text path} hpath => ?_⟩
    rw [hnone text] at hpath
    cases hpath
  · cases h
    refine ⟨hsame.accumulators, fun hpath => ?_⟩
    obtain ⟨htext, k', hk', rfl⟩ := hfound hpath
    exact ⟨htext, _, rfl, by simp [keyPath, GroupKeys.paths]⟩
  · cases h
    refine ⟨hsame.accumulators, fun hpath => ?_⟩
    obtain ⟨htext, k'', hk'', rfl⟩ := hfound hpath
    refine ⟨htext, _, rfl, mem_map.mpr ⟨(k''.name, k''.expression), mem_map.mpr ⟨k'', hk'', rfl⟩, ?_⟩⟩
    simp [keyPath]

def IsWanted (q : Select) (outputs : List Output) (name : String) : Prop :=
  ∃ p ∈ q.columns.zip outputs, p.1.expr.isAggregate ∧ p.2.column.name = name

namespace Clauses.CompiledFrom

variable {placement : Placement} {r : Clauses σ} {objects : σ} {keys : GroupKeys} {text path : String}

theorem grouped (h : r.CompiledFrom c placement q { objects }) :
    r.grouped.accumulators = [] ∧ ∀ {text path}, r.grouped.registry.groupedPath? text = some path →
      (∃ key ∈ q.groupingKeys, key.sql = text) ∧ ∃ k ∈ r.keys, path ∈ k.paths := by
  obtain ⟨terms, -, hfilter⟩ := h.filter
  have hsame := traces_where (isFilterTrace_sameGroup c) _ _ _ _ hfilter
  obtain ⟨haccumulators, hfound⟩ := groupedPath?_compileGroup h.keys hsame.groupedPath?
  exact ⟨haccumulators.trans hsame.accumulators, hfound⟩

variable (h : r.CompiledFrom c placement q { objects }) (hkeys : r.keys = some keys)

include h hkeys

theorem accounted : r.selected.Accounted c r.grouped.registry.groupedPath? (IsWanted q r.outputs) := by
  have hR := Draft.Accounted.isFilterTrace c r.grouped.registry.groupedPath? (IsWanted q r.outputs)
  have htested := traces_compileHaving hR q _ _ _ h.having (.of_accumulators_eq_nil h.grouped.1)
  refine (traces_compileItems hR.toIsTrace (fun s text label => ?_) (hR.accumulate rfl) (h.outputs_of_keys hkeys)
    fun p hp haggregate => ?_).1 htested
  · exact Draft.Accounted.of_sameGroup (s.sameGroup_label text label)
  · refine Draft.Accounted.accumulates fun name hname => ?_
    cases hname
    exact ⟨p, hp, haggregate, rfl⟩

theorem mem_paths (hfound : r.selected.registry.groupedPath? text = some path) :
    path ∈ (Group.mk keys r.selected.accumulators).paths := by
  obtain ⟨⟨texts, htexts⟩, -⟩ := h.accounted hkeys
  rw [Group.paths, mem_append]
  by_cases hmem : text ∈ texts
  · obtain ⟨a, ha, -, -, hpath⟩ := exists_right_of_forall₂ htexts.accumulators hmem
    cases hpath.symm.trans hfound
    exact .inr (mem_map_of_mem (of_mem_zip ha).2)
  · rw [htexts.others text hmem] at hfound
    obtain ⟨-, k, hk, hpath⟩ := h.grouped.2 hfound
    cases hkeys.symm.trans hk
    exact .inl hpath

theorem items :
    List.Forall₂ (fun item o => ∃ s₁ s₂, s₂.Keeps r.selected ∧
      compileItem c .grouped o.column.name item.expr s₁ = (.ok o.expression, s₂) ∧
      o.column.path = outputPath .grouped (!r.selected.helperFields.isEmpty) o.column.name o.expression)
      q.columns r.outputs := by
  refine (traces_compileItems Draft.isTrace_keeps Draft.keeps_label (Expression.accumulates_keeps c none)
    (h.outputs_of_keys hkeys) fun _ _ _ => Expression.accumulates_keeps c _).2.imp ?_
  rintro item o ⟨s₁, s₂, -, hkeeps, hcompile, hpath⟩
  rw [← hkeeps.helperFields] at hpath
  exact ⟨s₁, s₂, hkeeps, hcompile, hpath⟩

end Clauses.CompiledFrom

theorem exists_clauses_of_plan {c : Catalog} {options : Options} {p : Pipeline} {outputs : List Output}
    (h : q.plan c options = .ok (p, outputs)) :
    ∃ placement, ∃ r : Clauses Unit, c.place q.source = .ok placement ∧
      r.CompiledFrom (placement.context c options) placement q { objects := () } ∧ r.Gives p outputs := by
  obtain ⟨placement, s', hplace, hclauses⟩ := plan_ok h
  obtain ⟨r, hr, hfinish⟩ := Clauses.exists_of_compileClauses hclauses
  exact ⟨placement, r, hplace, hr, Clauses.gives_of_finish hfinish⟩

end Select

end Pushdown
