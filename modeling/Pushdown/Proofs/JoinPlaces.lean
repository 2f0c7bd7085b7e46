import Pushdown.Proofs.OuterColumns

/-!
# Join conditions and places

A join condition decides below which table an embeddable one takes its seat: below one that it mentions, if there is
a choice. `place_withTerms`: terms that equate keys (`KeyTerm`) leave all tables where they are, since they mention
nothing new apart from tables in the place below which the seat is anyway (`MentionHolders`).
-/

namespace Pushdown

open List Candidate Expression

theorem findSome?_filter_agree {α β : Type} {f : α → Option β} {p p' : α → Bool} {l : List α} {x y : β}
    (hmore : ∀ a ∈ l, p a → p' a) (hnew : ∀ a ∈ l, p' a → p a = false → ∀ y, f a = some y → y = x)
    (h : (l.filter p').findSome? f = some y) : y = x ∨ (l.filter p).findSome? f = some y := by
  induction l with
  | nil => cases h
  | cons a l ih =>
    obtain ⟨hmorea, hmore⟩ := forall_mem_cons.mp hmore
    obtain ⟨hnewa, hnew⟩ := forall_mem_cons.mp hnew
    cases hp' : p' a with
    | false =>
      have hp : p a = false := by
        by_contra hp
        rw [hmorea (by simpa using hp)] at hp'
        cases hp'
      rw [filter_cons_of_neg (by simp [hp'])] at h
      rw [filter_cons_of_neg (by simp [hp])]
      exact ih hmore hnew h
    | true =>
      rw [filter_cons_of_pos hp', findSome?_cons] at h
      cases hfa : f a with
      | none =>
        rw [hfa] at h
        refine (ih hmore hnew h).imp_right fun hold => ?_
        cases hp : p a with
        | false => rwa [filter_cons_of_neg (by simp [hp])]
        | true => rwa [filter_cons_of_pos hp, findSome?_cons, hfa]
      | some z =>
        rw [hfa] at h
        cases h
        cases hp : p a with
        | false => exact .inl (hnewa hp' hp _ hfa)
        | true =>
          refine .inr ?_
          rw [filter_cons_of_pos hp, findSome?_cons, hfa]

namespace Candidate

/-! ### Tables that take their places -/

/-- The second is the first with its place, if that had none. -/
def Extends (t t' : Candidate) : Prop :=
  ∃ hops, t' = { t with hops := hops } ∧ (t.isPlaced → hops = t.hops)

theorem Extends.refl (t : Candidate) : t.Extends t := ⟨t.hops, rfl, fun _ => rfl⟩

theorem Extends.trans {t t' t'' : Candidate} (h : t.Extends t') (h' : t'.Extends t'') : t.Extends t'' := by
  obtain ⟨hops, rfl, hhops⟩ := h
  obtain ⟨hops', rfl, hhops'⟩ := h'
  refine ⟨hops', rfl, fun hplaced => ?_⟩
  have hsame := hhops hplaced
  rw [hhops' (by rw [isPlaced, hsame]; exact hplaced)]
  exact hsame

theorem Extends.hops_eq {t t' : Candidate} (h : t.Extends t') {hops : List Hop}
    (hhops : t.hops = some hops) : t'.hops = some hops := by
  obtain ⟨hops', rfl, hsame⟩ := h
  rw [← hhops]
  exact hsame (by rw [isPlaced, hhops]; rfl)

theorem Extends.layout_eq {t t' : Candidate} (h : t.Extends t') : t'.layout = t.layout := by
  obtain ⟨hops, rfl, -⟩ := h
  rfl

theorem Extends.ref_eq {t t' : Candidate} (h : t.Extends t') : t'.ref = t.ref := by
  obtain ⟨hops, rfl, -⟩ := h
  rfl

theorem extends_trans {l l' l'' : List Candidate} (h : List.Forall₂ Extends l l')
    (h' : List.Forall₂ Extends l' l'') : List.Forall₂ Extends l l'' :=
  forall₂_comp h h' Extends.trans

/-- The table after its turn in a round. -/
def turn (joins : List JoinStep) (others : List Candidate) (t : Candidate) : Candidate :=
  match t.hops with
  | some _ => t
  | none => { t with hops := seat? joins others t }

theorem placeRound_cons (joins : List JoinStep) (before : List Candidate) (t : Candidate) (rest : List Candidate) :
    placeRound joins before (t :: rest) = placeRound joins (before ++ [turn joins (before ++ t :: rest) t]) rest := rfl

theorem extends_turn (joins : List JoinStep) (others : List Candidate) (t : Candidate) :
    t.Extends (turn joins others t) := by
  rw [turn]
  split
  · exact .refl t
  · rename_i hnone
    exact ⟨_, rfl, fun hplaced => by rw [isPlaced, hnone] at hplaced; cases hplaced⟩

theorem extends_placeRound (joins : List JoinStep) (before rest : List Candidate) :
    List.Forall₂ Extends (before ++ rest) (placeRound joins before rest) := by
  induction rest generalizing before with
  | nil =>
    rw [append_nil]
    exact forall₂_same.mpr fun t _ => .refl t
  | cons t rest ih =>
    rw [placeRound_cons]
    refine extends_trans ?_ (ih _)
    rw [append_assoc]
    have hrest : List.Forall₂ Extends rest rest := forall₂_same.mpr fun t _ => .refl t
    have hbefore : List.Forall₂ Extends before before := forall₂_same.mpr fun t _ => .refl t
    exact rel_append hbefore (.cons (extends_turn joins _ t) hrest)

variable {tables : List Candidate}

theorem extends_placeRounds {joins : List JoinStep} {rounds : Nat} {placed : List Candidate}
    (h : placeRounds joins rounds tables = some placed) : List.Forall₂ Extends tables placed := by
  induction rounds generalizing tables with
  | zero =>
    rw [placeRounds] at h
    split at h <;> cases h
    exact forall₂_same.mpr fun t _ => .refl t
  | succ rounds ih =>
    rw [placeRounds] at h
    split at h
    · cases h
      exact forall₂_same.mpr fun t _ => .refl t
    · extract_lets next at h
      split at h
      · cases h
      · exact extends_trans (extends_placeRound joins [] tables) (ih h)

/-! ### Conditions that mention more -/

/-- The conditions of `joins'` mention what those of `joins` do, and apart from that only tables in the
place below which a table has its seat. -/
structure MentionHolders (joins joins' : List JoinStep) (placed : List Candidate) : Prop where
  more : ∀ t ∈ placed, ∀ name, Text.hasName (partners joins t.ref) name → Text.hasName (partners joins' t.ref) name
  held : ∀ t ∈ placed, ∀ o ∈ placed, Text.hasName (partners joins' t.ref) o.ref.referenceName →
    Text.hasName (partners joins t.ref) o.ref.referenceName = false →
    ∀ above hop, t.hops = some (above ++ [hop]) → o.hops = some above

variable {joins joins' : List JoinStep} {placed others : List Candidate} {t t' : Candidate}

theorem seat?_eq_none (h : seat? joins others t = none) (joins' : List JoinStep) : seat? joins' others t = none := by
  have hothers : others.findSome? (seatBelow? t.layout.table) = none := by
    rw [seat?] at h
    split at h
    · cases h
    · exact h
  have hpreferred : ∀ p : Candidate → Bool,
      (others.filter p).findSome? (seatBelow? t.layout.table) = none := by
    intro p
    rw [findSome?_eq_none_iff] at hothers ⊢
    exact fun o ho => hothers o (mem_of_mem_filter ho)
  rw [seat?, hpreferred]
  exact hothers

section Mentions

variable (hmentions : MentionHolders joins joins' placed)
  (hplaces : ∀ o ∈ placed, ∀ o' ∈ placed, ∀ hops, o.hops = some hops → o'.hops = some hops → o.layout = o'.layout)
include hmentions hplaces

theorem seat?_eq (hothers : ∀ o ∈ others, ∃ o' ∈ placed, o.Extends o') (ht' : t' ∈ placed)
    (hseat : Extends { t with hops := seat? joins others t } t') : seat? joins' others t = seat? joins others t := by
  cases hfound : seat? joins others t with
  | none => exact seat?_eq_none hfound joins'
  | some hops =>
    rw [hfound] at hseat
    have htable : t'.layout = t.layout := hseat.layout_eq
    have href : t'.ref = t.ref := hseat.ref_eq
    obtain ⟨first, hfirst, hbelow⟩ := Catalog.of_seat? hfound
    obtain ⟨above, k, habove, -, -, rfl⟩ := Catalog.of_seatBelow? hbelow
    obtain ⟨first', hfirst', hext⟩ := hothers first hfirst
    have hnew : ∀ o ∈ others, Text.hasName (partners joins' t.ref) o.ref.referenceName →
        Text.hasName (partners joins t.ref) o.ref.referenceName = false →
        ∀ y, seatBelow? t.layout.table o = some y → y = above ++ [⟨.embed, k⟩] := by
      intro o ho hmentioned hnot y hy
      obtain ⟨above', k', habove', -, -, rfl⟩ := Catalog.of_seatBelow? hy
      obtain ⟨o', ho', hexto⟩ := hothers o ho
      rw [← hexto.ref_eq, ← href] at hmentioned hnot
      have hsame := hmentions.held t' ht' o' ho' hmentioned hnot above _ (hseat.hops_eq rfl)
      have hlayout := hplaces o' ho' first' hfirst' above hsame (hext.hops_eq habove)
      rw [hexto.layout_eq, hext.layout_eq] at hlayout
      rw [hexto.hops_eq habove'] at hsame
      cases hsame
      rw [seatBelow?, habove, ← hlayout] at hbelow
      rw [seatBelow?, habove', hbelow] at hy
      exact (Option.some.inj hy).symm
    have hmore : ∀ o ∈ others, Text.hasName (partners joins t.ref) o.ref.referenceName →
        Text.hasName (partners joins' t.ref) o.ref.referenceName :=
      fun o _ => href ▸ hmentions.more t' ht' _
    rw [seat?]
    rw [seat?] at hfound
    split
    · rename_i y hy
      rcases findSome?_filter_agree hmore hnew hy with rfl | hold
      · rfl
      · rw [hold] at hfound
        exact hfound
    · rename_i hnone
      have hpreferred : (others.filter fun o => Text.hasName (partners joins t.ref)
          o.ref.referenceName).findSome? (seatBelow? t.layout.table) = none := by
        rw [findSome?_eq_none_iff] at hnone ⊢
        intro o ho
        obtain ⟨hmem, hmentioned⟩ := mem_filter.mp ho
        exact hnone o (mem_filter.mpr ⟨hmem, hmore o hmem hmentioned⟩)
      rw [hpreferred] at hfound
      exact hfound

theorem placeRound_eq {before rest : List Candidate} (h : List.Forall₂ Extends (placeRound joins before rest) placed) :
    placeRound joins' before rest = placeRound joins before rest := by
  induction rest generalizing before with
  | nil => rfl
  | cons t rest ih =>
    have hall := extends_trans (extends_placeRound joins before (t :: rest)) h
    rw [placeRound_cons] at h
    have hturn : turn joins' (before ++ t :: rest) t = turn joins (before ++ t :: rest) t := by
      have hafter := extends_trans (extends_placeRound joins _ rest) h
      obtain ⟨t', hmem, hext⟩ := exists_right_of_forall₂ hafter
        (mem_append_left _ (mem_append_right _ (mem_singleton_self _)))
      rw [turn] at hext ⊢
      rw [turn]
      cases hhops : t.hops with
      | some hops => rfl
      | none =>
        rw [hhops] at hext
        have hseat := seat?_eq hmentions hplaces (fun o ho => ?_) (of_mem_zip hmem).2 hext
        · simp only [hseat]
        · obtain ⟨o', hmem', hext'⟩ := exists_right_of_forall₂ hall ho
          exact ⟨o', (of_mem_zip hmem').2, hext'⟩
    rw [placeRound_cons, placeRound_cons, hturn]
    exact ih h

theorem placeRounds_eq {rounds : Nat} (h : placeRounds joins rounds tables = some placed) :
    placeRounds joins' rounds tables = some placed := by
  induction rounds generalizing tables with
  | zero => exact h
  | succ rounds ih =>
    rw [placeRounds] at h ⊢
    split
    · rename_i hall
      rwa [if_pos hall] at h
    · rename_i hsome
      rw [if_neg hsome] at h
      extract_lets next at h
      have hround : placeRound joins' [] tables = next := by
        split at h
        · cases h
        · exact placeRound_eq hmentions hplaces (extends_placeRounds h)
      rw [hround]
      split at h
      · cases h
      · rename_i hcount
        simp only [hcount, if_false]
        exact ih h

end Mentions

end Candidate

/-! ### Conditions with further terms -/

def Expression.withTerms (condition : Option Expression) (terms : List Expression) : Expression :=
  .and (condition.toList ++ terms)

theorem Expression.columnsOf_eq (es : List Expression) : columnsOf es = es.flatMap columns := by
  induction es with
  | nil => rfl
  | cons e es ih => rw [columnsOf, ih, flatMap_cons]

theorem Expression.conjunctsOf_eq (es : List Expression) : conjunctsOf es = es.flatMap conjuncts := by
  induction es with
  | nil => rfl
  | cons e es ih => rw [conjunctsOf, ih, flatMap_cons]

theorem Expression.columns_withTerms (condition : Option Expression) (terms : List Expression) :
    (withTerms condition terms).columns = (condition.toList ++ terms).flatMap columns := by
  rw [withTerms, columns, columnsOf_eq]

def JoinStep.withTerms (step : JoinStep) (terms : List Expression) : JoinStep :=
  { step with condition := some (.withTerms step.condition terms) }

def Join.withTerms (join : Join) (terms : List Expression) : Join :=
  { join with condition := some (.withTerms join.condition terms) }

namespace FromClause

variable {tables : List (TableRef × Bool)} {steps : List JoinStep}

def withTerms (source : FromClause) (terms : Nat → List Expression) : FromClause :=
  { source with joins := source.joins.mapIdx fun i join => join.withTerms (terms i) }

variable {joins : List Join}

theorem extensions_withTerms (h : extensions joins = .ok (tables, steps)) (terms : Nat → List Expression) :
    extensions (joins.mapIdx fun i join => join.withTerms (terms i)) =
      .ok (tables, steps.mapIdx fun i step => step.withTerms (terms i)) := by
  induction joins generalizing tables steps terms with
  | nil =>
    cases h
    rfl
  | cons j joins ih =>
    have hextend {outer : Bool}
        (h : (extensions joins >>= fun r => .ok ((j.table, outer) :: r.1,
          { name := j.table.referenceName, outer := outer, condition := j.condition } :: r.2)) =
          .ok (tables, steps)) :
        (extensions (joins.mapIdx fun i join => join.withTerms (terms (i + 1))) >>= fun r =>
          .ok ((j.table, outer) :: r.1, JoinStep.withTerms
            { name := j.table.referenceName, outer := outer, condition := j.condition } (terms 0) :: r.2)) =
          .ok (tables, steps.mapIdx fun i step => step.withTerms (terms i)) := by
      obtain ⟨⟨rest, steps'⟩, hrest, h⟩ := exists_of_bind_ok h
      cases h
      rw [ih hrest fun i => terms (i + 1), mapIdx_cons]
      rfl
    rw [extensions] at h
    rw [mapIdx_cons, extensions]
    cases hj : j.joinType with
    | inner | leftOuter =>
      simp only [Join.withTerms, hj] at h ⊢
      exact hextend h
    | _ =>
      simp only [hj] at h
      cases h

def distinct (r : List (TableRef × Bool) × List JoinStep) :
    Except QueryError (List (TableRef × Bool) × List JoinStep) :=
  match firstRepeated? [] (r.1.map (·.1)) with
  | some name => throw (.duplicateSource name)
  | none => return r

theorem distinct_ok {r : List (TableRef × Bool) × List JoinStep} (h : distinct (tables, steps) = .ok r) :
    r = (tables, steps) ∧ ∀ steps', distinct (tables, steps') = .ok (tables, steps') := by
  rw [distinct] at h
  split at h
  · cases h
  · rename_i hnone
    cases h
    refine ⟨rfl, fun steps' => ?_⟩
    rw [distinct, hnone]
    rfl

theorem normalize_right (base table : TableRef) (condition : Option Expression) (joins : List Join) :
    FromClause.normalize ⟨base, ⟨.rightOuter, table, condition⟩ :: joins⟩ =
      extensions joins >>= fun r => distinct ((base, true) :: (table, false) :: r.1,
        { name := base.referenceName, outer := true, condition := condition } :: r.2) := by
  rw [normalize]
  dsimp only
  cases extensions joins with
  | error e | ok r => rfl

theorem normalize_left {base : TableRef} (h : ∀ j ∈ joins.head?, j.joinType ≠ .rightOuter) :
    FromClause.normalize ⟨base, joins⟩ = extensions joins >>= fun r => distinct ((base, false) :: r.1, r.2) := by
  rw [normalize]
  split
  · rename_i heq
    cases heq
    exact absurd rfl (h _ rfl)
  · cases extensions joins with
    | error e | ok r => rfl

theorem normalize_withTerms {source : FromClause} (h : source.normalize = .ok (tables, steps))
    (terms : Nat → List Expression) :
    (source.withTerms terms).normalize = .ok (tables, steps.mapIdx fun i step => step.withTerms (terms i)) := by
  obtain ⟨base, joins⟩ := source
  by_cases hleft : ∀ j ∈ joins.head?, j.joinType ≠ .rightOuter
  · rw [normalize_left hleft] at h
    obtain ⟨⟨more, moreSteps⟩, hmore, h⟩ := exists_of_bind_ok h
    obtain ⟨heq, hdistinct⟩ := distinct_ok h
    cases heq
    rw [withTerms, normalize_left, extensions_withTerms hmore]
    · exact hdistinct _
    · intro j hj
      rw [head?_mapIdx] at hj
      obtain ⟨j', hj', rfl⟩ := Option.map_eq_some_iff.mp hj
      exact hleft j' hj'
  · simp only [not_forall, not_not] at hleft
    obtain ⟨⟨type, table, condition⟩, hj, hright⟩ := hleft
    obtain ⟨rest, rfl⟩ := head?_eq_some_iff.mp hj
    cases hright
    rw [normalize_right] at h
    obtain ⟨⟨more, moreSteps⟩, hmore, h⟩ := exists_of_bind_ok h
    obtain ⟨heq, hdistinct⟩ := distinct_ok h
    cases heq
    rw [withTerms, mapIdx_cons]
    refine (normalize_right base table _ _).trans ?_
    rw [extensions_withTerms hmore fun i => terms (i + 1), mapIdx_cons]
    exact hdistinct _

end FromClause

/-! ### Terms that equate keys -/

def Expression.equated (l r : ColumnRef) : Expression := .comparison .eq (.column l) (.column r)

/-- The rows of `holder` hold those of `s`, and `own` names a column by which these are linked to them,
`other` the column there that it is read from. -/
structure Source.KeyPair (s holder : Source) (own other : ColumnRef) : Prop where
  linked : ∃ hop referenced, s.hops = holder.hops ++ [hop] ∧
    Catalog.counterpart? hop.linkedColumns hop.partnerColumns own.column = some referenced ∧
    Text.same referenced other.column
  own : own.table ≠ "" ∧ Text.same s.name own.table
  other : other.table ≠ "" ∧ Text.same holder.name other.table

/-- The term equates a column by which the rows of the table that is joined are linked to those that hold
them with the column there. -/
def Placement.KeyTerm (p : Placement) (name : String) (e : Expression) : Prop :=
  ∃ s ∈ p.sources, ∃ holder ∈ p.sources, ∃ own other, Text.same s.name name ∧
    s.KeyPair holder own other ∧ (e = .equated own other ∨ e = .equated other own)

variable {name : String}

theorem Candidate.mem_partners {joins : List JoinStep} {t : TableRef} :
    name ∈ partners joins t ↔ (∃ join ∈ joins, Text.same join.name t.referenceName ∧
      ∃ condition, join.condition = some condition ∧ ∃ ref ∈ condition.columns, ref.table = name) ∧
      ¬Text.same name t.referenceName := by
  simp only [partners, mem_filter, mem_flatMap, mem_filterMap, mem_map]
  constructor
  · rintro ⟨⟨condition, ⟨join, ⟨hjoin, hsame⟩, hcondition⟩, href⟩, hother⟩
    exact ⟨⟨join, hjoin, hsame, condition, hcondition, href⟩, by simpa using hother⟩
  · rintro ⟨⟨join, hjoin, hsame, condition, hcondition, href⟩, hother⟩
    exact ⟨⟨condition, ⟨join, ⟨hjoin, hsame⟩, hcondition⟩, href⟩, by simpa using hother⟩

namespace Catalog

variable {c : Catalog} {source : FromClause} {placement : Placement}

section Candidates

variable {placed : List Candidate} (hplaced : c.Placed source placement (placed.map sourceOf))
include hplaced

theorem Placed.candidate_eq {t t' : Candidate} (ht : t ∈ placed) (ht' : t' ∈ placed)
    (hsame : Text.same t.ref.referenceName t'.ref.referenceName) : t = t' := by
  have hapart := hplaced.apart
  rw [pairwise_map] at hapart
  have hnodup : (placed.map fun t => Text.lower t.ref.referenceName).Nodup := pairwise_map.mpr hapart
  exact inj_on_of_nodup_map hnodup ht ht' (Text.lower_eq_of_same hsame)

theorem Placed.exists_candidate {s : Source} (hs : s ∈ placement.sources) :
    ∃ t ∈ placed, s.name = t.ref.referenceName ∧
      c.Reads placement.top (HopPlan.required (placed.map sourceOf)) (sourceOf t).hops s.hops := by
  obtain ⟨s₀, hmem, hsame, hreads⟩ := exists_left_of_forall₂ hplaced.forall₂_reads hs
  obtain ⟨t, ht, rfl⟩ := mem_map.mp (of_mem_zip hmem).1
  exact ⟨t, ht, congrArg Source.name hsame, hreads⟩

theorem Placed.hops_of_held (hc : c.Indexed)
    (hseated : ∀ t ∈ placed, c.Seated placement.top t ∧ t.hops = some (sourceOf t).hops)
    {t o : Candidate} (ht : t ∈ placed) (ho : o ∈ placed) {s holder : Source} (hs : s ∈ placement.sources)
    (hholder : holder ∈ placement.sources) (hname : Text.same s.name t.ref.referenceName)
    (hname' : Text.same holder.name o.ref.referenceName) {hop hop' : Hop} {above : List Hop}
    (hhops : s.hops = holder.hops ++ [hop]) (habove : t.hops = some (above ++ [hop'])) : o.hops = some above := by
  obtain ⟨t₀, ht₀, hnamet, hreads⟩ := hplaced.exists_candidate hs
  obtain ⟨o₀, ho₀, hnameo, hreads'⟩ := hplaced.exists_candidate hholder
  cases hplaced.candidate_eq ht₀ ht (hnamet ▸ hname)
  cases hplaced.candidate_eq ho₀ ho (hnameo ▸ hname')
  obtain ⟨hseat, htseat⟩ := hseated t ht
  obtain ⟨hseat', hoseat⟩ := hseated o ho
  rw [habove] at htseat
  rw [← Option.some.inj htseat, hhops] at hreads
  obtain ⟨above', hop'', heq, hread, -⟩ := hreads.to_concat
  obtain ⟨rfl, -⟩ := append_inj' heq rfl
  obtain ⟨l, hchain⟩ := (hseat.chain _ habove).init
  have hchain' := hseat'.chain _ hoseat
  have hfields := hread.fields_eq hc hreads' hchain.readAs_eq_none hchain'.readAs_eq_none
  rw [hoseat, hchain.eq_of_fields hc hchain' hfields]

end Candidates

section Terms

variable {joins : List JoinStep} {terms : Nat → List Expression}

theorem mem_partners_withTerms {t : TableRef} (h : name ∈ partners joins t) :
    name ∈ partners (joins.mapIdx fun i join => join.withTerms (terms i)) t := by
  obtain ⟨⟨join, hjoin, hjoined, condition, hcondition, ref, href, rfl⟩, hother⟩ := mem_partners.mp h
  obtain ⟨i, hi, rfl⟩ := mem_iff_getElem.mp hjoin
  refine mem_partners.mpr ⟨⟨joins[i].withTerms (terms i), mem_mapIdx.mpr ⟨i, hi, rfl⟩,
    hjoined, _, rfl, ref, ?_, rfl⟩, hother⟩
  rw [columns_withTerms, flatMap_append]
  exact mem_append_left _ (mem_flatMap.mpr ⟨condition, Option.mem_toList.mpr hcondition, href⟩)

variable (hterms : ∀ i join, joins[i]? = some join → ∀ e ∈ terms i, placement.KeyTerm join.name e)
include hterms

theorem of_mem_partners_withTerms {t : TableRef}
    (h : name ∈ partners (joins.mapIdx fun i join => join.withTerms (terms i)) t) :
    name ∈ partners joins t ∨ ∃ s ∈ placement.sources, ∃ holder ∈ placement.sources,
      Text.same s.name t.referenceName ∧ Text.same holder.name name ∧ ∃ hop, s.hops = holder.hops ++ [hop] := by
  obtain ⟨⟨join, hjoin, hsame, _, hcondition, ref, href, rfl⟩, hother⟩ := mem_partners.mp h
  obtain ⟨i, hi, rfl⟩ := mem_mapIdx.mp hjoin
  cases hcondition
  rw [columns_withTerms, flatMap_append, mem_append] at href
  rcases href with href | href
  · obtain ⟨condition, hcondition, href⟩ := mem_flatMap.mp href
    exact .inl (mem_partners.mpr ⟨⟨joins[i], getElem_mem hi, hsame, condition,
      Option.mem_toList.mp hcondition, ref, href, rfl⟩, hother⟩)
  · obtain ⟨e, he, href⟩ := mem_flatMap.mp href
    obtain ⟨s, hs, holder, hholder, own, other, hs', hpair, he⟩ := hterms i joins[i] (getElem?_eq_getElem hi) e he
    have hnamed : Text.same s.name t.referenceName := Text.same_trans hs' hsame
    have hcolumns : ref = own ∨ ref = other := by
      rcases he with rfl | rfl
      · simpa [equated, columns] using href
      · simpa [equated, columns, or_comm] using href
    rcases hcolumns with rfl | rfl
    · rw [Text.same_comm] at hother
      exact absurd (Text.same_trans ((Text.same_comm _ _).trans hnamed) hpair.own.2) hother
    · obtain ⟨hop, -, hhops, -⟩ := hpair.linked
      exact .inr ⟨s, hs, holder, hholder, hnamed, hpair.other.2, hop, hhops⟩

theorem mentionHolders_withTerms (hc : c.Indexed) {placed : List Candidate}
    (hplaced : c.Placed source placement (placed.map sourceOf))
    (hseated : ∀ t ∈ placed, c.Seated placement.top t ∧ t.hops = some (sourceOf t).hops) :
    Candidate.MentionHolders joins (joins.mapIdx fun i join => join.withTerms (terms i)) placed := by
  constructor
  · intro t ht name hname
    obtain ⟨mentioned, hmem, hsame⟩ := any_eq_true.mp hname
    exact any_eq_true.mpr ⟨mentioned, mem_partners_withTerms hmem, hsame⟩
  · intro t ht o ho hname hnot above hop habove
    obtain ⟨mentioned, hmem, hsame⟩ := any_eq_true.mp hname
    rcases of_mem_partners_withTerms hterms hmem with
      hold | ⟨s, hs, holder, hholder, hnamed, hnamed', hop', hhops⟩
    · have hmentioned : Text.hasName (partners joins t.ref) o.ref.referenceName :=
        any_eq_true.mpr ⟨mentioned, hold, hsame⟩
      rw [hnot] at hmentioned
      cases hmentioned
    · exact hplaced.hops_of_held hc hseated ht ho hs hholder hnamed (Text.same_trans hnamed' hsame) hhops habove

end Terms

theorem place_withTerms (hc : c.Indexed) (h : c.place source = .ok placement) {terms : Nat → List Expression}
    (hterms : ∀ i join, placement.joins[i]? = some join → ∀ e ∈ terms i, placement.KeyTerm join.name e) :
    c.place (source.withTerms terms) = .ok { placement with
      joins := placement.joins.mapIdx fun i join => join.withTerms (terms i) } := by
  obtain ⟨tables, joins, layouts, placed, hnormalize, hlayouts, htop, hplaced, hplan, hjoins⟩ := place_eq_ok_iff.mp h
  obtain ⟨hsources, hseated⟩ := placed_sources hc hnormalize hlayouts htop hplaced hplan
  refine place_eq_ok_iff.mpr ⟨tables, joins.mapIdx fun i join => join.withTerms (terms i), layouts, placed,
    FromClause.normalize_withTerms hnormalize terms, hlayouts, htop, ?_, hplan, ?_⟩
  · refine placeRounds_eq (mentionHolders_withTerms (fun i join hi => ?_) hc hsources hseated)
      (fun o ho o' ho' hops hhops hhops' => ?_) hplaced
    · refine hterms i { join with many := readsArray placement.sources join.name } ?_
      rw [hjoins, getElem?_map, hi]
      rfl
    · exact ((hseated o ho).1.chain _ hhops).layout_eq_of_fields hc ((hseated o' ho').1.chain _ hhops') rfl
  · refine ext_getElem? fun i => ?_
    simp only [hjoins, getElem?_mapIdx, getElem?_map, Option.map_map]
    rfl

end Catalog

end Pushdown
