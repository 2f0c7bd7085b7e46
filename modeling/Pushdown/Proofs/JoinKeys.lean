import Pushdown.Proofs.JoinPlaces
import Pushdown.Query.Select

/-!
# Keys of joins

The rows of a table lie in those that hold them, and need not be looked up by key. `of_mem_openTerms`: each term of
a join condition is implied by where the rows lie, or is tested after the join (`Tests`). `compile_with_keys`: with
its keys added to the joins, a query is compiled as it is without them.
-/

namespace Pushdown

open List Catalog Expression

namespace Catalog

variable {c : Catalog} {top : String} {l : Layout} {above : List Hop} {hop : Hop} {source : FromClause}
  {placement : Placement}

theorem Chain.columns_found (hc : c.Indexed) (hfound : c.ReferencesFound) (h : c.Chain top l (above ++ [hop])) :
    ∃ holder t u, c.Chain top holder above ∧ c.table l.table = .ok t ∧ c.table holder.table = .ok u ∧
      (∀ column ∈ hop.linkedColumns, (t.column? column).isSome) ∧
      ∀ column ∈ hop.partnerColumns, (u.column? column).isSome := by
  generalize hhops : above ++ [hop] = hops at h
  cases h with
  | own hl htop =>
    cases layout_eq_ok_iff.mp hl with
    | top ht hown hmerge =>
      rw [((LaysOut.top ht hown hmerge).hops_of_top ht hmerge).1] at hhops
      simp at hhops
    | @merged _ _ t own parent key ht hown hmerge hparent hkey =>
      rw [LaysOut.hops_merged] at hhops
      obtain ⟨rfl, hlast⟩ := append_inj' hhops rfl
      cases hlast
      obtain ⟨u, hu⟩ := hparent.exists_table
      have hname : c.table parent.table = .ok u := by
        rw [(hparent.outlines hu).table]
        exact table_name hc.keyed hu
      obtain ⟨ref, href, hsame, hcolumns, hreferenced, -⟩ := mergeKey_reference hkey
      obtain ⟨fk, hfk, href⟩ := exists_of_mem_mapM (outline_ok hown).1.references href
      have htarget : c.table ref.referencedTable = .ok u := table_of_lower (Text.lower_eq_of_same hsame).symm hname
      refine ⟨parent, t, u, ?_, ?_, hname, fun column hcolumn => ?_, fun column hcolumn => ?_⟩
      · exact .own (layout_eq_ok_iff.mpr hparent) (LaysOut.collection_merged.symm.trans htop)
      · show c.table own.table = _
        rw [(outline_ok hown).1.table]
        exact table_name hc.keyed ht
      · exact column_of_reference href (hcolumns ▸ hcolumn)
      · exact hfound t (mem_tables_of_table ht) fk hfk ref (by rw [href]; rfl) u (by rw [htarget]; rfl)
          column (hreferenced ▸ hcolumn)
  | @copy holder held hops _ k hholder hk hheld hchild =>
    obtain ⟨rfl, hlast⟩ := append_inj' hhops rfl
    cases hlast
    obtain ⟨_, hl⟩ := hholder.exists_layout
    obtain ⟨u, hu, hown⟩ := exists_outlines (layout_layout_table hc.keyed hl)
    obtain ⟨ref, href, target, htarget, -, rfl⟩ := (hown.embedsFor.mem_iff _).mp hk
    obtain ⟨fk, hfk, href⟩ := exists_of_mem_mapM hown.references href
    refine ⟨holder, target, u, hholder, ?_, hu, fun column hcolumn => ?_, fun column hcolumn => ?_⟩
    · rw [← hchild]
      exact table_name hc.keyed htarget
    · exact hfound u (mem_tables_of_table hu) fk hfk ref (by rw [href]; rfl) target
        (by rw [htarget]; rfl) column hcolumn
    · exact column_of_reference href hcolumn

/-- Every table is reached by the chain that leads to it: no row may be absent, or no name on the way has
a dot. -/
def Told (c : Catalog) (source : FromClause) (placement : Placement) : Prop :=
  (∀ s ∈ placement.sources, s.optional = false) ∨ c.DotFree source

theorem Told.of_mem (h : c.Told source placement) {s : Source} (hs : s ∈ placement.sources) :
    s.optional = false ∨ c.DotFree source :=
  h.imp_left fun hpresent => hpresent s hs

section Keys

variable (hc : c.Indexed) (hfound : c.ReferencesFound) (h : c.place source = .ok placement)
  (htold : c.Told source placement) {s holder : Source} (hs : s ∈ placement.sources)
  (hholder : holder ∈ placement.sources)
include hc hfound h htold hs hholder

theorem columns_of_held (hhops : s.hops = holder.hops ++ [hop]) :
    ∃ t u, c.table s.table = .ok t ∧ c.table holder.table = .ok u ∧
      (∀ column ∈ hop.linkedColumns, (t.column? column).isSome) ∧
      ∀ column ∈ hop.partnerColumns, (u.column? column).isSome := by
  obtain ⟨l, hops, htable, hchain, hplain⟩ := plain_of_place hc h hs (htold.of_mem hs)
  obtain ⟨l', hops', htable', hchain', hplain'⟩ := plain_of_place hc h hholder (htold.of_mem hholder)
  rw [hhops, map_append, map_singleton] at hplain
  obtain ⟨above, rest, rfl, habove, hrest⟩ := map_eq_append_iff.mp hplain
  obtain ⟨hop', rfl, hlast⟩ := map_eq_singleton_iff.mp hrest
  have hlinked : hop'.linkedColumns = hop.linkedColumns := by
    show hop'.plain.linkedColumns = hop.plain.linkedColumns
    rw [hlast]
  have hpartner : hop'.partnerColumns = hop.partnerColumns := by
    show hop'.plain.partnerColumns = hop.plain.partnerColumns
    rw [hlast]
  obtain ⟨holding, t, u, habove', ht, hu, hown, hother⟩ := hchain.columns_found hc hfound
  have hsame : holding = l' :=
    habove'.layout_eq_of_fields hc hchain' (Hop.map_field_of_plain (habove.trans hplain'.symm))
  rw [hlinked] at hown
  rw [hpartner] at hother
  exact ⟨t, u, htable ▸ ht, htable' ▸ hsame ▸ hu, hown, hother⟩

theorem locate_keyPair {own other : ColumnRef} (hpair : s.KeyPair holder own other) :
    ∃ (t u : Table) (col col' : Column) (location : Location),
      c.table s.table = .ok t ∧ t.column? own.column = some col ∧
      c.table holder.table = .ok u ∧ u.column? other.column = some col' ∧
      c.locate placement.top s.hops own.column = .ok location ∧
      c.locate placement.top holder.hops other.column = .ok location ∧
      location.path s.hops = location.path holder.hops := by
  obtain ⟨hop, referenced, hhops, hother, hsame⟩ := hpair.linked
  obtain ⟨t, u, ht, hu, hlinked, hpartner⟩ := columns_of_held hc hfound h htold hs hholder hhops
  obtain ⟨linked, hmem, hsame'⟩ := mem_zip_of_counterpart? hother
  obtain ⟨col, hcol⟩ := Option.isSome_iff_exists.mp (hlinked linked (of_mem_zip hmem).1)
  obtain ⟨col', hcol'⟩ := Option.isSome_iff_exists.mp (hpartner referenced (of_mem_zip hmem).2)
  obtain ⟨location, hlocate⟩ := exists_location_of_place hc hfound h hholder (htold.of_mem hholder) hu
    (Option.isSome_of_eq_some hcol')
  have hcolumn : t.column? own.column = some col := (find?_same hsame' t.columns).symm.trans hcol
  have hcolumn' : u.column? other.column = some col' := (find?_same hsame u.columns).symm.trans hcol'
  have hreached := reached_of_place hc h hs (htold.of_mem hs)
  obtain ⟨l, hl⟩ := hreached.layout
  have hchild : s.table = hop.link.child := by
    rw [hreached.table, hhops, map_append, map_singleton, getLast?_concat]
    rfl
  refine ⟨t, u, col, col', location, ht, hcolumn, hu, hcolumn', ?_, locate_same hsame hlocate, ?_⟩
  · rw [hhops, locate_linked hop (hchild ▸ hl) (hchild ▸ ht) hcolumn hother]
    exact hlocate
  · rw [Location.path, Location.path, hhops, take_append_of_le_length (depth_le_of_locate hlocate)]

end Keys

end Catalog

namespace Select

variable {σ : Type} {ctx : Context σ} {source : FromClause} {placement : Placement}

theorem isImplied_equated {l r : ColumnRef} {a b : ResolvedColumn} (hl : ctx.resolve l = .ok a)
    (hr : ctx.resolve r = .ok b) (hpath : a.path = b.path) : isImplied ctx (.equated l r) = .ok true := by
  rw [equated, isImplied, hl, hr]
  simp only [bind, Except.bind, hpath, beq_self_eq_true]
  rfl

theorem isImplied_keyTerm (hc : ctx.catalog.Indexed) (hfound : ctx.catalog.ReferencesFound)
    (h : ctx.catalog.place source = .ok placement) (htold : ctx.catalog.Told source placement)
    (htop : ctx.top = placement.top) (hsources : ctx.sources = placement.sources)
    (hmode : ctx.mode ≠ .element) {name : String} {e : Expression} (he : placement.KeyTerm name e) :
    isImplied ctx e = .ok true := by
  obtain ⟨s, hs, holder, hholder, own, other, -, hpair, he⟩ := he
  have hapart := apart_of_place hc h
  rw [← hsources] at hapart
  obtain ⟨t, u, col, col', location, ht, hcol, hu, hcol', hlocate, hlocate', hpath⟩ :=
    locate_keyPair hc hfound h htold hs hholder hpair
  have hown : ctx.resolve own = .ok ⟨location.path s.hops, col.type⟩ := by
    rw [Context.resolve_eq (Context.sourceOf_same hapart (hsources ▸ hs) hpair.own.2 hpair.own.1) ht hcol
      hmode, htop, hlocate]
    rfl
  have hother : ctx.resolve other = .ok ⟨location.path holder.hops, col'.type⟩ := by
    rw [Context.resolve_eq (Context.sourceOf_same hapart (hsources ▸ hholder) hpair.other.2 hpair.other.1)
      hu hcol' hmode, htop, hlocate']
    rfl
  rcases he with rfl | rfl
  · exact isImplied_equated hown hother hpath
  · exact isImplied_equated hother hown hpath.symm

end Select

namespace JoinStep

def terms (join : JoinStep) : List Expression := (join.condition.map Expression.conjuncts).getD []

/-- The term can be tested after the join, among the conditions of the query. -/
structure Tests (join : JoinStep) (e : Expression) : Prop where
  inner : join.outer = false
  comparison : join.many → ∃ op l r, e = .comparison op l r

theorem terms_withTerms {more : List Expression} (hmore : ∀ e ∈ more, e.conjuncts = [e])
    (join : JoinStep) : (join.withTerms more).terms = join.terms ++ more := by
  have hself : more.flatMap conjuncts = more := by
    rw [flatMap_congr hmore]
    simp
  show conjuncts (.and _) = _
  rw [conjuncts, conjunctsOf_eq, flatMap_append, hself, terms]
  cases join.condition with
  | none => rfl
  | some condition => simp

end JoinStep

namespace Select

variable {σ : Type} {ctx : Context σ} {join : JoinStep} {joins : List JoinStep} {e : Expression}
  {es more rest : List Expression}

theorem openTerms_cons (h : openTerms ctx join (e :: es) = .ok rest) :
    (isImplied ctx e = .ok true ∧ openTerms ctx join es = .ok rest) ∨
      (isImplied ctx e = .ok false ∧ join.Tests e ∧
        ∃ rest', openTerms ctx join es = .ok rest' ∧ rest = e :: rest') := by
  unfold openTerms at h
  obtain ⟨implied, himplied, h⟩ := exists_of_bind_ok h
  cases implied with
  | true => exact .inl ⟨himplied, h⟩
  | false =>
    have hkept {rest : List Expression}
        (h : (openTerms ctx join es >>= fun rest' => .ok (e :: rest')) = .ok rest) :
        ∃ rest', openTerms ctx join es = .ok rest' ∧ rest = e :: rest' := by
      obtain ⟨rest', hrest, h⟩ := exists_of_bind_ok h
      cases h
      exact ⟨rest', hrest, rfl⟩
    rw [if_neg Bool.false_ne_true] at h
    split at h
    · cases h
    · rename_i hinner
      refine .inr ⟨himplied, ?_⟩
      have hinner : join.outer = false := by simpa using hinner
      cases hmany : join.many with
      | false =>
        rw [hmany] at h
        exact ⟨⟨hinner, fun htrue => absurd (hmany.symm.trans htrue) Bool.false_ne_true⟩, hkept h⟩
      | true =>
        rw [hmany] at h
        split at h
        · exact ⟨⟨hinner, fun _ => ⟨_, _, _, rfl⟩⟩, hkept h⟩
        · contradiction
        · cases h

theorem openTerms_cons_of_implied (he : isImplied ctx e = .ok true) :
    openTerms ctx join (e :: es) = openTerms ctx join es := by
  conv_lhs => unfold openTerms
  rw [he]
  rfl

theorem openTerms_cons_of_tests (he : isImplied ctx e = .ok false) (htests : join.Tests e)
    (h : openTerms ctx join es = .ok rest) : openTerms ctx join (e :: es) = .ok (e :: rest) := by
  unfold openTerms
  rw [he]
  simp only [bind, Except.bind, Bool.false_eq_true, if_false, htests.inner, h]
  cases hmany : join.many with
  | false => rfl
  | true =>
    obtain ⟨op, l, r, rfl⟩ := htests.comparison hmany
    rfl

theorem of_mem_openTerms (h : openTerms ctx join es = .ok rest) (he : e ∈ es) :
    isImplied ctx e = .ok true ∨ isImplied ctx e = .ok false ∧ join.Tests e := by
  induction es generalizing rest with
  | nil => cases he
  | cons first es ih =>
    rcases openTerms_cons h with ⟨himplied, h⟩ | ⟨hopen, htests, rest', h, -⟩
    · rcases mem_cons.mp he with rfl | he
      · exact .inl himplied
      · exact ih h he
    · rcases mem_cons.mp he with rfl | he
      · exact .inr ⟨hopen, htests⟩
      · exact ih h he

theorem openTerms_append (h : openTerms ctx join es = .ok rest)
    (hmore : ∀ e ∈ more, isImplied ctx e = .ok true) : openTerms ctx join (es ++ more) = .ok rest := by
  induction es generalizing rest with
  | nil =>
    cases h
    induction more with
    | nil => rfl
    | cons e more ih =>
      obtain ⟨he, hmore⟩ := forall_mem_cons.mp hmore
      exact (openTerms_cons_of_implied he).trans (ih hmore)
  | cons e es ih =>
    rcases openTerms_cons h with ⟨himplied, hrest⟩ | ⟨hopen, htests, rest', hrest, rfl⟩
    · exact (openTerms_cons_of_implied himplied).trans (ih hrest)
    · exact openTerms_cons_of_tests hopen htests (ih hrest)

theorem openTerms_withTerms (join : JoinStep) (more es : List Expression) :
    openTerms ctx (join.withTerms more) es = openTerms ctx join es := by
  induction es with
  | nil => rfl
  | cons e es ih =>
    unfold openTerms
    rw [ih]
    rfl

theorem joinTerms_cons (h : joinTerms ctx (join :: joins) = .ok rest) :
    ∃ first others, openTerms ctx join join.terms = .ok first ∧ joinTerms ctx joins = .ok others ∧
      rest = first ++ others := by
  rw [joinTerms] at h
  obtain ⟨first, hfirst, h⟩ := exists_of_bind_ok h
  obtain ⟨others, hothers, h⟩ := exists_of_bind_ok h
  cases h
  exact ⟨first, others, hfirst, hothers, rfl⟩

theorem of_mem_joinTerms (h : joinTerms ctx joins = .ok rest) (hjoin : join ∈ joins) (he : e ∈ join.terms) :
    isImplied ctx e = .ok true ∨ isImplied ctx e = .ok false ∧ join.Tests e := by
  induction joins generalizing rest with
  | nil => cases hjoin
  | cons first joins ih =>
    obtain ⟨_, _, hfirst, hothers, -⟩ := joinTerms_cons h
    rcases mem_cons.mp hjoin with rfl | hjoin
    · exact of_mem_openTerms hfirst he
    · exact ih hothers hjoin

theorem joinTerms_withTerms {terms : Nat → List Expression} (hterms : ∀ i join, joins[i]? = some join → ∀ e ∈ terms i,
      e.conjuncts = [e] ∧ isImplied ctx e = .ok true) (h : joinTerms ctx joins = .ok rest) :
    joinTerms ctx (joins.mapIdx fun i join => join.withTerms (terms i)) = .ok rest := by
  induction joins generalizing terms rest with
  | nil => exact h
  | cons join joins ih =>
    obtain ⟨first, others, hfirst, hothers, rfl⟩ := joinTerms_cons h
    have hjoin := hterms 0 join rfl
    have hopen : openTerms ctx (join.withTerms (terms 0)) (join.withTerms (terms 0)).terms = .ok first := by
      rw [openTerms_withTerms, JoinStep.terms_withTerms fun e he => (hjoin e he).1]
      exact openTerms_append hfirst fun e he => (hjoin e he).2
    have hrest : joinTerms ctx (joins.mapIdx fun i join => join.withTerms (terms (i + 1))) = .ok others :=
      ih (fun i join hi => hterms (i + 1) join hi) hothers
    rw [mapIdx_cons, joinTerms]
    change (openTerms ctx _ (JoinStep.terms _) >>= _) = _
    rw [hopen, hrest]
    rfl

end Select

variable {source : FromClause}

namespace FromClause

variable {steps : List JoinStep} {tables : List (TableRef × Bool)}

theorem joinType_of_extensions {joins : List Join} (h : extensions joins = .ok (tables, steps)) {join : Join}
    (hjoin : join ∈ joins) : join.joinType = .inner ∨ join.joinType = .leftOuter := by
  induction joins generalizing tables steps with
  | nil => cases hjoin
  | cons first joins ih =>
    have hrest : (first.joinType = .inner ∨ first.joinType = .leftOuter) ∧
        ∃ r, extensions joins = .ok r := by
      rw [extensions] at h
      cases hfirst : first.joinType with
      | inner =>
        simp only [hfirst] at h
        obtain ⟨r, hr, -⟩ := exists_of_bind_ok h
        exact ⟨.inl rfl, r, hr⟩
      | leftOuter =>
        simp only [hfirst] at h
        obtain ⟨r, hr, -⟩ := exists_of_bind_ok h
        exact ⟨.inr rfl, r, hr⟩
      | _ =>
        simp only [hfirst] at h
        cases h
    obtain ⟨hfirst, r, hr⟩ := hrest
    rcases mem_cons.mp hjoin with rfl | hjoin
    · exact hfirst
    · exact ih hr hjoin

theorem joinType_of_normalize (h : source.normalize = .ok (tables, steps)) {i : Nat} {join : Join}
    (hjoin : source.joins[i]? = some join) :
    join.joinType = .inner ∨ join.joinType = .leftOuter ∨ i = 0 ∧ join.joinType = .rightOuter := by
  obtain ⟨base, joins⟩ := source
  by_cases hleft : ∀ j ∈ joins.head?, j.joinType ≠ .rightOuter
  · rw [normalize_left hleft] at h
    obtain ⟨r, hr, -⟩ := exists_of_bind_ok h
    exact (joinType_of_extensions hr (mem_of_getElem? hjoin)).imp_right .inl
  · simp only [not_forall, not_not] at hleft
    obtain ⟨⟨type, table, condition⟩, hj, hright⟩ := hleft
    obtain ⟨rest, rfl⟩ := head?_eq_some_iff.mp hj
    cases hright
    rw [normalize_right] at h
    obtain ⟨r, hr, -⟩ := exists_of_bind_ok h
    cases i with
    | zero =>
      cases hjoin
      exact .inr (.inr ⟨rfl, rfl⟩)
    | succ i => exact (joinType_of_extensions hr (mem_of_getElem? hjoin)).imp_right .inl

end FromClause

/-- What the expressions of a query over placed tables are compiled against. -/
def Placement.context (p : Placement) (c : Catalog) (options : Options) : Context Unit where
  catalog := c
  top := p.top
  sources := p.sources
  objects := .unavailable
  options := options
  mode := .pipeline

namespace Select

variable {c : Catalog} {options : Options} {q : Select} {query : Query} {placement : Placement}

theorem compile_ok (h : q.compile c options = .ok query) :
    ∃ placement rest, c.place q.source = .ok placement ∧
      joinTerms (placement.context c options) placement.joins = .ok rest := by
  rw [compile] at h
  obtain ⟨⟨pipeline, outputs⟩, hplan, -⟩ := exists_of_bind_ok h
  rw [plan] at hplan
  obtain ⟨placement, hplace, hplan⟩ := exists_of_bind_ok hplan
  rcases hrun : compileClauses (placement.context c options) placement q { objects := () } with ⟨r, d⟩
  have hr : r = .ok (pipeline, outputs) := (congrArg Prod.fst hrun).symm.trans hplan
  rw [hr, compileClauses] at hrun
  obtain ⟨rest, d', hterms, -⟩ := Attempt.bind_ok hrun
  exact ⟨placement, rest, hplace, (Attempt.ofExcept_ok hterms).1⟩

/-- A query reads its FROM clause by the places of tables and by the join terms that remain to be tested. -/
theorem compile_congr {joins : List JoinStep} (h : c.place q.source = .ok placement)
    (h' : c.place source = .ok { placement with joins := joins })
    (hterms : joinTerms (placement.context c options) joins = joinTerms (placement.context c options) placement.joins) :
    { q with source := source }.compile c options = q.compile c options := by
  have hclauses : compileClauses (placement.context c options) { placement with joins := joins }
      { q with source := source } = compileClauses (placement.context c options) placement q := by
    rw [compileClauses, compileClauses, hterms]
    rfl
  have hplan : plan c options { q with source := source } = plan c options q := by
    rw [plan, plan, h, h']
    show ((compileClauses (placement.context c options) _ _).run _).1 = _
    rw [hclauses]
    rfl
  rw [compile, compile, hplan]

/-- An accepted query has no CROSS or FULL OUTER join, and each term of its join conditions is implied by where the
rows lie, or is tested among the conditions of the query, which an outer join does not allow. Its joins need not say
how they are keyed: where foreign keys refer to columns that there are, any `KeyTerm` is implied, and with such
terms added the query is compiled as it is without them. -/
theorem compile_with_keys (hc : c.Indexed) (h : q.compile c options = .ok query) :
    ∃ placement, c.place q.source = .ok placement ∧
      (∀ i join, q.source.joins[i]? = some join →
        join.joinType = .inner ∨ join.joinType = .leftOuter ∨ i = 0 ∧ join.joinType = .rightOuter) ∧
      (∀ join ∈ placement.joins, ∀ e ∈ join.terms,
        isImplied (placement.context c options) e = .ok true ∨
        isImplied (placement.context c options) e = .ok false ∧ join.Tests e) ∧
      (c.ReferencesFound → c.Told q.source placement →
        (∀ name e, placement.KeyTerm name e → isImplied (placement.context c options) e = .ok true) ∧
        ∀ terms : Nat → List Expression,
          (∀ i join, placement.joins[i]? = some join → ∀ e ∈ terms i, placement.KeyTerm join.name e) →
          { q with source := q.source.withTerms terms }.compile c options = .ok query) := by
  obtain ⟨placement, rest, hplace, hrest⟩ := compile_ok h
  obtain ⟨tables, steps, -, -, hnormalize, -⟩ := Catalog.place_eq_ok_iff.mp hplace
  refine ⟨placement, hplace, fun i join hjoin => FromClause.joinType_of_normalize hnormalize hjoin,
    fun join hjoin e he => of_mem_joinTerms hrest hjoin he, fun hfound htold => ?_⟩
  have himplied (name : String) (e : Expression) (he : placement.KeyTerm name e) :
      isImplied (placement.context c options) e = .ok true :=
    isImplied_keyTerm hc hfound hplace htold rfl rfl
      (show Mode.pipeline ≠ .element by decide) he
  refine ⟨himplied, fun terms hterms => ?_⟩
  rw [← h]
  refine compile_congr hplace (Catalog.place_withTerms hc hplace hterms) ?_
  rw [hrest]
  refine joinTerms_withTerms (fun i join hi e he => ⟨?_, himplied join.name e (hterms i join hi e he)⟩) hrest
  obtain ⟨s, -, holder, -, own, other, -, -, rfl | rfl⟩ := hterms i join hi e he <;> rfl

/-- Orders with their items and the makers of both. The join of the items has no condition. -/
def makerNumbers : Select where
  columns := [⟨.column ⟨"orders", "id"⟩, none⟩, ⟨.column ⟨"items", "no"⟩, none⟩, ⟨.column ⟨"n", "id"⟩, none⟩]
  source := Catalog.makers

def makerKeys : Nat → List Expression
  | 0 => [.equated ⟨"Items", "order_id"⟩ ⟨"orders", "ID"⟩]
  | 1 => [.equated ⟨"orders", "maker_id"⟩ ⟨"m", "id"⟩]
  | 2 => [.equated ⟨"n", "id"⟩ ⟨"items", "maker_id"⟩, .equated ⟨"items", "maker_id"⟩ ⟨"n", "id"⟩]
  | _ => []

theorem exists_compiled_makerNumbers : ∃ query, makerNumbers.compile firm {} = .ok query := by
  have haccepted : (makerNumbers.compile firm {}).toOption.isSome := by decide +kernel
  cases hquery : makerNumbers.compile firm {} with
  | ok query => exact ⟨query, rfl⟩
  | error e =>
    rw [hquery] at haccepted
    cases haccepted

theorem keyTerm_makerKeys (i : Nat) (join : JoinStep)
    (hjoin : makerPlacement.joins[i]? = some join) (e : Expression) (he : e ∈ makerKeys i) :
    makerPlacement.KeyTerm join.name e := by
  have horders : ⟨"orders", "orders", [], false⟩ ∈ Catalog.makerPlacement.sources := by
    simp [makerPlacement]
  have hitems : ⟨"items", "items", [Catalog.itemsHop], false⟩ ∈ Catalog.makerPlacement.sources := by
    simp [makerPlacement]
  rcases i with _ | _ | _ | i
  · cases hjoin
    cases mem_singleton.mp he
    exact ⟨_, hitems, _, horders, _, _, by decide +kernel,
      ⟨⟨_, "id", rfl, by decide +kernel, by decide +kernel⟩, by decide +kernel, by decide +kernel⟩, .inl rfl⟩
  · cases hjoin
    cases mem_singleton.mp he
    have hmaker : ⟨"m", "maker", [Catalog.makerHop "orders" "orders_maker"], false⟩ ∈
        makerPlacement.sources := by
      simp [makerPlacement]
    exact ⟨_, hmaker, _, horders, _, _, by decide +kernel,
      ⟨⟨_, "maker_id", rfl, by decide +kernel, by decide +kernel⟩, by decide +kernel, by decide +kernel⟩,
      .inr rfl⟩
  · cases hjoin
    have hmaker : ⟨"n", "maker", [Catalog.itemsHop, Catalog.makerHop "items" "items_maker"], false⟩ ∈
        makerPlacement.sources := by
      simp [makerPlacement]
    have hpair : Source.KeyPair
        ⟨"n", "maker", [Catalog.itemsHop, Catalog.makerHop "items" "items_maker"], false⟩
        ⟨"items", "items", [Catalog.itemsHop], false⟩ ⟨"n", "id"⟩ ⟨"items", "maker_id"⟩ :=
      ⟨⟨_, "maker_id", rfl, by decide +kernel, by decide +kernel⟩, by decide +kernel, by decide +kernel⟩
    refine ⟨_, hmaker, _, hitems, _, _, by decide +kernel, hpair, ?_⟩
    simpa [makerKeys] using he
  · cases hjoin

theorem compile_with_keys_makers :
    Catalog.firm.Indexed ∧ Catalog.firm.ReferencesFound ∧
      Catalog.firm.place Catalog.makers = .ok Catalog.makerPlacement ∧
      Catalog.firm.Told Catalog.makers Catalog.makerPlacement ∧
      ∃ query, makerNumbers.compile Catalog.firm {} = .ok query ∧
        { makerNumbers with source := Catalog.makers.withTerms makerKeys }.compile Catalog.firm {} =
          .ok query := by
  have hc : Catalog.firm.Indexed := Catalog.indexed_ofTables _
  have hfound : Catalog.firm.ReferencesFound := by decide +kernel
  have hmakers : Catalog.firm.place Catalog.makers = .ok Catalog.makerPlacement := rfl
  have htold : Catalog.firm.Told Catalog.makers Catalog.makerPlacement :=
    .inl (by simp [Catalog.makerPlacement])
  obtain ⟨query, hquery⟩ := exists_compiled_makerNumbers
  obtain ⟨placement, hplace, -, -, hkeys⟩ := compile_with_keys hc hquery
  cases hplace.symm.trans hmakers
  exact ⟨hc, hfound, hmakers, htold, query, hquery, (hkeys hfound htold).2 makerKeys keyTerm_makerKeys⟩

end Select

end Pushdown
