import Pushdown.Proofs.Placement

/-!
# The tables of a FROM clause with their places

`fieldNames`: the names that lead to the tables of a FROM clause are those of the tables themselves and of the
tables that they are merged into. `reads_of_place`: the placement of a FROM clause reaches each of its tables by a
chain (`Placed`), apart from arrays that are read under another field.
-/

namespace Pushdown

open List Candidate FromClause

def FromClause.tables (source : FromClause) : List TableRef :=
  source.base :: source.joins.map (·.table)

variable {tables : List (TableRef × Bool)} {joins : List JoinStep} {placed : List Candidate}

namespace FromClause

variable {steps : List JoinStep}

theorem extensions_ok {joins : List Join} (h : extensions joins = .ok (tables, steps)) :
    tables.map (·.1) = joins.map (·.table) := by
  induction joins generalizing tables steps with
  | nil =>
    cases h
    rfl
  | cons j joins ih =>
    have hextend {outer : Bool} {r : List (TableRef × Bool) × List JoinStep}
        (h : (extensions joins >>= fun r => .ok ((j.table, outer) :: r.1,
          { name := j.table.referenceName, outer := outer, condition := j.condition } :: r.2)) = .ok r) :
        r.1.map (·.1) = (j :: joins).map (·.table) := by
      obtain ⟨⟨rest, steps'⟩, hrest, h⟩ := exists_of_bind_ok h
      cases h
      simp [ih hrest]
    rw [extensions] at h
    split at h
    · exact hextend h
    · exact hextend h
    all_goals cases h

theorem firstRepeated?_none {seen : List String} {tables : List TableRef} (h : firstRepeated? seen tables = none) :
    (∀ t ∈ tables, Text.lower t.referenceName ∉ seen) ∧
      tables.Pairwise fun t t' => Text.lower t.referenceName ≠ Text.lower t'.referenceName := by
  induction tables generalizing seen with
  | nil => simp
  | cons t tables ih =>
    rw [firstRepeated?] at h
    split at h
    · cases h
    · rename_i hnew
      obtain ⟨hseen, hapart⟩ := ih h
      refine ⟨forall_mem_cons.mpr ⟨by simpa using hnew, fun t' ht' hmem => ?_⟩,
        pairwise_cons.mpr ⟨fun t' ht' heq => ?_, hapart⟩⟩
      · exact hseen t' ht' (mem_cons_of_mem _ hmem)
      · exact hseen t' ht' (heq ▸ mem_cons_self ..)

theorem normalize_ok {source : FromClause} (h : source.normalize = .ok (tables, steps)) :
    tables.map (·.1) = source.tables ∧ (tables.map (·.1)).Pairwise fun t t' =>
      Text.lower t.referenceName ≠ Text.lower t'.referenceName := by
  rw [normalize] at h
  split at h
  -- The two forms of a clause differ only in the tables they start from.
  all_goals
    obtain ⟨⟨rest, steps'⟩, hrest, h⟩ := exists_of_bind_ok h
    obtain ⟨_, hall, h⟩ := exists_of_bind_ok h
    cases hall
    dsimp only at h
    split at h
    · cases h
    · rename_i hnone
      cases h
      exact ⟨by simp [tables, extensions_ok hrest, *], (firstRepeated?_none hnone).2⟩

end FromClause

theorem Candidate.map_ref_placeRound (joins : List JoinStep) (before rest : List Candidate) :
    (placeRound joins before rest).map ref = (before ++ rest).map ref := by
  induction rest generalizing before with
  | nil => simp [placeRound]
  | cons t rest ih =>
    rw [placeRound, ih]
    split <;> simp

theorem Candidate.map_ref_placeRounds {rounds : Nat} {tables : List Candidate}
    (h : placeRounds joins rounds tables = some placed) : placed.map ref = tables.map ref := by
  induction rounds generalizing tables with
  | zero =>
    rw [placeRounds] at h
    split at h <;> cases h
    rfl
  | succ rounds ih =>
    rw [placeRounds] at h
    split at h
    · cases h
      rfl
    · extract_lets next at h
      split at h
      · cases h
      · rw [ih h]
        exact map_ref_placeRound joins [] tables

namespace Catalog

variable {c : Catalog} {source : FromClause} {placement : Placement}

/-- The names that lead to the tables of the clause: their own, and those of the tables whose rows hold
theirs. -/
def fieldNames (c : Catalog) (source : FromClause) : List String :=
  source.tables.flatMap fun t =>
    match c.layout t.name with
    | .ok l => l.table :: l.hops.map Hop.field
    | .error _ => []

theorem mem_fieldNames {t : TableRef} (ht : t ∈ source.tables) {l : Layout}
    (hl : c.layout t.name = .ok l) {name : String} (hname : name ∈ l.table :: l.hops.map Hop.field) :
    name ∈ c.fieldNames source := by
  refine mem_flatMap.mpr ⟨t, ht, ?_⟩
  rwa [hl]

/-- A table of the clause that is reached by the names that lead to its tables. -/
structure Named (c : Catalog) (source : FromClause) (t : Candidate) : Prop where
  layout : t.layout.table ∈ c.fieldNames source
  hops : ∀ hops, t.hops = some hops → ∀ hop ∈ hops, hop.field ∈ c.fieldNames source

theorem named_candidate {top : String} {t : TableRef × Bool} (ht : t.1 ∈ source.tables) {l : Layout}
    (hl : c.layout t.1.name = .ok l) : c.Named source (candidate top t l) := by
  refine ⟨mem_fieldNames ht hl (mem_cons_self ..), fun hops hhops hop hhop => ?_⟩
  change ownHops? top l = some hops at hhops
  rw [ownHops?] at hhops
  split at hhops
  · cases hhops
    exact mem_fieldNames ht hl (mem_cons_of_mem _ (mem_map_of_mem hhop))
  · split at hhops
    · cases hhops
      cases hhop
    · cases hhops

theorem Named.seat (hc : c.Indexed) {top : String} {others : List Candidate}
    (hothers : ∀ o ∈ others, c.Seated top o ∧ c.Named source o) {t : Candidate} (ht : c.Seated top t)
    (hnamed : c.Named source t) {hops : List Hop} (h : seat? joins others t = some hops) :
    c.Named source { t with hops := some hops } := by
  refine ⟨hnamed.layout, fun hops' heq hop hhop => ?_⟩
  cases heq
  obtain ⟨holder, hmem, above, k, habove, -, hchild, rfl⟩ := ht.of_seat? hc (fun o ho => (hothers o ho).1) h
  rcases mem_append.mp hhop with hhop | hhop
  · exact (hothers holder hmem).2.hops above habove hop hhop
  · rw [mem_singleton.mp hhop]
    show k.child ∈ _
    rw [hchild]
    exact hnamed.layout

/-- The sources of a FROM clause with their places, before their hops are planned. -/
structure Placed (c : Catalog) (source : FromClause) (placement : Placement) (placed : List Source) :
    Prop where
  plan : HopPlan.plan placed = .ok (placement.sources, placement.prestages)
  apart : placed.Pairwise fun s s' => Text.lower s.name ≠ Text.lower s'.name
  chain : ∀ s ∈ placed, ∃ l, s.table = l.table ∧ c.Chain placement.top l s.hops
  names : ∀ s ∈ placed, ∀ hop ∈ s.hops, hop.field ∈ c.fieldNames source

theorem placed_sources (hc : c.Indexed) {layouts : List Layout} (hnormalize : source.normalize = .ok (tables, joins))
    (hlayouts : (tables.mapM fun t => c.layout t.1.name) = .ok layouts) (htop : commonTop? layouts = some placement.top)
    (hplaced : placeRounds joins tables.length (List.zipWith (candidate placement.top) tables layouts) =
      some placed) (hplan : HopPlan.plan (placed.map sourceOf) = .ok (placement.sources, placement.prestages)) :
    c.Placed source placement (placed.map sourceOf) ∧
      ∀ t ∈ placed, c.Seated placement.top t ∧ t.hops = some (sourceOf t).hops := by
  have hlaidOut (l : Layout) (hl : l ∈ layouts) : ∃ name, c.layout name = .ok l := by
    obtain ⟨_, -, hl⟩ := exists_of_mem_mapM hlayouts hl
    exact ⟨_, hl⟩
  have hfirst : ∀ t ∈ List.zipWith (candidate placement.top) tables layouts,
      c.Seated placement.top t ∧ c.Named source t := by
    intro t ht
    refine ⟨seated_candidates hc hlaidOut htop t ht, ?_⟩
    rw [← map_uncurry_zip_eq_zipWith] at ht
    obtain ⟨⟨x, l⟩, hx, rfl⟩ := mem_map.mp ht
    have hmem : x.1 ∈ source.tables := by
      rw [← (normalize_ok hnormalize).1]
      exact mem_map_of_mem (of_mem_zip hx).1
    exact named_candidate hmem ((forall₂_iff_zip.mp (mapM_ok_iff.mp hlayouts)).2 hx)
  have hall := forall_placeRounds (fun _ _ _ hothers ht hseat =>
    ⟨ht.1.seat hc (fun o ho => (hothers o ho).1) hseat, ht.2.seat hc hothers ht.1 hseat⟩) hfirst hplaced
  have hhops (t : Candidate) (ht : t ∈ placed) : t.hops = some (sourceOf t).hops := by
    obtain ⟨hops, hhops⟩ := Option.isSome_iff_exists.mp (hall t ht).2
    rw [sourceOf, hhops]
    rfl
  refine ⟨⟨hplan, ?_, ?_, ?_⟩, fun t ht => ⟨(hall t ht).1.1, hhops t ht⟩⟩
  · have hrefs : placed.map ref = tables.map (·.1) := by
      have hlength := (mapM_ok_iff.mp hlayouts).length_eq
      have hfst : (tables.zip layouts).map Prod.fst = tables := map_fst_zip hlength.le
      conv_rhs => rw [← hfst, map_map]
      rw [map_ref_placeRounds hplaced, ← map_uncurry_zip_eq_zipWith, map_map]
      rfl
    rw [pairwise_map]
    have hapart := (normalize_ok hnormalize).2
    rw [← hrefs, pairwise_map] at hapart
    exact hapart
  · intro s hs
    obtain ⟨t, ht, rfl⟩ := mem_map.mp hs
    exact ⟨t.layout, rfl, (hall t ht).1.1.chain _ (hhops t ht)⟩
  · intro s hs
    obtain ⟨t, ht, rfl⟩ := mem_map.mp hs
    exact (hall t ht).1.2.hops _ (hhops t ht)

theorem exists_placed (hc : c.Indexed) (h : c.place source = .ok placement) :
    ∃ placed, c.Placed source placement placed := by
  obtain ⟨tables, joins, layouts, placed, hnormalize, hlayouts, htop, hplaced, hplan, -⟩ := place_eq_ok_iff.mp h
  exact ⟨_, (placed_sources hc hnormalize hlayouts htop hplaced hplan).1⟩

theorem Placed.forall₂_reads {placed : List Source} (h : c.Placed source placement placed) :
    List.Forall₂ (fun s s' => s' = { s with hops := s'.hops } ∧
      c.Reads placement.top (HopPlan.required placed) s.hops s'.hops) placed placement.sources := by
  have hplan := h.plan
  rw [HopPlan.plan] at hplan
  obtain ⟨⟨planned, plan⟩, hplanned, hplan⟩ := exists_of_bind_ok hplan
  have hsources : planned = placement.sources := congrArg Prod.fst (Except.ok.inj hplan)
  rw [hsources] at hplanned
  have hchains (s : Source) (hs : s ∈ placed) : ∃ l, c.Chain placement.top l s.hops := by
    obtain ⟨l, -, hchain⟩ := h.chain s hs
    exact ⟨l, hchain⟩
  exact planSources_ok hchains (by simp [Knows]) hplanned

theorem apart_of_place (hc : c.Indexed) (h : c.place source = .ok placement) :
    placement.sources.Pairwise fun s s' => Text.lower s.name ≠ Text.lower s'.name := by
  obtain ⟨placed, hplaced⟩ := exists_placed hc h
  refine pairwise_of_forall₂ hplaced.forall₂_reads hplaced.apart fun hsame hsame' hne => ?_
  rw [hsame.1, hsame'.1]
  exact hne

theorem reads_of_place (hc : c.Indexed) (h : c.place source = .ok placement) :
    ∃ required, ∀ s ∈ placement.sources, ∃ l hops, s.table = l.table ∧
      c.Chain placement.top l hops ∧ c.Reads placement.top required hops s.hops := by
  obtain ⟨placed, hplaced⟩ := exists_placed hc h
  refine ⟨HopPlan.required placed, fun s hs => ?_⟩
  obtain ⟨s₀, hmem, hsame, hreads⟩ := exists_left_of_forall₂ hplaced.forall₂_reads hs
  obtain ⟨l, htable, hchain⟩ := hplaced.chain s₀ (of_mem_zip hmem).1
  exact ⟨l, s₀.hops, (congrArg Source.table hsame).trans htable, hchain, hreads⟩

end Catalog

end Pushdown
