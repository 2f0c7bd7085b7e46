import Pushdown.Proofs.PlacedWays

/-!
# Placement ends, and finds connected hops

The search for places goes in rounds, and layouts are built up chains of merges; both are written with a bound on
their steps. `Settles` has none, and `settles_placeRounds` says that the bound is never reached. `place_connected`:
the hops found lead from the top of the collection to the table (`Connects`), through the layouts (`InLayout`).
-/

namespace Pushdown

open List

variable {fuel : Nat} {name : String} {hops : List Hop} {required : List String}

namespace Candidate

variable {joins : List JoinStep}

/-- The outcome of rounds that go on until all tables are placed or a round places none. -/
inductive Settles (joins : List JoinStep) : List Candidate → Option (List Candidate) → Prop
  | done {tables : List Candidate} : tables.all isPlaced → Settles joins tables (some tables)
  | stuck {tables : List Candidate} : ¬tables.all isPlaced →
      (placeRound joins [] tables).countP isPlaced = tables.countP isPlaced → Settles joins tables none
  | round {tables : List Candidate} {outcome : Option (List Candidate)} : ¬tables.all isPlaced →
      (placeRound joins [] tables).countP isPlaced ≠ tables.countP isPlaced →
      Settles joins (placeRound joins [] tables) outcome → Settles joins tables outcome

variable {tables : List Candidate}

theorem Settles.unique {outcome outcome' : Option (List Candidate)} (h : Settles joins tables outcome)
    (h' : Settles joins tables outcome') : outcome = outcome' := by
  induction h with
  | done hall =>
    cases h' with
    | done _ => rfl
    | stuck hopen _ | round hopen _ _ => exact absurd hall hopen
  | stuck hopen hsame =>
    cases h' with
    | done hall => exact absurd hall hopen
    | stuck _ _ => rfl
    | round _ hmore _ => exact absurd hsame hmore
  | round hopen hmore _ ih =>
    cases h' with
    | done hall => exact absurd hall hopen
    | stuck _ hsame => exact absurd hsame hmore
    | round _ _ hrest => exact ih hrest

theorem length_placeRound (joins : List JoinStep) (before rest : List Candidate) :
    (placeRound joins before rest).length = before.length + rest.length := by
  induction rest generalizing before with
  | nil => rfl
  | cons t rest ih =>
    rw [placeRound, ih]
    simp only [length_append, length_cons, length_nil]
    omega

theorem countP_placeRound (joins : List JoinStep) (before rest : List Candidate) :
    before.countP isPlaced + rest.countP isPlaced ≤ (placeRound joins before rest).countP isPlaced := by
  induction rest generalizing before with
  | nil => simp [placeRound]
  | cons t rest ih =>
    rw [placeRound]
    refine le_trans ?_ (ih _)
    rw [countP_append, countP_cons, countP_singleton]
    cases hhops : t.hops with
    | none => simp [isPlaced, hhops]
    | some hops =>
      simp [isPlaced, hhops]
      omega

/-- Each round but the last places a table, so that as many rounds as there are tables are enough. -/
theorem settles_placeRounds (hfuel : tables.length ≤ fuel + tables.countP isPlaced) :
    Settles joins tables (placeRounds joins fuel tables) := by
  induction fuel generalizing tables with
  | zero =>
    have hall : tables.all isPlaced := by
      rw [List.all_eq_true, ← countP_eq_length]
      exact le_antisymm countP_le_length (by omega)
    rw [placeRounds, if_pos hall]
    exact .done hall
  | succ fuel ih =>
    rw [placeRounds]
    split
    · exact .done ‹_›
    · rename_i hopen
      extract_lets next
      have hkept : tables.countP isPlaced ≤ next.countP isPlaced := by
        simpa using countP_placeRound joins [] tables
      have hlength : next.length = tables.length := by
        simpa using length_placeRound joins [] tables
      split
      · exact .stuck hopen ‹_›
      · rename_i hmore
        have hsteps : next.length ≤ fuel + next.countP isPlaced := by omega
        exact .round hopen hmore (ih hsteps)

end Candidate

namespace Catalog

variable {c : Catalog} {before : List String}

theorem searchKeys_congr {goal : String} {holder : Table}
    {visit visit' : String → List String → Except LayoutError (Bool × List String)} (steps : Nat)
    (hvisit : ∀ name before, c.Distinct before → steps ≤ before.length → visit name before = visit' name before)
    (hkeeps : ∀ name before after, c.Distinct before → steps ≤ before.length →
      visit name before = .ok (false, after) → c.Distinct after ∧ before.length ≤ after.length)
    {fks : List ForeignKey} (hbefore : c.Distinct before) (hsteps : steps ≤ before.length) :
    c.searchKeys goal holder visit fks before = c.searchKeys goal holder visit' fks before := by
  induction fks generalizing before with
  | nil => rfl
  | cons fk fks ih =>
    rw [searchKeys, searchKeys]
    cases c.table fk.referencedTable with
    | error e => rfl
    | ok target =>
      show (if _ then _ else if _ then _ else _) = if _ then _ else if _ then _ else _
      split
      · exact ih hbefore hsteps
      · split
        · rfl
        · rw [← hvisit target.name before hbefore hsteps]
          cases hfound : visit target.name before with
          | error e => rfl
          | ok found =>
            obtain ⟨_ | _, after⟩ := found
            · obtain ⟨hafter, hle⟩ := hkeeps target.name before after hbefore hsteps hfound
              exact ih hafter (hsteps.trans hle)
            · rfl

theorem embedSearch_eq {goal : String} {fuel' : Nat} (hbefore : c.Distinct before)
    (hfuel : c.entries.length < fuel + before.length) (hfuel' : c.entries.length < fuel' + before.length) :
    c.embedSearch goal fuel name before = c.embedSearch goal fuel' name before := by
  induction fuel generalizing fuel' name before with
  | zero =>
    have hle := hbefore.length_le
    omega
  | succ fuel ih =>
    cases fuel' with
    | zero =>
      have hle := hbefore.length_le
      omega
    | succ fuel' =>
      rw [embedSearch, embedSearch]
      split
      · rfl
      · rename_i hfree
        cases ht : c.table name with
        | error e => rfl
        | ok t =>
          have hvisited : c.Distinct (Text.lower name :: before) := hbefore.cons (by simpa using hfree) ht
          refine searchKeys_congr (before.length + 1)
            (fun name visited hdistinct hsteps => ih hdistinct (by omega) (by omega))
            (fun name visited after hdistinct hsteps hfound => ?_) hvisited le_rfl
          obtain ⟨hextends, -⟩ := embedSearch_extends hdistinct (by omega) hfound
          exact ⟨hextends.visited, hextends.length_le⟩

theorem layoutWithin_eq {fuel' : Nat} {building : List String} (hbuilding : c.Distinct building)
    (hfuel : c.entries.length < fuel + building.length) (hfuel' : c.entries.length < fuel' + building.length) :
    c.layoutWithin fuel building name = c.layoutWithin fuel' building name := by
  induction fuel generalizing fuel' building name with
  | zero =>
    have hle := hbuilding.length_le
    omega
  | succ fuel ih =>
    cases fuel' with
    | zero =>
      have hle := hbuilding.length_le
      omega
    | succ fuel' =>
      rw [layoutWithin, layoutWithin]
      split
      · rfl
      · rename_i hfree
        cases ht : c.table name with
        | error e => rfl
        | ok t =>
          have hnext : c.Distinct (Text.lower name :: building) := hbuilding.cons (by simpa using hfree) ht
          have hlength : (Text.lower name :: building).length = building.length + 1 := rfl
          show (c.outline t >>= _) = c.outline t >>= _
          congr 1
          funext own
          cases t.properties.mergeInto with
          | none => rfl
          | some above =>
            have hparent : c.layoutWithin fuel (Text.lower name :: building) above =
                c.layoutWithin fuel' (Text.lower name :: building) above :=
              ih hnext (by omega) (by omega)
            show (c.layoutWithin fuel _ above >>= _) = _
            rw [hparent]

end Catalog

/-- Hops from rows of the table `top` to rows of `table`, each from where the one before it leads. -/
def Hop.Connects : String → List Hop → String → Prop
  | top, [], table => table = top
  | top, hop :: hops, table => hop.link.parent = top ∧ Connects hop.link.child hops table

/-- The hop is in the layouts of the catalog, whatever it is read under: a merge is that of the table it
leads to, and copies are held by the table that the hop leaves. -/
def Hop.InLayout (c : Catalog) (hop : Hop) : Prop :=
  match hop.kind with
  | .merge => ∃ l, c.layout hop.link.child = .ok l ∧ l.mergeKey? = some hop.plain.link
  | .embed => ∃ l, c.layout hop.link.parent = .ok l ∧ hop.plain.link ∈ l.embeddedKeys

namespace Hop

variable {top table : String}

theorem Connects.concat (h : Connects top hops table) {hop : Hop} (hparent : hop.link.parent = table) :
    Connects top (hops ++ [hop]) hop.link.child := by
  induction hops generalizing top with
  | nil => exact ⟨hparent.trans h, rfl⟩
  | cons first hops ih => exact ⟨h.1, ih h.2⟩

theorem connects_plain : Connects top (hops.map plain) table ↔ Connects top hops table := by
  induction hops generalizing top with
  | nil => exact Iff.rfl
  | cons hop hops ih => exact and_congr Iff.rfl ih

theorem plain_of_readAs {hop : Hop} (h : hop.link.readAs = none) : hop.plain = hop := by
  rw [plain, ← h]

theorem connected_of_plain {c : Catalog} {hops' : List Hop} (hplain : hops.map plain = hops'.map plain)
    (hconnects : Connects top hops table) (hlayout : ∀ hop ∈ hops, hop.InLayout c) :
    Connects top hops' table ∧ ∀ hop ∈ hops', hop.InLayout c := by
  refine ⟨connects_plain.mp (hplain ▸ connects_plain.mpr hconnects), fun hop hhop => ?_⟩
  obtain ⟨hop', hmem, heq⟩ := mem_map.mp (hplain ▸ mem_map_of_mem hhop)
  have hin : hop'.plain.InLayout c := hlayout hop' hmem
  rw [heq] at hin
  exact hin

end Hop

theorem Way.map_plain_readAlong (hops : List Hop) : (readAlong required hops).map Hop.plain = hops.map Hop.plain := by
  have hread (w : Way) : (w.read required).plain = w.hop.plain := by
    rw [read]
    split <;> rfl
  conv_rhs => rw [← map_hop_along [] hops]
  rw [readAlong, map_map, map_map]
  exact map_congr_left fun w _ => hread w

namespace Catalog

variable {c : Catalog} {source : FromClause} {placement : Placement}

theorem LaysOut.connects (hc : c.Indexed) {l : Layout} (h : c.LaysOut name l) :
    Hop.Connects l.collection l.hops l.table ∧ ∀ hop ∈ l.hops, hop.InLayout c := by
  induction h with
  | top ht hown hmerge =>
    obtain ⟨hhops, hcollection⟩ := (LaysOut.top ht hown hmerge).hops_of_top ht hmerge
    rw [hhops, hcollection]
    exact ⟨rfl, by simp⟩
  | @merged _ _ t own parent key ht hown hmerge hparent hkey ih =>
    obtain ⟨hfrom, hto⟩ := mergeKey_ok hkey
    obtain ⟨_, -, -, -, -, hplain⟩ := mergeKey_reference hkey
    have htable : own.table = key.child := (outline_ok hown).1.table.trans hto.symm
    have hout := layout_eq_ok_iff.mpr (LaysOut.merged ht hown hmerge hparent hkey)
    have hself := layout_layout_table hc.keyed hout
    have hlast : (⟨.merge, key⟩ : Hop).InLayout c := by
      show ∃ l, c.layout key.child = .ok l ∧ l.mergeKey? = some (Hop.plain ⟨.merge, key⟩).link
      rw [← htable, Hop.plain_of_readAs hplain]
      exact ⟨_, hself, rfl⟩
    rw [LaysOut.hops_merged, LaysOut.collection_merged]
    refine ⟨?_, ?_⟩
    · show Hop.Connects _ _ own.table
      rw [htable]
      exact ih.1.concat hfrom
    · simpa [or_imp, forall_and] using ⟨ih.2, hlast⟩

theorem Chain.connects (hc : c.Indexed) {top : String} {l : Layout} (h : c.Chain top l hops) :
    Hop.Connects top hops l.table ∧ ∀ hop ∈ hops, hop.InLayout c := by
  induction h with
  | own hl htop =>
    rw [← htop]
    exact (layout_eq_ok_iff.mp hl).connects hc
  | @copy l held hops _ k hholder hk hheld hchild ih =>
    obtain ⟨_, hl⟩ := hholder.exists_layout
    have hself := layout_layout_table hc.keyed hl
    obtain ⟨_, _, -, hown⟩ := hholder.outlined
    have hparent : k.parent = l.table := (hown.parent_of_mem hk).trans hown.table.symm
    have hlast : (⟨.embed, k⟩ : Hop).InLayout c := by
      have hplain := (hholder.copy hk hheld hchild).readAs_eq_none ⟨.embed, k⟩ (by simp)
      show ∃ l, c.layout k.parent = .ok l ∧ (Hop.plain ⟨.embed, k⟩).link ∈ l.embeddedKeys
      rw [hparent, Hop.plain_of_readAs hplain]
      exact ⟨l, hself, hk⟩
    refine ⟨?_, by simpa [or_imp, forall_and] using ⟨ih.2, hlast⟩⟩
    rw [← hchild]
    exact ih.1.concat hparent

theorem Reads.eq_of_required {top : String} {read : List Hop} (h : c.Reads top required hops read)
    (hrequired : ∀ w ∈ Way.along [] hops, w.key ∈ required) : read = hops := by
  induction h with
  | nil => rfl
  | @concat hops read hop hop' _ hhop ih =>
    rw [Way.along_concat] at hrequired
    simp only [forall_mem_append, forall_mem_singleton] at hrequired
    have habove := ih hrequired.1
    subst habove
    cases hhop with
    | own _ => rfl
    | aliased _ _ _ _ hpath hfree =>
      rw [hpath] at hfree
      exact absurd hrequired.2 hfree

theorem plain_of_place (hc : c.Indexed) (h : c.place source = .ok placement) {s : Source}
    (hs : s ∈ placement.sources) (htold : s.optional = false ∨ c.DotFree source) :
    ∃ l hops, s.table = l.table ∧ c.Chain placement.top l hops ∧ hops.map Hop.plain = s.hops.map Hop.plain := by
  obtain ⟨placed, hplaced⟩ := exists_placed hc h
  rcases htold with hpresent | hdots
  · obtain ⟨s₀, hmem, hsame, hreads⟩ := exists_left_of_forall₂ hplaced.forall₂_reads hs
    have hs₀ : s₀ ∈ placed := (of_mem_zip hmem).1
    have hpresent₀ : s₀.optional = false := (congrArg Source.optional hsame).symm.trans hpresent
    obtain ⟨l, htable, hchain⟩ := hplaced.chain s₀ hs₀
    refine ⟨l, s₀.hops, (congrArg Source.table hsame).trans htable, hchain, ?_⟩
    rw [hreads.eq_of_required fun w hw => mem_required_iff.mpr ⟨s₀, hs₀, hpresent₀, w, hw, rfl⟩]
  · rw [hplaced.sources_eq hc hdots] at hs
    obtain ⟨s₀, hs₀, rfl⟩ := mem_map.mp hs
    obtain ⟨l, htable, hchain⟩ := hplaced.chain s₀ hs₀
    exact ⟨l, s₀.hops, htable, hchain, (Way.map_plain_readAlong s₀.hops).symm⟩

/-- The rounds that place tables, and layouts up each chain, end by themselves, with no regard to the bounds on
their steps. For a FROM clause that is accepted, the hops to each table which may not be absent, and to every table
where no name on the way has a dot, lead from the top of the collection to the table, each from where the one before
it leads, through the layouts of the catalog. -/
theorem place_connected (c : Catalog) (source : FromClause) :
    (∀ joins tables, (∃! outcome, Candidate.Settles joins tables outcome) ∧
      ∀ fuel, tables.length ≤ fuel →
        Candidate.Settles joins tables (Candidate.placeRounds joins fuel tables)) ∧
    (∀ name fuel, c.entries.length < fuel → c.layoutWithin fuel [] name = c.layout name) ∧
    (∀ name goal fuel, c.entries.length < fuel →
      (·.1) <$> c.embedSearch goal fuel name [] = c.embedChainReaches name goal) ∧
    (c.Indexed → ∀ placement, c.place source = .ok placement → ∀ s ∈ placement.sources,
      s.optional = false ∨ c.DotFree source →
      Hop.Connects placement.top s.hops s.table ∧ ∀ hop ∈ s.hops, hop.InLayout c) := by
  refine ⟨fun joins tables => ?_, fun name fuel hfuel => ?_, fun name goal fuel hfuel => ?_, ?_⟩
  · have hsettles (fuel : Nat) (hfuel : tables.length ≤ fuel) :
        Candidate.Settles joins tables (Candidate.placeRounds joins fuel tables) :=
      Candidate.settles_placeRounds (hfuel.trans (Nat.le_add_right ..))
    exact ⟨⟨_, hsettles tables.length le_rfl, fun _ h => h.unique (hsettles tables.length le_rfl)⟩, hsettles⟩
  · exact layoutWithin_eq (.nil c) hfuel (Nat.lt_succ_self _)
  · rw [embedChainReaches, embedSearch_eq (.nil c) hfuel (Nat.lt_succ_self _)]
  · intro hc placement h s hs htold
    obtain ⟨l, hops, htable, hchain, hplain⟩ := plain_of_place hc h hs htold
    obtain ⟨hconnects, hlayout⟩ := hchain.connects hc
    rw [htable]
    exact Hop.connected_of_plain hplain hconnects hlayout

def itemMakers : FromClause where
  base := ⟨"orders", none⟩
  joins := [⟨.leftOuter, ⟨"items", none⟩, none⟩,
    ⟨.leftOuter, ⟨"maker", some "n"⟩, equal ⟨"items", "maker_id"⟩ ⟨"n", "id"⟩⟩]

def itemMakerPlacement : Placement where
  top := "orders"
  sources := [⟨"orders", "orders", [], false⟩, ⟨"items", "items", [itemsHop.aliased "__items"], true⟩,
    ⟨"n", "maker", [itemsHop.aliased "__items", makerHop "items" "items_maker"], true⟩]
  joins := [⟨"items", true, none, true⟩, ⟨"n", true, equal ⟨"items", "maker_id"⟩ ⟨"n", "id"⟩, false⟩]
  prestages := [.compute [("__items", HopPlan.orEmptyElement "items")], .flatten "__items"]

theorem place_connected_itemMakers :
    firm.entries.length < 9 ∧ firm.layoutWithin 9 [] "items" = firm.layout "items" ∧
      firm.Indexed ∧ firm.DotFree itemMakers ∧ firm.place itemMakers = .ok itemMakerPlacement ∧
      ∀ s ∈ itemMakerPlacement.sources,
        Hop.Connects "orders" s.hops s.table ∧ ∀ hop ∈ s.hops, hop.InLayout firm := by
  have hc : firm.Indexed := indexed_ofTables _
  have hentries : firm.entries.length < 9 := by decide +kernel
  have hdots : firm.DotFree itemMakers := by decide +kernel
  have hplace : firm.place itemMakers = .ok itemMakerPlacement := rfl
  obtain ⟨-, hlayouts, -, hconnected⟩ := place_connected firm itemMakers
  exact ⟨hentries, hlayouts "items" 9 hentries, hc, hdots, hplace,
    fun s hs => hconnected hc itemMakerPlacement hplace s hs (.inr hdots)⟩

end Catalog

end Pushdown
