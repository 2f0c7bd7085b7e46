import Pushdown.Layout.Build
import Pushdown.Query.Error
import Pushdown.Query.Prestage
import Pushdown.Sql.Command

/-!
# Placement

All tables of a FROM clause have to be found in the documents of one collection. A table with a
collection of its own, or merged into one, lies where its layout says. An embeddable table lies
below a table that holds copies of it.
-/

namespace Pushdown

structure Source where
  /-- The name that columns are qualified with. -/
  name : String
  table : String
  hops : List Hop
  /-- Whether rows may be absent, as on the inner side of an outer join. -/
  optional : Bool

/-- A join that extends the rows on its left by those of one table. -/
structure JoinStep where
  name : String
  outer : Bool
  condition : Option Expression
  /-- Whether the rows of the table are elements of an array. -/
  many : Bool := false

structure Placement where
  top : String
  sources : List Source
  joins : List JoinStep
  prestages : Prestages := []

namespace FromClause

/-- The tables that joins add, with whether their rows may be absent, and the joins. -/
def extensions : List Join → Except QueryError (List (TableRef × Bool) × List JoinStep)
  | [] => .ok ([], [])
  | j :: joins =>
    let extend (outer : Bool) : Except QueryError (List (TableRef × Bool) × List JoinStep) := do
      let (tables, steps) ← extensions joins
      return ((j.table, outer) :: tables,
        { name := j.table.referenceName, outer := outer, condition := j.condition } :: steps)
    match j.joinType with
    | .inner => extend false
    | .leftOuter => extend true
    | .rightOuter => .error (.unsupported "RIGHT OUTER JOIN after another join")
    | .fullOuter => .error (.unsupported "FULL OUTER JOIN")
    | .cross => .error (.unsupported "CROSS JOIN")

/-- The first reference name that is there before, in any letter case. -/
def firstRepeated? : List String → List TableRef → Option String
  | _, [] => none
  | seen, t :: tables =>
    let key := Text.lower t.referenceName
    if seen.contains key then some t.referenceName else firstRepeated? (key :: seen) tables

/-- The tables of the clause, with whether their rows may be absent, and joins that each extend the
rows on their left. A RIGHT OUTER join is possible in the first place, where it is a LEFT OUTER join
with its sides swapped. -/
def normalize (source : FromClause) : Except QueryError (List (TableRef × Bool) × List JoinStep) := do
  let (tables, steps) ←
    match source.joins with
    | ⟨.rightOuter, table, condition⟩ :: joins => do
      let (tables, steps) ← extensions joins
      pure ((source.base, true) :: (table, false) :: tables,
        { name := source.base.referenceName, outer := true, condition := condition } :: steps)
    | joins => do
      let (tables, steps) ← extensions joins
      pure ((source.base, false) :: tables, steps)
  match firstRepeated? [] (tables.map (·.1)) with
  | some name => throw (.duplicateSource name)
  | none => return (tables, steps)

end FromClause

/-- A table of a FROM clause that may not have its place yet. -/
structure Candidate where
  ref : TableRef
  optional : Bool
  layout : Layout
  hops : Option (List Hop)

namespace Candidate

def isPlaced (t : Candidate) : Bool := t.hops.isSome

/-- The reference names that the join condition for a table mentions. -/
def partners (joins : List JoinStep) (t : TableRef) : List String :=
  (((joins.filter fun j => Text.same j.name t.referenceName).filterMap (·.condition)).flatMap
    fun condition => condition.columns.map (·.table)).filter fun name =>
      !Text.same name t.referenceName

/-- The place of `table` below a placed one that holds copies of it. -/
def seatBelow? (table : String) (holder : Candidate) : Option (List Hop) :=
  match holder.hops with
  | none => none
  | some hops =>
    (holder.layout.embeddedKeys.find? fun k => Text.same k.child table).map fun k =>
      hops ++ [⟨.embed, k⟩]

/-- The place for `t` among the placed tables of `others`: below a table that its join condition
mentions, or else below the first that holds copies of it. -/
def seat? (joins : List JoinStep) (others : List Candidate) (t : Candidate) : Option (List Hop) :=
  let mentioned := partners joins t.ref
  let preferred := others.filter fun o => Text.hasName mentioned o.ref.referenceName
  match preferred.findSome? (seatBelow? t.layout.table) with
  | some hops => some hops
  | none => others.findSome? (seatBelow? t.layout.table)

/-- One round over the tables, in which `before` have had their turn. -/
def placeRound (joins : List JoinStep) (before : List Candidate) : List Candidate → List Candidate
  | [] => before
  | t :: rest =>
    let t :=
      match t.hops with
      | some _ => t
      | none => { t with hops := seat? joins (before ++ t :: rest) t }
    placeRound joins (before ++ [t]) rest

/-- Rounds until all tables are placed. A round that places none ends the search. -/
def placeRounds (joins : List JoinStep) : Nat → List Candidate → Option (List Candidate)
  | 0, tables => if tables.all isPlaced then some tables else none
  | fuel + 1, tables =>
    if tables.all isPlaced then some tables
    else
      let next := placeRound joins [] tables
      if next.countP isPlaced = tables.countP isPlaced then none else placeRounds joins fuel next

end Candidate

/-- The stages for the hops planned so far, and the hops that are read under another field, by the
fields on the way to them. -/
structure HopPlan where
  prestages : Prestages := []
  aliased : List (String × Hop) := []

namespace HopPlan

/-- An array at `path`, or an array of one empty document when there is nothing in it, so that a row
without a counterpart stays. -/
def orEmptyElement (path : String) : Bson :=
  .opList "$cond" [
    .opList "$gt" [.op "$size" (.opList "$ifNull" [.string ("$" ++ path), .array []]), .int32 0],
    .string ("$" ++ path),
    .array [.document []]]

/-- Plans the hops `rest` below the planned hops `above`. Hops that some row needs are flattened or
asked for; arrays that are only needed by absent rows are read under a field of their own. -/
def planHops (required : List String) (above : List Hop) : List Hop → HopPlan → Except QueryError (List Hop × HopPlan)
  | [], plan => .ok (above, plan)
  | h :: rest, plan =>
    let key := Hop.fieldPath (above ++ [h])
    let path := Hop.path (above ++ [h])
    match List.lookup key plan.aliased with
    | some known => planHops required (above ++ [known]) rest plan
    | none =>
      if required.contains key then
        let prestages :=
          if h.isArray then plan.prestages.flatten path else plan.prestages.requirePresent path
        planHops required (above ++ [h]) rest { plan with prestages := prestages }
      else if h.isArray then
        if above.any (·.link.readAs.isSome) then
          .error (.unsupported s!"outer join onto the nested array '{key}'")
        else
          let name := "__" ++ h.field
          let h := h.aliased name
          planHops required (above ++ [h]) rest
            { prestages := (plan.prestages.compute name (orEmptyElement path)).flatten name
              aliased := (key, h) :: plan.aliased }
      else
        planHops required (above ++ [h]) rest plan

def planSources (required : List String) : List Source → HopPlan → Except QueryError (List Source × HopPlan)
  | [], plan => .ok ([], plan)
  | s :: sources, plan => do
    let (hops, plan) ← planHops required [] s.hops plan
    let (sources, plan) ← planSources required sources plan
    return ({ s with hops := hops } :: sources, plan)

def starts {α : Type} (xs : List α) : List (List α) :=
  (List.range xs.length).map fun k => xs.take (k + 1)

/-- The places that rows which may not be absent lie in or below. -/
def required (sources : List Source) : List String :=
  (sources.filter (!·.optional)).flatMap fun s => (starts s.hops).map Hop.fieldPath

def plan (sources : List Source) : Except QueryError (List Source × Prestages) := do
  let (sources, plan) ← planSources (required sources) sources {}
  return (sources, plan.prestages)

end HopPlan

namespace Catalog

/-- The table of the collection in which all tables are found that are not embeddable. A single
embeddable table is found in its own. -/
def commonTop? (layouts : List Layout) : Option String :=
  match layouts.filter (!·.isEmbeddable) with
  | first :: rest =>
    if rest.all fun l => Text.same l.collection first.collection then some first.collection
    else none
  | [] =>
    match layouts with
    | [l] => some l.table
    | _ => none

/-- The hops to a table that has its place in the collection of `top` by its own layout. -/
def ownHops? (top : String) (l : Layout) : Option (List Hop) :=
  if !l.isEmbeddable then some l.hops
  else if Text.same l.table top then some []
  else none

def sourceOf (t : Candidate) : Source :=
  { name := t.ref.referenceName, table := t.layout.table, hops := t.hops.getD []
    optional := t.optional }

def readsArray (sources : List Source) (name : String) : Bool :=
  match sources.find? fun s => Text.same s.name name with
  | some s => s.hops.getLast?.any Hop.isArray
  | none => false

def place (c : Catalog) (source : FromClause) : Except QueryError Placement := do
  let (tables, joins) ← source.normalize
  let layouts ← (tables.mapM fun t => c.layout t.1.name).mapError .layout
  let apart := QueryError.notColocated (tables.map (·.1.name))
  match commonTop? layouts with
  | none => throw apart
  | some top =>
    let candidates := List.zipWith
      (fun t l => { ref := t.1, optional := t.2, layout := l, hops := ownHops? top l : Candidate })
      tables layouts
    match Candidate.placeRounds joins tables.length candidates with
    | none => throw apart
    | some placed =>
      let (sources, prestages) ← HopPlan.plan (placed.map sourceOf)
      return {
        top := top
        sources := sources
        joins := joins.map fun j => { j with many := readsArray sources j.name }
        prestages := prestages }

end Catalog

end Pushdown
