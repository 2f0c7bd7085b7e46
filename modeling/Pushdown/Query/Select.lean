import Pushdown.Query.Filter
import Pushdown.Query.Output
import Pushdown.Query.Pipeline
import Pushdown.Store.Basic

/-!
# Compiled queries

A SELECT becomes one pipeline over one collection. Its clauses are compiled in the order FROM,
WHERE, GROUP BY, HAVING, SELECT and ORDER BY, each adding to what the query knows of its values.
-/

namespace Pushdown

structure Output where
  column : OutputColumn
  expression : Bson

structure Query extends AggregateRequest where
  columns : List OutputColumn

namespace Select

variable {σ : Type}

def isImplied (c : Context σ) : Expression → Except QueryError Bool
  | .comparison .eq (.column l) (.column r) => do
    let l ← c.resolve l
    let r ← c.resolve r
    return l.path == r.path
  | _ => .ok false

/-- The terms of a join condition that the layout does not imply. -/
def openTerms (c : Context σ) (join : JoinStep) : List Expression → Except QueryError (List Expression)
  | [] => .ok []
  | term :: terms => do
    if ← isImplied c term then
      openTerms c join terms
    else if join.outer then
      throw (.unsupported
        ("outer join condition " ++ term.sql ++ " not implied by the document structure"))
    else
      match join.many, term with
      | true, .comparison .. | false, _ =>
        let rest ← openTerms c join terms
        return term :: rest
      | true, _ => throw (.unsupported ("join condition " ++ term.sql ++ " on a nested array"))

def joinTerms (c : Context σ) : List JoinStep → Except QueryError (List Expression)
  | [] => .ok []
  | join :: joins => do
    let terms ← openTerms c join ((join.condition.map Expression.conjuncts).getD [])
    let rest ← joinTerms c joins
    return terms ++ rest

def whereTerm (c : Context σ) (e : Expression) : Compiling σ Condition :=
  if e.containsAggregate then throw (.aggregateNotAllowed e.sql) else e.filter c .raw

def conditionOf (terms : List (Compiling σ Condition)) : Compiling σ (Option Condition) := do
  return Condition.all (← Attempt.all terms)

def aggregates (s : Select) : Bool :=
  s.columns.any (·.expr.containsAggregate) || s.having.isSome ||
    s.orderBy.any (·.expr.containsAggregate)

/-- The expressions to group by. DISTINCT without aggregates groups by every select item. -/
def groupingKeys (s : Select) : List Expression :=
  if s.groupBy.isEmpty && s.distinct && !s.aggregates then s.columns.map (·.expr) else s.groupBy

/-- The field of the key at a position: the name of its column where that is usable and new. -/
def keyName (position : Nat) (names : List String) (key : Expression) : String × List String :=
  let numbered := "_k" ++ toString position
  match key with
  | .column ref =>
    let name := Text.lower ref.column
    if isPlainField ref.column && !names.contains name then (ref.column, name :: names)
    else (numbered, names)
  | _ => (numbered, names)

structure GroupingKey where
  key : Expression
  name : String
  expression : Bson

/-- Compiles the keys from a position on, when keys before it have taken `names`. -/
def compileKeys (c : Context σ) : Nat → List String → List Expression → Compiling σ (List GroupingKey)
  | _, _, [] => pure []
  | position, names, key :: keys => do
    if key.containsAggregate then
      throw (.aggregateNotAllowed key.sql)
    let expression ← key.compile c .raw
    let (name, names) := keyName position names key
    let rest ← compileKeys c (position + 1) names keys
    return ⟨key, name, expression⟩ :: rest

def registerKeys (keys : List GroupingKey) (r : Registry) : Registry :=
  keys.foldl
    (fun r k =>
      r.registerGrouped k.key.sql (.ofExpression k.expression)
        (if keys.length = 1 then "_id" else "_id." ++ k.name))
    r

/-- Compiles the grouping keys. A query with aggregates and no keys makes one group. -/
def compileGroup (c : Context σ) (s : Select) : Compiling σ (Option GroupKeys) := do
  match ← compileKeys c 0 [] s.groupingKeys with
  | [] => return if s.aggregates then some .none else none
  | keys =>
    Compiling.updateRegistry (registerKeys keys)
    match keys with
    | [k] => return some (.single k.expression)
    | keys => return some (.compound (keys.map fun k => (k.name, k.expression)))

/-- The first of `base`, `base_1`, `base_2`, … that is not used. -/
def freshName (used : List String) (base : String) : String :=
  let names := base :: (List.range (used.length + 1)).map fun n => base ++ "_" ++ toString (n + 1)
  (names.find? fun name => !used.contains (Text.lower name)).getD base

/-- The output name of the item at a position: its alias, the name of its column, or a numbered
name. Only an alias may repeat a name. -/
def outputName (used : List String) (position : Nat) (item : SelectItem) : String :=
  match item.label, item.expr with
  | some label, _ => label
  | none, .column ref => freshName used ref.column
  | none, _ => freshName used ("expr" ++ toString (position + 1))

/-- Compiles a select item. An aggregate takes the output name, and a constant is marked as one. -/
def compileItem (c : Context σ) (scope : Scope) (name : String) (e : Expression) : Compiling σ Bson := do
  match e, scope with
  | .aggregate function arg distinct, .grouped =>
    Expression.compileAggregate e.sql function distinct (arg.map (Expression.compile c .raw))
      (some name)
  | .literal v, _ =>
    let b ← c.store v
    Attempt.ofExcept (c.wrapLiteral b)
  | e, scope => e.compile c scope

/-- The path of an output. It is read from the group when nothing is projected after grouping. -/
def outputPath (scope : Scope) (early : Bool) (name : String) (expression : Bson) : String :=
  match scope, early, expression with
  | .grouped, true, .string s => if s.toList.head? = some '$' then Path.afterMark s else name
  | _, _, _ => name

/-- Compiles the select items from a position on, when `used` names are taken. -/
def compileItems (c : Context σ) (scope : Scope) : Nat → List String → List SelectItem → Compiling σ (List Output)
  | _, _, [] => pure []
  | position, used, item :: items => do
    let name := outputName used position item
    let expression ← compileItem c scope name item.expr
    let type ← Attempt.ofExcept (item.expr.typeIn c)
    let fingerprint := item.expr.sql
    Compiling.updateRegistry fun r =>
      (r.register fingerprint (.ofExpression expression)).addLabel fingerprint name
    let early := !(← get).helperFields.isEmpty
    let rest ← compileItems c scope (position + 1) (Text.lower name :: used) items
    return ⟨⟨name, outputPath scope early name expression, type⟩, expression⟩ :: rest

/-- The output that an ORDER BY expression stands for: the one with its fingerprint, or the one
whose name it is. -/
def sortedOutput? (r : Registry) (outputs : List Output) (e : Expression) : Option Output :=
  let byFingerprint := (r.get? e.sql).bind (·.labels.head?)
  let byName :=
    match e with
    | .column ref => if ref.table.isEmpty then some ref.column else none
    | _ => none
  (byFingerprint.toList ++ byName.toList).findSome? fun name =>
    outputs.find? fun o => Text.same o.column.name name

def sortKeys (r : Registry) (outputs : List Output) (items : List SortItem) : Except QueryError (List SortKey) :=
  items.mapM fun item =>
    match sortedOutput? r outputs item.expr with
    | some o => .ok ⟨o.column.path, item.ascending⟩
    | none => .error (.orderByNotProjected item.expr.sql)

def signed? (n : UInt64) : Option Int64 :=
  if n.toNat < Nat.pow 2 63 then some n.toInt64 else none

def signedOr (failure : UInt64 → QueryError) : Option UInt64 → Except QueryError (Option Int64)
  | none => .ok none
  | some n =>
    match signed? n with
    | some k => .ok (some k)
    | none => .error (failure n)

/-- The paths to keep such that every path of the list is one of them or lies inside one. -/
def coveringPaths (paths : List String) : List String :=
  paths.foldl
    (fun kept path =>
      if kept.any (Path.covers · path) then kept
      else kept.filter (!Path.covers path ·) ++ [path])
    []

/-- The outputs to be computed ahead of the match, where `kept` fields are kept. An output that is a
kept field of its own name is there already. -/
def earlyOutputs (kept : List String) : List Output → Except QueryError (List (String × ProjectedField))
  | [] => .ok []
  | o :: outputs =>
    let name := o.column.name
    if kept.contains name && o.expression.isFieldRef name then
      earlyOutputs kept outputs
    else if kept.any fun p => Path.covers name p || Path.covers p name then
      .error (.unsupported s!"output column '{name}' collides with a stored field")
    else do
      let rest ← earlyOutputs kept outputs
      return (name, .computed o.expression) :: rest

/-- The projection ahead of the match: predicates that are computed, the outputs unless they are
computed from groups, and every stored field that the query reads. -/
def earlyProjection (d : Draft σ) (outputs : List Output) (grouped : Bool) : Except QueryError Projection := do
  let kept := coveringPaths d.registry.fieldPaths
  let computed ← if grouped then pure [] else earlyOutputs kept outputs
  return {
    fields := d.helperFields.map (fun f => (f.1, .computed f.2)) ++ computed
      ++ kept.map (fun p => (p, .keep))
    excludeId := false }

def finalProjection (outputs : List Output) : Projection :=
  { fields := outputs.map fun o => (o.column.name, .computed o.expression)
    excludeId := !outputs.any (·.column.name == "_id") }

/-- Refuses outputs that would have to be computed from groups, when nothing is projected after
grouping. -/
def checkGroupOutputs (accumulators : List Accumulator) : List Output → Except QueryError Unit
  | [] => .ok ()
  | o :: outputs =>
    if Path.hasPrefix "_id" o.column.path || accumulators.any (·.name == o.column.path) then
      checkGroupOutputs accumulators outputs
    else
      .error (.unsupported ("computed output '" ++ o.column.name ++
        "' over grouped values when the filter reads computed values"))

def compileClauses (c : Context σ) (p : Placement) (s : Select) : Compiling σ (Pipeline × List Output) := do
  let joinTerms ← Attempt.ofExcept (joinTerms c p.joins)
  let terms := (s.filter.map Expression.conjuncts).getD [] ++ joinTerms
  let filter ← conditionOf (terms.map (whereTerm c))
  let keys ← compileGroup c s
  let having ←
    match s.having with
    | some e => conditionOf (e.conjuncts.map (Expression.filter c .grouped))
    | none => pure none
  let scope : Scope := if keys.isSome then .grouped else .raw
  let outputs ← compileItems c scope 0 [] s.columns
  let d ← get
  let early := !d.helperFields.isEmpty
  if early && keys.isSome then
    Attempt.ofExcept (checkGroupOutputs d.accumulators outputs)
  let sort ← Attempt.ofExcept (sortKeys d.registry outputs s.orderBy)
  let skip ← Attempt.ofExcept (signedOr .offsetOutOfRange s.offset)
  let limit ← Attempt.ofExcept (signedOr .limitOutOfRange s.limit)
  let earlyProjection ←
    if early then some <$> Attempt.ofExcept (earlyProjection d outputs keys.isSome)
    else pure none
  let top ← Attempt.ofExcept ((c.catalog.layout p.top).mapError .layout)
  return (
    { collection := top.collection
      prestages := p.prestages
      earlyProjection := earlyProjection
      filter := filter
      group := keys.map fun keys => ⟨keys, d.accumulators⟩
      having := having
      projection := if early then none else some (finalProjection outputs)
      sort := sort
      skip := skip
      limit := limit },
    outputs)

/-- The pipeline of a query and its outputs. No large objects can be stored while it is compiled. -/
def plan (c : Catalog) (options : Options) (s : Select) : Except QueryError (Pipeline × List Output) := do
  let p ← c.place s.source
  let context : Context Unit :=
    { catalog := c, top := p.top, sources := p.sources, objects := .unavailable
      options := options, mode := .pipeline }
  ((compileClauses context p s).run { objects := () }).1

def compile (c : Catalog) (options : Options) (s : Select) : Except QueryError Query := do
  let (pipeline, outputs) ← s.plan c options
  return { collection := pipeline.collection, pipeline := pipeline.stages
           columns := outputs.map (·.column) }

end Select

end Pushdown
