import Pushdown.Query.Context
import Pushdown.Query.Scalar
import Pushdown.Sql.Like

/-!
# Compiled expressions

Expressions in the store's expression language. Where values are grouped, an expression that is a
grouping key or an aggregate is read from the group, and other columns cannot be read.
-/

namespace Pushdown

def ComparisonOp.operator : ComparisonOp → String
  | .eq => "$eq"
  | .neq => "$ne"
  | .lt => "$lt"
  | .lte => "$lte"
  | .gt => "$gt"
  | .gte => "$gte"

def Value.int64? : Value → Option Int64
  | .byte n => some n.toInt64
  | .short n => some n.toInt64
  | .integer n => some n.toInt64
  | .long n => some n
  | _ => none

def isPlainField (name : String) : Bool :=
  !name.isEmpty && name != "_id" && name.toList.head? != some '$' && !name.toList.contains '.'

namespace Expression

def likePattern : Expression → Except QueryError String
  | .literal (.string s) => .ok s
  | .literal (.char c) => .ok (String.ofList [c])
  | e => .error (.unsupported ("LIKE with the non-literal pattern " ++ e.sql))

def negatedIf (negated : Bool) (b : Bson) : Bson := if negated then .opList "$not" [b] else b

/-- A constant. A text that would be read as a field is marked. -/
def compileLiteral {σ : Type} (c : Context σ) (v : Value) : Compiling σ Bson := do
  match ← c.store v with
  | .string s =>
    if s.toList.head? = some '$' then Attempt.ofExcept (c.wrapLiteral (.string s))
    else pure (.string s)
  | b => pure b

/-- What an aggregate accumulates, for an argument that is compiled already. Counting an argument
counts its values that are not null. -/
def accumulation (text : String) (function : AggregateFunction) (arg : Option Bson) :
    Except QueryError (AccumulatorFunction × Bson) :=
  match function, arg with
  | .count, none => .ok (.sum, .int32 1)
  | .count, some arg =>
    .ok (.sum, .opList "$cond" [.opList "$gt" [arg, .null], .int32 1, .int32 0])
  | .sum, some arg => .ok (.sum, arg)
  | .avg, some arg => .ok (.avg, arg)
  | .min, some arg => .ok (.min, arg)
  | .max, some arg => .ok (.max, arg)
  | _, none => .error (.unsupported (text ++ " without an argument"))

/-- The name of a new accumulator: the wanted one if it is usable and free, or a numbered one. -/
def accumulatorName (known : List Accumulator) (wanted : Option String) : String :=
  let numbered := "agg" ++ toString known.length
  match wanted with
  | some name => if isPlainField name && !known.any (·.name == name) then name else numbered
  | none => numbered

/-- Computes the aggregate with the fingerprint `text` while grouping, unless it is already, and
refers to it. The argument is compiled by `arg`. -/
def compileAggregate {σ : Type} (text : String) (function : AggregateFunction) (distinct : Bool)
    (arg : Option (Compiling σ Bson)) (wanted : Option String) : Compiling σ Bson := do
  match ← Compiling.groupedPath? text with
  | some path => return .fieldRef path
  | none =>
    if distinct then
      throw (.unsupported ("DISTINCT aggregate " ++ text))
    let arg : Option Bson ←
      match arg with
      | some compile => some <$> compile
      | none => pure none
    let (function, arg) ← Attempt.ofExcept (accumulation text function arg)
    let name := accumulatorName (← get).accumulators wanted
    modify fun d => { d with accumulators := d.accumulators ++ [⟨name, function, arg⟩] }
    Compiling.updateRegistry fun r =>
      r.registerGrouped text { expression := .fieldRef name, fieldPath := none } name
    return .fieldRef name

/-- The second argument of a call, where it is given as an integer. -/
def startLiteral? : List Expression → Option Int64
  | _ :: .literal v :: _ => v.int64?
  | _ => none

/-- Reads a value from the group where it is found there, and compiles it otherwise. -/
def orGrouped {σ : Type} (scope : Scope) (text : String) (compile : Compiling σ Bson) : Compiling σ Bson := do
  match scope with
  | .raw => compile
  | .grouped =>
    match ← Compiling.groupedPath? text with
    | some path => return .fieldRef path
    | none => compile

mutual

def compile {σ : Type} (c : Context σ) (scope : Scope) : Expression → Compiling σ Bson
  | .column ref =>
    orGrouped scope (Expression.column ref).sql do
      match scope with
      | .raw =>
        let column ← Attempt.ofExcept (c.resolve ref)
        let field := Bson.fieldRef column.path
        Compiling.updateRegistry fun r =>
          r.register (Expression.column ref).sql (.ofExpression field)
        return field
      | .grouped => throw (.columnNotGrouped (Expression.column ref).sql)
  | .literal v => orGrouped scope (Expression.literal v).sql (compileLiteral c v)
  | .comparison op left right =>
    orGrouped scope (Expression.comparison op left right).sql do
      let args ←
        Attempt.both (fun l r => [l, r]) (compile c scope left) (compile c scope right)
      return .opList op.operator args
  | .and terms =>
    orGrouped scope (Expression.and terms).sql do
      return .opList "$and" (← compileAll c scope terms)
  | .or terms =>
    orGrouped scope (Expression.or terms).sql do
      return .opList "$or" (← compileAll c scope terms)
  | .not term =>
    orGrouped scope (Expression.not term).sql do
      return .opList "$not" [← compile c scope term]
  | .isIn input list negated =>
    orGrouped scope (Expression.isIn input list negated).sql do
      let input ← compile c scope input
      let list ← compileAll c scope list
      return negatedIf negated (.opList "$in" [input, .array list])
  | .isNull input negated =>
    orGrouped scope (Expression.isNull input negated).sql do
      let input ← compile c scope input
      return .opList (if negated then "$ne" else "$eq") [.opList "$ifNull" [input, .null], .null]
  | .like input pattern escape negated =>
    orGrouped scope (Expression.like input pattern escape negated).sql do
      let text ← Attempt.ofExcept pattern.likePattern
      let input ← compile c scope input
      return negatedIf negated (.op "$regexMatch" (.document [
        ("input", input), ("regex", .string (LikeRegex.ofPattern text escape).text),
        ("options", .string "s")]))
  | .call name args =>
    orGrouped scope (Expression.call name args).sql do
      let f ← Attempt.ofExcept (ScalarFunction.ofName name)
      let compiled ← compileAll c scope args
      Attempt.ofExcept (f.apply name c.options.guardDateFunctions (startLiteral? args) compiled)
  | .aggregate function none distinct =>
    match scope with
    | .raw => throw (.aggregateNotAllowed (Expression.aggregate function none distinct).sql)
    | .grouped =>
      compileAggregate (Expression.aggregate function none distinct).sql function distinct none none
  | .aggregate function (some arg) distinct =>
    match scope with
    | .raw => throw (.aggregateNotAllowed (Expression.aggregate function (some arg) distinct).sql)
    | .grouped =>
      compileAggregate (Expression.aggregate function (some arg) distinct).sql function distinct
        (some (compile c .raw arg)) none

def compileAll {σ : Type} (c : Context σ) (scope : Scope) : List Expression → Compiling σ (List Bson)
  | [] => pure []
  | e :: es => Attempt.both List.cons (compile c scope e) (compileAll c scope es)

end

def sumType : SqlType → SqlType
  | .byte | .short | .integer => .long
  | .float => .double
  | t => t

def aggregateType (function : AggregateFunction) (arg : Option SqlType) : SqlType :=
  match function, arg with
  | .count, _ => .integer
  | .avg, _ => .double
  | .sum, some t => sumType t
  | _, some t => t
  | _, none => .double

mutual

def typeIn {σ : Type} (c : Context σ) : Expression → Except QueryError SqlType
  | .column ref => do return (← c.resolve ref).type
  | .literal v => .ok (v.type?.getD .string)
  | .comparison .. => .ok .boolean
  | .and _ => .ok .boolean
  | .or _ => .ok .boolean
  | .not _ => .ok .boolean
  | .isIn .. => .ok .boolean
  | .isNull .. => .ok .boolean
  | .like .. => .ok .boolean
  | .call name args => do
    let f ← ScalarFunction.ofName name
    return f.resultType (← typesIn c args)
  | .aggregate function none _ => .ok (aggregateType function none)
  | .aggregate function (some arg) _ => do
    return aggregateType function (some (← typeIn c arg))

def typesIn {σ : Type} (c : Context σ) : List Expression → Except QueryError (List SqlType)
  | [] => .ok []
  | e :: es => do
    let t ← typeIn c e
    let ts ← typesIn c es
    return t :: ts

end

end Expression

end Pushdown
