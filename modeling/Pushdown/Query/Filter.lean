import Pushdown.Condition
import Pushdown.Query.Expression

/-!
# Filters

Predicates as conditions of the store. A predicate that tests one field against constants is a test
of that field; any other is computed.
-/

namespace Pushdown

def ComparisonOp.test : ComparisonOp → MatchOp
  | .eq => .eq
  | .neq => .ne
  | .lt => .lt
  | .lte => .lte
  | .gt => .gt
  | .gte => .gte

namespace Expression

variable {σ : Type}

/-- The field that a test can be made on for the value of an expression, if there is one. -/
def field? (c : Context σ) (scope : Scope) (e : Expression) : Compiling σ (Option String) := do
  match e, scope with
  | .column _, .raw =>
    match ← e.compile c scope with
    | .string s => return some (Path.afterMark s)
    | _ => return none
  | .aggregate function arg distinct, .grouped =>
    let _ ← compileAggregate e.sql function distinct (arg.map (compile c .raw)) none
    Compiling.groupedPath? e.sql
  | _, .grouped => Compiling.groupedPath? e.sql
  | _, .raw => return none

def constant? (c : Context σ) : Expression → Compiling σ (Option Bson)
  | .literal v => some <$> c.store v
  | _ => pure none

/-- The stored forms of constants, up to the first expression that is none. -/
def constants? (c : Context σ) : List Expression → Compiling σ (Option (List Bson))
  | [] => pure (some [])
  | e :: es => do
    match ← constant? c e with
    | none => return none
    | some b =>
      match ← constants? c es with
      | none => return none
      | some bs => return some (b :: bs)

/-- A predicate over computed values. In a pipeline it is computed into a field ahead of the
match. -/
def computedFilter (c : Context σ) (scope : Scope) (e : Expression) : Compiling σ Condition := do
  match scope, c.mode with
  | .raw, .pipeline =>
    let computed ← e.compile c scope
    let name := "__m" ++ toString (← get).helperFields.length
    modify fun d => { d with helperFields := d.helperFields ++ [(name, computed)] }
    return .comparison (some name) .eq (.boolean true)
  | .raw, .element => throw (.notElementLocal e.sql)
  | _, _ => return .expr (← e.compile c scope)

/-- The filter for a comparison: a test of a field against a constant on either side. -/
def comparisonFilter (c : Context σ) (scope : Scope) (op : ComparisonOp)
    (left right : Expression) : Compiling σ Condition := do
  let input ← field? c scope left
  let arg ← constant? c right
  match input, arg with
  | some input, some arg => return .comparison (some input) op.test arg
  | _, _ =>
    let arg ← constant? c left
    let input ← field? c scope right
    match arg, input with
    | some arg, some input => return .comparison (some input) op.flip.test arg
    | _, _ => computedFilter c scope (.comparison op left right)

/-- The filter for a LIKE. Only text columns can be matched. -/
def likeFilter (c : Context σ) (scope : Scope) (input pattern : Expression) (escape : Option Char)
    (negated : Bool) : Compiling σ Condition := do
  let text ← Attempt.ofExcept pattern.likePattern
  match input with
  | .column ref =>
    let column ← Attempt.ofExcept (c.resolve ref)
    if !column.type.isString then
      throw (.unsupported ("LIKE on the " ++ column.type.text ++ " column " ++ input.sql))
  | _ => pure ()
  match ← field? c scope input with
  | some field => return .regex (some field) (LikeRegex.ofPattern text escape).text "s" negated
  | none => computedFilter c scope (.like input pattern escape negated)

mutual

def filter (c : Context σ) (scope : Scope) : Expression → Compiling σ Condition
  | .and terms => do return .and (← filters c scope terms)
  | .or terms => do return .or (← filters c scope terms)
  | .not (.not e) => filter c scope e
  | .not e => do return (← filter c scope e).negate
  | .comparison op left right => comparisonFilter c scope op left right
  | .isIn input list negated => do
    let args ← constants? c list
    match ← field? c scope input, args with
    | some field, some args => return .isIn (some field) args negated
    | _, _ => computedFilter c scope (.isIn input list negated)
  | .isNull input negated => do
    match ← field? c scope input with
    | some field => return .comparison (some field) (if negated then .ne else .eq) .null
    | none => computedFilter c scope (.isNull input negated)
  | .like input pattern escape negated => likeFilter c scope input pattern escape negated
  | .column ref => do
    match ← field? c scope (.column ref) with
    | some field => return .comparison (some field) .eq (.boolean true)
    | none => computedFilter c scope (.column ref)
  | e => computedFilter c scope e

def filters (c : Context σ) (scope : Scope) : List Expression → Compiling σ (List Condition)
  | [] => pure []
  | e :: es => Attempt.both List.cons (filter c scope e) (filters c scope es)

end

end Expression

end Pushdown
