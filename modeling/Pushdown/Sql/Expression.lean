import Pushdown.Sql.Value

/-!
# Expressions

Scalar expressions, predicates and aggregates of the relational side.
-/

namespace Pushdown

/-- A column, with the table name or alias it is qualified with; an empty qualifier is none. -/
structure ColumnRef where
  table : String
  column : String
deriving DecidableEq

inductive ComparisonOp where
  | eq
  | neq
  | lt
  | lte
  | gt
  | gte
deriving DecidableEq

namespace ComparisonOp

/-- The operator that gives the same result with its operands swapped. -/
def flip : ComparisonOp → ComparisonOp
  | .eq => .eq
  | .neq => .neq
  | .lt => .gt
  | .lte => .gte
  | .gt => .lt
  | .gte => .lte

def negate : ComparisonOp → ComparisonOp
  | .eq => .neq
  | .neq => .eq
  | .lt => .gte
  | .lte => .gt
  | .gt => .lte
  | .gte => .lt

/-- Whether two values in the given order stand in the relation. -/
def holds : ComparisonOp → Ordering → Bool
  | .eq, o => o == .eq
  | .neq, o => o != .eq
  | .lt, o => o == .lt
  | .lte, o => o != .gt
  | .gt, o => o == .gt
  | .gte, o => o != .lt

@[simp] theorem flip_flip (op : ComparisonOp) : op.flip.flip = op := by cases op <;> rfl

@[simp] theorem negate_negate (op : ComparisonOp) : op.negate.negate = op := by cases op <;> rfl

theorem holds_flip (op : ComparisonOp) (o : Ordering) : op.flip.holds o.swap = op.holds o := by
  cases op <;> cases o <;> rfl

theorem holds_negate (op : ComparisonOp) (o : Ordering) : op.negate.holds o = !op.holds o := by
  cases op <;> cases o <;> rfl

end ComparisonOp

inductive AggregateFunction where
  | count
  | sum
  | avg
  | min
  | max
deriving DecidableEq

inductive Expression where
  | column (ref : ColumnRef)
  | literal (value : Value)
  | comparison (op : ComparisonOp) (left right : Expression)
  | and (terms : List Expression)
  | or (terms : List Expression)
  | not (term : Expression)
  | isIn (input : Expression) (list : List Expression) (negated : Bool)
  | isNull (input : Expression) (negated : Bool)
  | like (input pattern : Expression) (escape : Option Char) (negated : Bool)
  | call (name : String) (args : List Expression)
  /-- An aggregate; only `COUNT(*)` has no argument. -/
  | aggregate (function : AggregateFunction) (arg : Option Expression) (distinct : Bool)

namespace Expression

mutual

def conjuncts : Expression → List Expression
  | .and terms => conjunctsOf terms
  | e => [e]

def conjunctsOf : List Expression → List Expression
  | [] => []
  | e :: es => conjuncts e ++ conjunctsOf es

end

mutual

def containsAggregate : Expression → Bool
  | .aggregate .. => true
  | .column _ => false
  | .literal _ => false
  | .comparison _ left right => containsAggregate left || containsAggregate right
  | .and terms => anyAggregate terms
  | .or terms => anyAggregate terms
  | .not term => containsAggregate term
  | .isIn input list _ => containsAggregate input || anyAggregate list
  | .isNull input _ => containsAggregate input
  | .like input pattern _ _ => containsAggregate input || containsAggregate pattern
  | .call _ args => anyAggregate args

def anyAggregate : List Expression → Bool
  | [] => false
  | e :: es => containsAggregate e || anyAggregate es

end

mutual

def columns : Expression → List ColumnRef
  | .column ref => [ref]
  | .literal _ => []
  | .comparison _ left right => columns left ++ columns right
  | .and terms => columnsOf terms
  | .or terms => columnsOf terms
  | .not term => columns term
  | .isIn input list _ => columns input ++ columnsOf list
  | .isNull input _ => columns input
  | .like input pattern _ _ => columns input ++ columns pattern
  | .call _ args => columnsOf args
  | .aggregate _ none _ => []
  | .aggregate _ (some arg) _ => columns arg

def columnsOf : List Expression → List ColumnRef
  | [] => []
  | e :: es => columns e ++ columnsOf es

end

end Expression

end Pushdown
