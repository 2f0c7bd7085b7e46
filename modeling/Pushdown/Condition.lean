import Pushdown.Bson.Basic

/-!
# Conditions

The language in which the store is told which documents to match. A condition without an input tests
the element itself, as in the elements of an array.

The store's own logic is two-valued, and its negated tests also hold of fields that are null or
missing. SQL comparisons with NULL hold neither way, so negated tests are written such that they
exclude null, and negation is moved down to the tests.
-/

namespace Pushdown

inductive MatchOp where
  | eq
  | ne
  | lt
  | lte
  | gt
  | gte
deriving DecidableEq

namespace MatchOp

def negate : MatchOp → MatchOp
  | .eq => .ne
  | .ne => .eq
  | .lt => .gte
  | .lte => .gt
  | .gt => .lte
  | .gte => .lt

def name : MatchOp → String
  | .eq => "$eq"
  | .ne => "$ne"
  | .lt => "$lt"
  | .lte => "$lte"
  | .gt => "$gt"
  | .gte => "$gte"

@[simp] theorem negate_negate (op : MatchOp) : op.negate.negate = op := by cases op <;> rfl

end MatchOp

inductive Condition where
  | and (terms : List Condition)
  | or (terms : List Condition)
  | nor (terms : List Condition)
  | comparison (input : Option String) (op : MatchOp) (arg : Bson)
  | isIn (input : Option String) (args : List Bson) (negated : Bool)
  | regex (input : Option String) (pattern options : String) (negated : Bool)
  /-- Some element of the array at `input` satisfies a condition. -/
  | elemMatch (input : String) (condition : Condition)
  /-- An expression of the store, evaluated for each document. -/
  | expr (e : Bson)
deriving Inhabited

namespace Condition

def all : List Condition → Option Condition
  | [] => none
  | [q] => some q
  | qs => some (.and qs)

mutual

/-- The negation of a condition, moved down to its tests. -/
def negate : Condition → Condition
  | .and terms => .or (negateAll terms)
  | .or terms => .and (negateAll terms)
  | .nor terms => .or terms
  | .comparison input op arg => .comparison input op.negate arg
  | .isIn input args negated => .isIn input args (!negated)
  | .regex input pattern options negated => .regex input pattern options (!negated)
  | .elemMatch input condition => .nor [.elemMatch input condition]
  | .expr e => .expr (.opList "$not" [e])

def negateAll : List Condition → List Condition
  | [] => []
  | q :: qs => negate q :: negateAll qs

end

def under (input : Option String) (test : Document) : Document :=
  match input with
  | some field => [(field, .document test)]
  | none => test

/-- The test for `op`. Being different from a constant includes being there. -/
def comparisonTest (op : MatchOp) (arg : Bson) : Document :=
  if op = .ne ∧ !arg.isNull then
    [("$nin", .array [arg, .null])]
  else
    [(op.name, arg)]

/-- The test for being one of `args`. Being none of them includes being there. -/
def isInTest (args : List Bson) (negated : Bool) : Document :=
  if negated then
    [("$nin", .array (if args.any Bson.isNull then args else args ++ [.null]))]
  else
    [("$in", .array args)]

/-- The test for matching a pattern. Not matching it includes being there. -/
def regexTest (pattern options : String) (negated : Bool) : Document :=
  let regex : Document := [("$regex", .string pattern), ("$options", .string options)]
  if negated then [("$not", .document regex), ("$ne", .null)] else regex

mutual

/-- The condition as the store reads it. A conjunction or disjunction of one term is that term. -/
def toDocument : Condition → Document
  | .and [q] => toDocument q
  | .or [q] => toDocument q
  | .and terms => [("$and", .array (toDocuments terms))]
  | .or terms => [("$or", .array (toDocuments terms))]
  | .nor terms => [("$nor", .array (toDocuments terms))]
  | .comparison input op arg => under input (comparisonTest op arg)
  | .isIn input args negated => under input (isInTest args negated)
  | .regex input pattern options negated => under input (regexTest pattern options negated)
  | .elemMatch input condition =>
    [(input, .document [("$elemMatch", .document (toDocument condition))])]
  | .expr e => [("$expr", e)]

def toDocuments : List Condition → List Bson
  | [] => []
  | q :: qs => .document (toDocument q) :: toDocuments qs

end

end Condition

end Pushdown
