import Pushdown.Proofs.StoreExpression
import Pushdown.Proofs.Update

/-!
# Which documents a condition matches

`Condition.accepts`: the store's reading of conditions. A test of a field looks at the values that the field's path
leads to (`reach`): an array at the end stands for its items and for itself (`spread`), one on the way for the
documents it holds. The store's logic has two values; a `test` for being different is the negation of one for being
equal, so that it holds of a field that is not there. How patterns are searched for is left to the store (`Search`).
-/

namespace Pushdown

/-- Whether a pattern, with options, is found in a text. -/
abbrev Search := String → String → String → Bool

namespace Bson

mutual

/-- The values that a path leads to. -/
def reach (names : List String) : Bson → List (Option Bson)
  | .document fields =>
    match names with
    | [] => [some (.document fields)]
    | name :: names => reachField name names fields
  | .array items =>
    match names with
    | [] => [some (.array items)]
    | name :: names =>
      match position? name with
      | some i => reachAt names items i ++ reachItems name names items
      | none => reachItems name names items
  | b =>
    match names with
    | [] => [some b]
    | _ :: _ => [none]

def reachField (name : String) (names : List String) : List (String × Bson) → List (Option Bson)
  | [] => [none]
  | (key, b) :: fields => if key = name then reach names b else reachField name names fields

def reachItems (name : String) (names : List String) : List Bson → List (Option Bson)
  | [] => []
  | .document fields :: items => reachField name names fields ++ reachItems name names items
  | _ :: items => reachItems name names items

def reachAt (names : List String) : List Bson → Nat → List (Option Bson)
  | [], _ => []
  | b :: _, 0 => reach names b
  | _ :: items, i + 1 => reachAt names items i

end

def spread : Option Bson → List (Option Bson)
  | some (.array items) => items.map some ++ [some (.array items)]
  | b => [b]

def rankMaybe : Option Bson → Int
  | some b => b.rank
  | none => 0

/-- Whether a value stands in the relation to a constant. Values of different kinds are not
compared; but a value that is not there counts as null, and everything lies between the two ends. -/
def stands (op : MatchOp) (arg : Bson) (b : Option Bson) : Bool :=
  if rankMaybe b = arg.rank then
    match b with
    | some b =>
      if b.isNaN || arg.isNaN then b.isNaN && arg.isNaN && op.holds .eq else op.holds (order b arg)
    | none => op.holds .eq
  else if rankMaybe b + arg.rank = 5 then op.holds .eq
  else
    match arg with
    | .maxKey => op.holds .lt
    | .minKey => op.holds .gt
    | _ => false

/-- Whether a pattern is found in a value. -/
def found (search : Search) (pattern options : String) : Option Bson → Bool
  | some (.string s) => search pattern options s
  | some (.symbol s) => search pattern options s
  | some (.regex p o) => p == pattern && o == options
  | _ => false

/-- Whether a value is one of a list, in which patterns stand for the texts they are found in. -/
def isAmong (search : Search) (args : List Bson) (b : Option Bson) : Bool :=
  args.any fun arg =>
    match arg with
    | .regex pattern options => found search pattern options b
    | arg => stands .eq arg b

/-- A test whose argument is not a document, on the values a path leads to. -/
def scalarTest (search : Search) (values : List (Option Bson)) (options op : String) (arg : Bson) : Bool :=
  match op, arg with
  | "$eq", arg => values.any (stands .eq arg)
  | "$ne", arg => !values.any (stands .eq arg)
  | "$lt", arg => values.any (stands .lt arg)
  | "$lte", arg => values.any (stands .lte arg)
  | "$gt", arg => values.any (stands .gt arg)
  | "$gte", arg => values.any (stands .gte arg)
  | "$in", .array args => values.any (isAmong search args)
  | "$nin", .array args => !values.any (isAmong search args)
  | "$regex", .string pattern => values.any (found search pattern options)
  | "$options", _ => true
  | _, _ => false

def optionsIn (tests : Document) : String :=
  match Document.get? tests "$options" with
  | some (.string options) => options
  | _ => ""

mutual

def satisfies (search : Search) : List (String × Bson) → Bson → Bool
  | [], _ => true
  | (key, arg) :: rest, b => clause search key arg b && satisfies search rest b
termination_by structural q => q

/-- One clause: a test of a field, a connective, or a test of the value itself. Connectives without terms are read
too, which the store refuses. -/
def clause (search : Search) (key : String) : Bson → Bson → Bool
  | .document tests, b =>
    if isMarked key then
      if key = "$expr" then isTruthy (compute? b (.document tests))
      else if key = "$not" then !testAll search (spread (some b)) (optionsIn tests) tests
      else if key = "$elemMatch" then
        (spread (some b)).any fun
          | some (.array items) => items.any fun b => satisfies search tests b
          | _ => false
      else scalarTest search (spread (some b)) "" key (.document tests)
    else if tests.head?.any fun f => isMarked f.1 then
      testAll search ((reach (Path.split key) b).flatMap spread) (optionsIn tests) tests
    else ((reach (Path.split key) b).flatMap spread).any (stands .eq (.document tests))
  | .array args, b =>
    if isMarked key then
      match key with
      | "$and" => satisfiesAll search args b
      | "$or" => satisfiesSome search args b
      | "$nor" => !satisfiesSome search args b
      | "$expr" => isTruthy (compute? b (.array args))
      | _ => scalarTest search (spread (some b)) "" key (.array args)
    else ((reach (Path.split key) b).flatMap spread).any (stands .eq (.array args))
  | arg, b =>
    if isMarked key then
      if key = "$expr" then isTruthy (compute? b arg)
      else scalarTest search (spread (some b)) "" key arg
    else ((reach (Path.split key) b).flatMap spread).any (stands .eq arg)
termination_by structural arg => arg

def satisfiesAll (search : Search) : List Bson → Bson → Bool
  | [], _ => true
  | .document q :: qs, b => satisfies search q b && satisfiesAll search qs b
  | _ :: _, _ => false
termination_by structural qs => qs

def satisfiesSome (search : Search) : List Bson → Bson → Bool
  | [], _ => false
  | .document q :: qs, b => satisfies search q b || satisfiesSome search qs b
  | _ :: qs, b => satisfiesSome search qs b
termination_by structural qs => qs

/-- One test on the values a path leads to. -/
def test (search : Search) (values : List (Option Bson)) (options op : String) : Bson → Bool
  | .document tests =>
    if op = "$not" then !testAll search values (optionsIn tests) tests
    else if op = "$elemMatch" then
      values.any fun
        | some (.array items) => items.any fun b => satisfies search tests b
        | _ => false
    else scalarTest search values options op (.document tests)
  | arg => scalarTest search values options op arg
termination_by structural arg => arg

def testAll (search : Search) (values : List (Option Bson)) (options : String) : List (String × Bson) → Bool
  | [] => true
  | (op, arg) :: tests => test search values options op arg && testAll search values options tests
termination_by structural tests => tests

end

section Equations

variable {search : Search} {values : List (Option Bson)} {options op key : String} {arg b : Bson}
  {rest tests : Document} {args qs : List Bson}

theorem satisfies_nil : satisfies search [] b = true := rfl

theorem satisfies_cons :
    satisfies search ((key, arg) :: rest) b = (clause search key arg b && satisfies search rest b) := rfl

theorem satisfiesAll_cons :
    satisfiesAll search (.document rest :: qs) b = (satisfies search rest b && satisfiesAll search qs b) := rfl

theorem satisfiesSome_cons :
    satisfiesSome search (.document rest :: qs) b = (satisfies search rest b || satisfiesSome search qs b) := rfl

theorem clause_and : clause search "$and" (.array args) b = satisfiesAll search args b := rfl

theorem clause_or : clause search "$or" (.array args) b = satisfiesSome search args b := rfl

theorem testAll_nil : testAll search values options [] = true := rfl

theorem testAll_cons : testAll search values options ((op, arg) :: tests) =
    (test search values options op arg && testAll search values options tests) := rfl

theorem test_not :
    test search values options "$not" (.document tests) = !testAll search values (optionsIn tests) tests := rfl

theorem test_in : test search values options "$in" (.array args) = values.any (isAmong search args) := rfl

theorem test_nin : test search values options "$nin" (.array args) = !values.any (isAmong search args) := rfl

theorem test_null : test search values options op .null = scalarTest search values options op .null := rfl

theorem test_regex {pattern : String} :
    test search values options "$regex" (.string pattern) = values.any (found search pattern options) := rfl

theorem test_options {text : String} : test search values options "$options" (.string text) = true := rfl

theorem scalarTest_name (op : MatchOp) : scalarTest search values options op.name arg =
    if op = .ne then !values.any (stands .eq arg) else values.any (stands op arg) := by
  cases op <;> rfl

end Equations

end Bson

def Condition.accepts (search : Search) (q : Condition) (d : Document) : Bool :=
  Bson.satisfies search q.toDocument (.document d)

end Pushdown
