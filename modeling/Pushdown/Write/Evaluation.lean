import Pushdown.Query.Expression
import Pushdown.Write.Error

/-!
# Evaluation of predicates

The value of a predicate on one row, where the row is selected here and not by the store. Logic has
three values: what is not known is NULL, and a row passes only a predicate that is true.
-/

namespace Pushdown

def Value.truth? : Value → Option Bool
  | .boolean b => some b
  | _ => none

def Value.ofTruth : Option Bool → Value
  | some b => .boolean b
  | none => .null

def Value.isMachineInteger : Value → Bool
  | .byte _ | .short _ | .integer _ | .long _ => true
  | _ => false

def ComparisonOp.evaluate (op : ComparisonOp) (left right : Value) : Value :=
  .ofTruth ((left.compare? right).map op.holds)

namespace ScalarFunction

/-- The result of an operation on the first two arguments, an integer when all arguments are. -/
def arithmetic (f : Float → Float → Float) (args : List Value) : Option Value :=
  match args with
  | a :: b :: _ => do
    let x ← a.float?
    let y ← b.float?
    let z := f x y
    return if args.all Value.isMachineInteger then
      .long (Int64.ofInt
        ((BinaryReal.ofFloat z).saturate (-9223372036854775808) 9223372036854775807))
    else
      .double z
  | _ => none

/-- The absolute value, in a wider type where the argument's own does not hold it. -/
def absolute : List Value → Option Value
  | [.integer n] =>
    some (if n = Int32.minValue then .long (-n.toInt64) else .integer (if n < 0 then -n else n))
  | [.long n] =>
    some (if n = Int64.minValue then .double (Float.ofInt n.toInt).abs
      else .long (if n < 0 then -n else n))
  | v :: _ => v.float?.map fun x => .double x.abs
  | [] => none

def firstText (f : String → Value) (args : List Value) : Option Value :=
  args.head?.bind fun v => v.text?.map f

def evaluate? (f : ScalarFunction) (args : List Value) : Option Value :=
  match f with
  | .upper => firstText (fun s => .string (Text.upper s)) args
  | .lower => firstText (fun s => .string (Text.lower s)) args
  | .trim .both => firstText (fun s => .string (Text.trim s)) args
  | .trim .left => firstText (fun s => .string (Text.trimStart s)) args
  | .trim .right => firstText (fun s => .string (Text.trimEnd s)) args
  | .length => firstText (fun s => .integer (Int32.ofInt s.length)) args
  | .concat => (args.mapM Value.text?).map fun texts => .string (String.join texts)
  | .abs => absolute args
  | .add => arithmetic (· + ·) args
  | .subtract => arithmetic (· - ·) args
  | .multiply => arithmetic (· * ·) args
  | .divide =>
    match args with
    | a :: b :: _ => do
      let x ← a.float?
      let y ← b.float?
      return .double (x / y)
    | _ => none
  | _ => none

/-- The value of a call. A NULL argument makes it NULL, whatever the function. -/
def call? (name : String) (args : List Value) : Option Value :=
  if args.any Value.isNull then some .null else (ofName? name).bind (·.evaluate? args)

end ScalarFunction

namespace Expression

mutual

def evaluate (column : ColumnRef → Except WriteError Value) : Expression → Except WriteError Value
  | .column ref => column ref
  | .literal v => .ok v
  | .comparison op left right => do
    let l ← evaluate column left
    let r ← evaluate column right
    return op.evaluate l r
  | .and terms => do return .ofTruth (← evaluateAnd column terms)
  | .or terms => do return .ofTruth (← evaluateOr column terms)
  | .not term => do return .ofTruth ((← evaluate column term).truth?.map (!·))
  | .isIn input list negated => do
    let v ← evaluate column input
    if v.isNull then
      return .null
    else
      return .ofTruth ((← evaluateIn column v list).map (· != negated))
  | .isNull input negated => do
    let v ← evaluate column input
    return .boolean (v.isNull != negated)
  | .like input pattern escape negated => do
    match (← evaluate column input).text? with
    | none => return .null
    | some text =>
      let pattern ← pattern.likePattern.mapError WriteError.query
      return .boolean ((LikeRegex.ofPattern pattern escape).matchesIn text != negated)
  | .call name args => do
    match ScalarFunction.call? name (← evaluateAll column args) with
    | some v => return v
    | none => throw (.evaluation (Expression.call name args).sql)
  | .aggregate function arg distinct =>
    .error (.unsupported
      ("aggregate " ++ (Expression.aggregate function arg distinct).sql ++ " in a write filter"))

/-- Whether all terms are true. Terms after one that is false are not looked at. -/
def evaluateAnd (column : ColumnRef → Except WriteError Value) : List Expression → Except WriteError (Option Bool)
  | [] => .ok (some true)
  | e :: es => do
    match (← evaluate column e).truth? with
    | some false => return some false
    | some true => evaluateAnd column es
    | none =>
      match ← evaluateAnd column es with
      | some false => return some false
      | _ => return none

/-- Whether some term is true. Terms after one that is true are not looked at. -/
def evaluateOr (column : ColumnRef → Except WriteError Value) : List Expression → Except WriteError (Option Bool)
  | [] => .ok (some false)
  | e :: es => do
    match (← evaluate column e).truth? with
    | some true => return some true
    | some false => evaluateOr column es
    | none =>
      match ← evaluateOr column es with
      | some true => return some true
      | _ => return none

/-- Whether some item is equal to the value. Items after one that is are not looked at. -/
def evaluateIn (column : ColumnRef → Except WriteError Value) (v : Value) :
    List Expression → Except WriteError (Option Bool)
  | [] => .ok (some false)
  | e :: es => do
    match v.compare? (← evaluate column e) with
    | some .eq => return some true
    | some _ => evaluateIn column v es
    | none =>
      match ← evaluateIn column v es with
      | some true => return some true
      | _ => return none

def evaluateAll (column : ColumnRef → Except WriteError Value) : List Expression → Except WriteError (List Value)
  | [] => .ok []
  | e :: es => do
    let v ← evaluate column e
    let vs ← evaluateAll column es
    return v :: vs

end

def accepts (column : ColumnRef → Except WriteError Value) (e : Expression) : Except WriteError Bool := do
  return (← e.evaluate column).truth? == some true

end Expression

end Pushdown
