import Pushdown.Query.Error
import Pushdown.Sql.Function

/-!
# Scalar functions of the store

How calls of scalar functions are written in the store's expression language, and what type they
have.
-/

namespace Pushdown

def DatePart.operator : DatePart → String
  | .year => "$year"
  | .month => "$month"
  | .dayOfMonth => "$dayOfMonth"
  | .dayOfWeek => "$dayOfWeek"
  | .dayOfYear => "$dayOfYear"
  | .week => "$week"
  | .hour => "$hour"
  | .minute => "$minute"
  | .second => "$second"

def TrimSide.operator : TrimSide → String
  | .both => "$trim"
  | .left => "$ltrim"
  | .right => "$rtrim"

namespace ScalarFunction

def operator : ScalarFunction → String
  | .add => "$add"
  | .subtract => "$subtract"
  | .multiply => "$multiply"
  | .divide => "$divide"
  | .modulo => "$mod"
  | .concat => "$concat"
  | .lower => "$toLower"
  | .upper => "$toUpper"
  | .length => "$strLenCP"
  | .abs => "$abs"
  | .ceiling => "$ceil"
  | .floor => "$floor"
  | .sqrt => "$sqrt"
  | .exp => "$exp"
  | .ln => "$ln"
  | .log10 => "$log10"
  | .power => "$pow"
  | .round => "$round"
  | .ifNull => "$ifNull"
  | .datePart part => part.operator
  | .trim side => side.operator
  | .substring => "$substr"

def ofName (name : String) : Except QueryError ScalarFunction :=
  match ofName? name with
  | some f => .ok f
  | none => .error (.unsupportedFunction name)

/-- A part of a date, or null when there is no date and dates are guarded. -/
def datePartOf (op : String) (guarded : Bool) (arg : Bson) : Bson :=
  if guarded then
    .opList "$cond" [
      .opList "$eq" [.opList "$ifNull" [arg, .null], .null], .null, .op op arg]
  else
    .op op arg

def before (n : Int64) : Bson := .int64 (if n = Int64.minValue then n else n - 1)

/-- A part of a text. Positions count from one on the relational side and from zero in the store. -/
def substringOf (text start : Bson) (startLiteral : Option Int64) (count : Bson) : Bson :=
  .opList "$substr" [
    text,
    match startLiteral with
    | some n => before n
    | none => .opList "$subtract" [start, .int32 1],
    count]

/-- The call of a function that goes by `name`. `startLiteral` is the second argument, where it is
given as an integer. -/
def apply (f : ScalarFunction) (name : String) (guarded : Bool) (startLiteral : Option Int64)
    (args : List Bson) : Except QueryError Bson :=
  let wrongArity : Except QueryError Bson := .error (.functionArity name args.length)
  match f with
  | .datePart part =>
    match args with
    | [arg] => .ok (datePartOf part.operator guarded arg)
    | _ => wrongArity
  | .trim side =>
    match args with
    | [arg] => .ok (.op side.operator (.document [("input", arg)]))
    | _ => wrongArity
  | .substring =>
    match args with
    | [text, start] => .ok (substringOf text start startLiteral (.int32 (-1)))
    | [text, start, count] => .ok (substringOf text start startLiteral count)
    | _ => wrongArity
  | f => .ok (.opList f.operator args)

def resultType (f : ScalarFunction) (args : List SqlType) : SqlType :=
  match f with
  | .add | .subtract | .multiply | .modulo =>
    if args.any fun t => t == .float || t == .double || t == .bigDecimal then .double else .long
  | .divide | .sqrt | .exp | .ln | .log10 | .power => .double
  | .concat | .lower | .upper | .trim _ | .substring => .string
  | .length | .datePart _ => .integer
  | .abs | .ceiling | .floor | .round | .ifNull => args.head?.getD .double

end ScalarFunction

end Pushdown
