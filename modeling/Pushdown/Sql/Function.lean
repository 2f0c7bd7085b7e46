import Pushdown.Text.Case

/-!
# Scalar functions

The scalar functions by their names. Names are read in any letter case.
-/

namespace Pushdown

inductive DatePart where
  | year
  | month
  | dayOfMonth
  | dayOfWeek
  | dayOfYear
  | week
  | hour
  | minute
  | second
deriving DecidableEq

inductive TrimSide where
  | both
  | left
  | right
deriving DecidableEq

inductive ScalarFunction where
  | add
  | subtract
  | multiply
  | divide
  | modulo
  | concat
  | lower
  | upper
  | length
  | abs
  | ceiling
  | floor
  | sqrt
  | exp
  | ln
  | log10
  | power
  | round
  | ifNull
  | datePart (part : DatePart)
  | trim (side : TrimSide)
  | substring
deriving DecidableEq

namespace ScalarFunction

def named : List (String × ScalarFunction) :=
  [("+", .add), ("add", .add), ("-", .subtract), ("subtract", .subtract), ("*", .multiply),
    ("multiply", .multiply), ("/", .divide), ("divide", .divide), ("%", .modulo), ("mod", .modulo),
    ("||", .concat), ("concat", .concat), ("lcase", .lower), ("lower", .lower), ("ucase", .upper),
    ("upper", .upper), ("length", .length), ("char_length", .length), ("abs", .abs),
    ("ceiling", .ceiling), ("ceil", .ceiling), ("floor", .floor), ("sqrt", .sqrt), ("exp", .exp),
    ("ln", .ln), ("log10", .log10), ("power", .power), ("round", .round), ("ifnull", .ifNull),
    ("nvl", .ifNull), ("coalesce", .ifNull), ("year", .datePart .year), ("month", .datePart .month),
    ("dayofmonth", .datePart .dayOfMonth), ("dayofweek", .datePart .dayOfWeek),
    ("dayofyear", .datePart .dayOfYear), ("week", .datePart .week), ("hour", .datePart .hour),
    ("minute", .datePart .minute), ("second", .datePart .second), ("trim", .trim .both),
    ("ltrim", .trim .left), ("rtrim", .trim .right), ("substring", .substring),
    ("substr", .substring)]

def ofName? (name : String) : Option ScalarFunction := List.lookup (Text.lower name) named

end ScalarFunction

end Pushdown
