import Pushdown.Catalog
import Pushdown.Json.Basic
import Pushdown.Options
import Pushdown.Sql.Command

/-!
# The JSON form of commands and catalogs

Types, values, expressions, commands, tables and options as JSON, in both directions. Writing gives
every field, reading lets those with a default be left out. A reader that descends into a value
takes a bound for its depth; the depth of the value is enough.
-/

namespace Pushdown

open Json (required defaulted list? option? string? bool? char? plain? named?)

namespace SqlType

def name : SqlType → String
  | .boolean => "boolean"
  | .byte => "byte"
  | .short => "short"
  | .integer => "integer"
  | .long => "long"
  | .float => "float"
  | .double => "double"
  | .bigInteger => "big_integer"
  | .bigDecimal => "big_decimal"
  | .char => "char"
  | .string => "string"
  | .date => "date"
  | .time => "time"
  | .timestamp => "timestamp"
  | .varbinary => "varbinary"
  | .blob => "blob"
  | .clob => "clob"
  | .xml => "xml"
  | .array _ => "array"

def toJson : SqlType → Json
  | .array component => .tagged "array" component.toJson
  | type => .string type.name

def ofJsonWithin? : Nat → Json → Option SqlType
  | 0, _ => none
  | fuel + 1, j =>
    match j.variant? with
    | some ("array", some p) => (ofJsonWithin? fuel p).map .array
    | _ =>
      j.named? name [.boolean, .byte, .short, .integer, .long, .float, .double, .bigInteger, .bigDecimal,
        .char, .string, .date, .time, .timestamp, .varbinary, .blob, .clob, .xml]

def ofJson? (j : Json) : Option SqlType := ofJsonWithin? (j.depth + 1) j

end SqlType

namespace Value

def bytesToJson (bytes : List UInt8) : Json := .array (bytes.map fun b => .ofInt b.toNat)

def bytesOfJson? : Json → Option (List UInt8) :=
  list? fun j => (j.intWithin? 0 255).map fun n => UInt8.ofNat n.toNat

mutual

def toJson : Value → Json
  | .null => .string "null"
  | .boolean b => .tagged "boolean" (.bool b)
  | .byte n => .tagged "byte" (.ofInt n.toInt)
  | .short n => .tagged "short" (.ofInt n.toInt)
  | .integer n => .tagged "integer" (.ofInt n.toInt)
  | .long n => .tagged "long" (.ofInt n.toInt)
  | .float x => .tagged "float" (.ofFloat32 x)
  | .double x => .tagged "double" (.ofFloat x)
  | .bigInteger n => .tagged "big_integer" (.ofInt n.val)
  | .bigDecimal text => .tagged "big_decimal" (.string text)
  | .char c => .tagged "char" (.string (String.ofList [c]))
  | .string s => .tagged "string" (.string s)
  | .date d => .tagged "date" (.string d.text)
  | .time t => .tagged "time" (.string t.text)
  | .timestamp t => .tagged "timestamp" (.string (t.text "T"))
  | .varbinary bytes => .tagged "varbinary" (bytesToJson bytes)
  | .blob bytes => .tagged "blob" (bytesToJson bytes)
  | .clob s => .tagged "clob" (.string s)
  | .xml s => .tagged "xml" (.string s)
  | .array items => .tagged "array" (.array (listToJson items))

def listToJson : List Value → List Json
  | [] => []
  | v :: vs => toJson v :: listToJson vs

end

def ofJsonWithin? : Nat → Json → Option Value
  | 0, _ => none
  | fuel + 1, j =>
    match j.variant? with
    | some ("null", p) => plain? .null p
    | some ("boolean", some p) => p.bool?.map .boolean
    | some ("byte", some p) => (p.intWithin? (-128) 127).map fun n => .byte (Int8.ofInt n)
    | some ("short", some p) => (p.intWithin? (-32768) 32767).map fun n => .short (Int16.ofInt n)
    | some ("integer", some p) =>
      (p.intWithin? (-2147483648) 2147483647).map fun n => .integer (Int32.ofInt n)
    | some ("long", some p) =>
      (p.intWithin? (-9223372036854775808) 9223372036854775807).map fun n => .long (Int64.ofInt n)
    | some ("float", some p) => p.float32?.map .float
    | some ("double", some p) => p.float?.map .double
    | some ("big_integer", some p) => (p.int?.bind BigInteger.ofInt?).map .bigInteger
    | some ("big_decimal", some p) => p.string?.map .bigDecimal
    | some ("char", some p) => p.char?.map .char
    | some ("string", some p) => p.string?.map .string
    | some ("date", some p) => (p.string?.bind Date.ofText?).map .date
    | some ("time", some p) => (p.string?.bind Time.ofText?).map .time
    | some ("timestamp", some p) => (p.string?.bind Timestamp.ofText?).map .timestamp
    | some ("varbinary", some p) => (bytesOfJson? p).map .varbinary
    | some ("blob", some p) => (bytesOfJson? p).map .blob
    | some ("clob", some p) => p.string?.map .clob
    | some ("xml", some p) => p.string?.map .xml
    | some ("array", some p) => (p.list? (ofJsonWithin? fuel)).map .array
    | _ => none

def ofJson? (j : Json) : Option Value := ofJsonWithin? (j.depth + 1) j

end Value

namespace ColumnRef

def toJson (c : ColumnRef) : Json :=
  .object [("table", .string c.table), ("column", .string c.column)]

def ofJson? (j : Json) : Option ColumnRef :=
  match j.record? ["table", "column"] with
  | some [table, column] => do
    let table ← required string? table
    let column ← required string? column
    return { table, column }
  | _ => none

end ColumnRef

namespace ComparisonOp

def name : ComparisonOp → String
  | .eq => "eq"
  | .neq => "neq"
  | .lt => "lt"
  | .lte => "lte"
  | .gt => "gt"
  | .gte => "gte"

def ofJson? : Json → Option ComparisonOp := named? name [.eq, .neq, .lt, .lte, .gt, .gte]

end ComparisonOp

namespace AggregateFunction

def name : AggregateFunction → String
  | .count => "count"
  | .sum => "sum"
  | .avg => "avg"
  | .min => "min"
  | .max => "max"

def ofJson? : Json → Option AggregateFunction :=
  named? name [.count, .sum, .avg, .min, .max]

end AggregateFunction

namespace Expression

mutual

def toJson : Expression → Json
  | .column ref => .tagged "column" ref.toJson
  | .literal value => .tagged "literal" value.toJson
  | .comparison op left right =>
    .tagged "comparison"
      (.object [("op", .string op.name), ("left", toJson left), ("right", toJson right)])
  | .and terms => .tagged "and" (.array (listToJson terms))
  | .or terms => .tagged "or" (.array (listToJson terms))
  | .not term => .tagged "not" (toJson term)
  | .isIn input list negated =>
    .tagged "in"
      (.object [("expr", toJson input), ("list", .array (listToJson list)),
        ("negated", .bool negated)])
  | .isNull input negated =>
    .tagged "is_null" (.object [("expr", toJson input), ("negated", .bool negated)])
  | .like input pattern escape negated =>
    .tagged "like"
      (.object [("expr", toJson input), ("pattern", toJson pattern),
        ("escape", .ofOption (fun c => .string (String.ofList [c])) escape),
        ("negated", .bool negated)])
  | .call name args =>
    .tagged "function" (.object [("name", .string name), ("args", .array (listToJson args))])
  | .aggregate function none distinct =>
    .tagged "aggregate"
      (.object [("function", .string function.name), ("arg", .null), ("distinct", .bool distinct)])
  | .aggregate function (some arg) distinct =>
    .tagged "aggregate"
      (.object [("function", .string function.name), ("arg", toJson arg),
        ("distinct", .bool distinct)])

def listToJson : List Expression → List Json
  | [] => []
  | e :: es => toJson e :: listToJson es

end

def ofJsonWithin? : Nat → Json → Option Expression
  | 0, _ => none
  | fuel + 1, j =>
    match j.variant? with
    | some ("column", some p) => (ColumnRef.ofJson? p).map .column
    | some ("literal", some p) => (Value.ofJson? p).map .literal
    | some ("comparison", some p) =>
      match p.record? ["op", "left", "right"] with
      | some [op, left, right] => do
        let op ← required ComparisonOp.ofJson? op
        let left ← required (ofJsonWithin? fuel) left
        let right ← required (ofJsonWithin? fuel) right
        return .comparison op left right
      | _ => none
    | some ("and", some p) => (p.list? (ofJsonWithin? fuel)).map .and
    | some ("or", some p) => (p.list? (ofJsonWithin? fuel)).map .or
    | some ("not", some p) => (ofJsonWithin? fuel p).map .not
    | some ("in", some p) =>
      match p.record? ["expr", "list", "negated"] with
      | some [input, list, negated] => do
        let input ← required (ofJsonWithin? fuel) input
        let list ← required (list? (ofJsonWithin? fuel)) list
        let negated ← defaulted false bool? negated
        return .isIn input list negated
      | _ => none
    | some ("is_null", some p) =>
      match p.record? ["expr", "negated"] with
      | some [input, negated] => do
        let input ← required (ofJsonWithin? fuel) input
        let negated ← defaulted false bool? negated
        return .isNull input negated
      | _ => none
    | some ("like", some p) =>
      match p.record? ["expr", "pattern", "escape", "negated"] with
      | some [input, pattern, escape, negated] => do
        let input ← required (ofJsonWithin? fuel) input
        let pattern ← required (ofJsonWithin? fuel) pattern
        let escape ← defaulted none (option? char?) escape
        let negated ← defaulted false bool? negated
        return .like input pattern escape negated
      | _ => none
    | some ("function", some p) =>
      match p.record? ["name", "args"] with
      | some [name, args] => do
        let name ← required string? name
        let args ← required (list? (ofJsonWithin? fuel)) args
        return .call name args
      | _ => none
    | some ("aggregate", some p) =>
      match p.record? ["function", "arg", "distinct"] with
      | some [function, arg, distinct] => do
        let function ← required AggregateFunction.ofJson? function
        let arg ← defaulted none (option? (ofJsonWithin? fuel)) arg
        let distinct ← defaulted false bool? distinct
        return .aggregate function arg distinct
      | _ => none
    | _ => none

def ofJson? (j : Json) : Option Expression := ofJsonWithin? (j.depth + 1) j

end Expression

namespace SelectItem

def toJson (item : SelectItem) : Json :=
  .object [("expr", item.expr.toJson), ("alias", .ofOption .string item.label)]

def ofJson? (j : Json) : Option SelectItem :=
  match j.record? ["expr", "alias"] with
  | some [expr, label] => do
    let expr ← required Expression.ofJson? expr
    let label ← defaulted none (option? string?) label
    return { expr, label }
  | _ => none

end SelectItem

namespace TableRef

def toJson (t : TableRef) : Json :=
  .object [("name", .string t.name), ("alias", .ofOption .string t.label)]

def ofJson? (j : Json) : Option TableRef :=
  match j.record? ["name", "alias"] with
  | some [name, label] => do
    let name ← required string? name
    let label ← defaulted none (option? string?) label
    return { name, label }
  | _ => none

end TableRef

namespace JoinType

def name : JoinType → String
  | .inner => "inner"
  | .leftOuter => "left_outer"
  | .rightOuter => "right_outer"
  | .fullOuter => "full_outer"
  | .cross => "cross"

def ofJson? : Json → Option JoinType :=
  named? name [.inner, .leftOuter, .rightOuter, .fullOuter, .cross]

end JoinType

namespace Join

def toJson (j : Join) : Json :=
  .object [("join_type", .string j.joinType.name), ("table", j.table.toJson),
    ("condition", .ofOption Expression.toJson j.condition)]

def ofJson? (j : Json) : Option Join :=
  match j.record? ["join_type", "table", "condition"] with
  | some [joinType, table, condition] => do
    let joinType ← required JoinType.ofJson? joinType
    let table ← required TableRef.ofJson? table
    let condition ← defaulted none (option? Expression.ofJson?) condition
    return { joinType, table, condition }
  | _ => none

end Join

namespace FromClause

def toJson (f : FromClause) : Json :=
  .object [("base", f.base.toJson), ("joins", .array (f.joins.map Join.toJson))]

def ofJson? (j : Json) : Option FromClause :=
  match j.record? ["base", "joins"] with
  | some [base, joins] => do
    let base ← required TableRef.ofJson? base
    let joins ← defaulted [] (list? Join.ofJson?) joins
    return { base, joins }
  | _ => none

end FromClause

namespace SortItem

def toJson (s : SortItem) : Json :=
  .object [("expr", s.expr.toJson), ("ascending", .bool s.ascending)]

def ofJson? (j : Json) : Option SortItem :=
  match j.record? ["expr", "ascending"] with
  | some [expr, ascending] => do
    let expr ← required Expression.ofJson? expr
    let ascending ← defaulted true bool? ascending
    return { expr, ascending }
  | _ => none

end SortItem

namespace Select

def rowCount? (j : Json) : Option UInt64 :=
  (j.intWithin? 0 18446744073709551615).map fun n => UInt64.ofNat n.toNat

def toJson (s : Select) : Json :=
  .object [("distinct", .bool s.distinct), ("columns", .array (s.columns.map SelectItem.toJson)),
    ("from", s.source.toJson), ("filter", .ofOption Expression.toJson s.filter),
    ("group_by", .array (Expression.listToJson s.groupBy)),
    ("having", .ofOption Expression.toJson s.having),
    ("order_by", .array (s.orderBy.map SortItem.toJson)),
    ("limit", .ofOption (fun n : UInt64 => .ofInt n.toNat) s.limit),
    ("offset", .ofOption (fun n : UInt64 => .ofInt n.toNat) s.offset)]

def ofJson? (j : Json) : Option Select :=
  match
    j.record? ["distinct", "columns", "from", "filter", "group_by", "having", "order_by", "limit",
      "offset"]
  with
  | some [distinct, columns, source, filter, groupBy, having, orderBy, limit, offset] => do
    let distinct ← defaulted false bool? distinct
    let columns ← required (list? SelectItem.ofJson?) columns
    let source ← required FromClause.ofJson? source
    let filter ← defaulted none (option? Expression.ofJson?) filter
    let groupBy ← defaulted [] (list? Expression.ofJson?) groupBy
    let having ← defaulted none (option? Expression.ofJson?) having
    let orderBy ← defaulted [] (list? SortItem.ofJson?) orderBy
    let limit ← defaulted none (option? rowCount?) limit
    let offset ← defaulted none (option? rowCount?) offset
    return { distinct, columns, source, filter, groupBy, having, orderBy, limit, offset }
  | _ => none

end Select

namespace Insert

def toJson (i : Insert) : Json :=
  .object [("table", .string i.table), ("columns", .ofStrings i.columns),
    ("rows", .array (i.rows.map fun row => .array (Expression.listToJson row)))]

def ofJson? (j : Json) : Option Insert :=
  match j.record? ["table", "columns", "rows"] with
  | some [table, columns, rows] => do
    let table ← required string? table
    let columns ← required (list? string?) columns
    let rows ← required (list? (list? Expression.ofJson?)) rows
    return { table, columns, rows }
  | _ => none

end Insert

namespace Assignment

def toJson (a : Assignment) : Json :=
  .object [("column", .string a.column), ("value", a.value.toJson)]

def ofJson? (j : Json) : Option Assignment :=
  match j.record? ["column", "value"] with
  | some [column, value] => do
    let column ← required string? column
    let value ← required Expression.ofJson? value
    return { column, value }
  | _ => none

end Assignment

namespace Update

def toJson (u : Update) : Json :=
  .object [("table", .string u.table),
    ("assignments", .array (u.assignments.map Assignment.toJson)),
    ("filter", .ofOption Expression.toJson u.filter)]

def ofJson? (j : Json) : Option Update :=
  match j.record? ["table", "assignments", "filter"] with
  | some [table, assignments, filter] => do
    let table ← required string? table
    let assignments ← required (list? Assignment.ofJson?) assignments
    let filter ← defaulted none (option? Expression.ofJson?) filter
    return { table, assignments, filter }
  | _ => none

end Update

namespace Delete

def toJson (d : Delete) : Json :=
  .object [("table", .string d.table), ("filter", .ofOption Expression.toJson d.filter)]

def ofJson? (j : Json) : Option Delete :=
  match j.record? ["table", "filter"] with
  | some [table, filter] => do
    let table ← required string? table
    let filter ← defaulted none (option? Expression.ofJson?) filter
    return { table, filter }
  | _ => none

end Delete

namespace Command

def toJson : Command → Json
  | .select s => .tagged "select" s.toJson
  | .insert i => .tagged "insert" i.toJson
  | .update u => .tagged "update" u.toJson
  | .delete d => .tagged "delete" d.toJson

def ofJson? (j : Json) : Option Command :=
  match j.variant? with
  | some ("select", some p) => (Select.ofJson? p).map .select
  | some ("insert", some p) => (Insert.ofJson? p).map .insert
  | some ("update", some p) => (Update.ofJson? p).map .update
  | some ("delete", some p) => (Delete.ofJson? p).map .delete
  | _ => none

end Command

namespace Column

def toJson (c : Column) : Json :=
  .object [("name", .string c.name), ("type", c.type.toJson),
    ("auto_generated", .bool c.autoGenerated)]

def ofJson? (j : Json) : Option Column :=
  match j.record? ["name", "type", "auto_generated"] with
  | some [name, type, autoGenerated] => do
    let name ← required string? name
    let type ← required SqlType.ofJson? type
    let autoGenerated ← defaulted false bool? autoGenerated
    return { name, type, autoGenerated }
  | _ => none

end Column

namespace ForeignKey

def toJson (fk : ForeignKey) : Json :=
  .object [("name", .string fk.name), ("columns", .ofStrings fk.columns),
    ("referenced_table", .string fk.referencedTable),
    ("referenced_columns", .ofStrings fk.referencedColumns)]

def ofJson? (j : Json) : Option ForeignKey :=
  match j.record? ["name", "columns", "referenced_table", "referenced_columns"] with
  | some [name, columns, referencedTable, referencedColumns] => do
    let name ← required string? name
    let columns ← required (list? string?) columns
    let referencedTable ← required string? referencedTable
    let referencedColumns ← defaulted [] (list? string?) referencedColumns
    return { name, columns, referencedTable, referencedColumns }
  | _ => none

end ForeignKey

namespace TableProperties

def toJson (p : TableProperties) : Json :=
  .object [("merge_into", .ofOption .string p.mergeInto), ("embeddable", .bool p.embeddable),
    ("embeddable_into", .ofOption .string p.embeddableInto)]

def ofJson? (j : Json) : Option TableProperties :=
  match j.record? ["merge_into", "embeddable", "embeddable_into"] with
  | some [mergeInto, embeddable, embeddableInto] => do
    let mergeInto ← defaulted none (option? string?) mergeInto
    let embeddable ← defaulted false bool? embeddable
    let embeddableInto ← defaulted none (option? string?) embeddableInto
    return { mergeInto, embeddable, embeddableInto }
  | _ => none

end TableProperties

namespace Table

def toJson (t : Table) : Json :=
  .object [("name", .string t.name), ("columns", .array (t.columns.map Column.toJson)),
    ("primary_key", .ofStrings t.primaryKey),
    ("foreign_keys", .array (t.foreignKeys.map ForeignKey.toJson)),
    ("properties", t.properties.toJson)]

def ofJson? (j : Json) : Option Table :=
  match j.record? ["name", "columns", "primary_key", "foreign_keys", "properties"] with
  | some [name, columns, primaryKey, foreignKeys, properties] => do
    let name ← required string? name
    let columns ← required (list? Column.ofJson?) columns
    let primaryKey ← defaulted [] (list? string?) primaryKey
    let foreignKeys ← defaulted [] (list? ForeignKey.ofJson?) foreignKeys
    let properties ← defaulted {} TableProperties.ofJson? properties
    return { name, columns, primaryKey, foreignKeys, properties }
  | _ => none

end Table

def Catalog.ofJson? (j : Json) : Option Catalog :=
  match j.record? ["tables"] with
  | some [tables] => (required (list? Table.ofJson?) tables).map Catalog.ofTables
  | _ => none

namespace Options

def toJson (o : Options) : Json :=
  .object [("supports_literal_expression", .bool o.literalExpressions),
    ("null_guard_date_functions", .bool o.guardDateFunctions),
    ("pull_fast_path", .bool o.pullFastPath), ("propagate_copies", .bool o.propagateCopies),
    ("large_object_collection", .string o.largeObjectCollection)]

def ofJson? (j : Json) : Option Options :=
  match
    j.record? ["supports_literal_expression", "null_guard_date_functions", "pull_fast_path",
      "propagate_copies", "large_object_collection"]
  with
  | some [literalExpressions, guardDateFunctions, pullFastPath, propagateCopies,
      largeObjectCollection] => do
    let literalExpressions ← defaulted true bool? literalExpressions
    let guardDateFunctions ← defaulted true bool? guardDateFunctions
    let pullFastPath ← defaulted true bool? pullFastPath
    let propagateCopies ← defaulted true bool? propagateCopies
    let largeObjectCollection ← defaulted "__lobs" string? largeObjectCollection
    return { literalExpressions, guardDateFunctions, pullFastPath, propagateCopies,
             largeObjectCollection }
  | _ => none

end Options

end Pushdown
