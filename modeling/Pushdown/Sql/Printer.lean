import Pushdown.Sql.Command
import Pushdown.Text.Case

/-!
# SQL texts

Commands and expressions as SQL. The text of an expression also serves as its *fingerprint*, by
which a query knows an expression it has met before.
-/

namespace Pushdown

namespace Sql

/-- Letters, digits and low lines, without a digit in front: such a name needs no quotes. -/
def isRegular (name : String) : Bool :=
  match name.toList with
  | [] => false
  | c :: cs => (c.isAlpha || c == '_') && cs.all fun c => c.isAlphanum || c == '_'

def identifier (name : String) : String :=
  if isRegular name then name else Text.quoted '\x60' name

end Sql

open Sql

def ComparisonOp.sql : ComparisonOp → String
  | .eq => "="
  | .neq => "<>"
  | .lt => "<"
  | .lte => "<="
  | .gt => ">"
  | .gte => ">="

def AggregateFunction.sql : AggregateFunction → String
  | .count => "COUNT"
  | .sum => "SUM"
  | .avg => "AVG"
  | .min => "MIN"
  | .max => "MAX"

def ColumnRef.sql (c : ColumnRef) : String :=
  if c.table.isEmpty then identifier c.column else identifier c.table ++ "." ++ identifier c.column

namespace Expression

mutual

def sql : Expression → String
  | .column ref => ref.sql
  | .literal value => value.literal
  | .comparison op left right => "(" ++ sql left ++ " " ++ op.sql ++ " " ++ sql right ++ ")"
  | .and terms => "(" ++ sqlJoined " AND " terms ++ ")"
  | .or terms => "(" ++ sqlJoined " OR " terms ++ ")"
  | .not term => "NOT " ++ sql term
  | .isIn input list negated =>
    "(" ++ sql input ++ (if negated then " NOT" else "") ++ " IN (" ++ sqlJoined ", " list ++ "))"
  | .isNull input negated =>
    "(" ++ sql input ++ " IS" ++ (if negated then " NOT" else "") ++ " NULL)"
  | .like input pattern escape negated =>
    "(" ++ sql input ++ (if negated then " NOT" else "") ++ " LIKE " ++ sql pattern ++
      (match escape with
        | some c => " ESCAPE '" ++ String.ofList [c] ++ "'"
        | none => "") ++ ")"
  | .call name args => Text.upper name ++ "(" ++ sqlJoined ", " args ++ ")"
  | .aggregate function none distinct =>
    function.sql ++ "(" ++ (if distinct then "DISTINCT " else "") ++ "*)"
  | .aggregate function (some arg) distinct =>
    function.sql ++ "(" ++ (if distinct then "DISTINCT " else "") ++ sql arg ++ ")"

def sqlJoined (separator : String) : List Expression → String
  | [] => ""
  | [e] => sql e
  | e :: es => sql e ++ separator ++ sqlJoined separator es

end

end Expression

def Sql.clause {α : Type} (keyword : String) (f : α → String) : Option α → String
  | some a => keyword ++ f a
  | none => ""

def Sql.listClause {α : Type} (keyword : String) (f : α → String) (items : List α) : String :=
  if items.isEmpty then "" else keyword ++ ", ".intercalate (items.map f)

def SelectItem.sql (item : SelectItem) : String :=
  item.expr.sql ++ clause " AS " identifier item.label

def TableRef.sql (t : TableRef) : String :=
  identifier t.name ++ clause " AS " identifier t.label

def JoinType.sql : JoinType → String
  | .inner => "INNER JOIN"
  | .leftOuter => "LEFT OUTER JOIN"
  | .rightOuter => "RIGHT OUTER JOIN"
  | .fullOuter => "FULL OUTER JOIN"
  | .cross => "CROSS JOIN"

def Join.sql (j : Join) : String :=
  j.joinType.sql ++ " " ++ j.table.sql ++ clause " ON " Expression.sql j.condition

def FromClause.sql (f : FromClause) : String :=
  f.base.sql ++ String.join (f.joins.map fun j => " " ++ j.sql)

def SortItem.sql (s : SortItem) : String := s.expr.sql ++ (if s.ascending then " ASC" else " DESC")

def Select.sql (s : Select) : String :=
  "SELECT" ++ (if s.distinct then " DISTINCT" else "") ++ " " ++
    ", ".intercalate (s.columns.map SelectItem.sql) ++ " FROM " ++ s.source.sql ++
    clause " WHERE " Expression.sql s.filter ++ listClause " GROUP BY " Expression.sql s.groupBy ++
    clause " HAVING " Expression.sql s.having ++ listClause " ORDER BY " SortItem.sql s.orderBy ++
    clause " LIMIT " (fun n : UInt64 => toString n.toNat) s.limit ++
    clause " OFFSET " (fun n : UInt64 => toString n.toNat) s.offset

def Insert.sql (i : Insert) : String :=
  "INSERT INTO " ++ identifier i.table ++ " (" ++ ", ".intercalate (i.columns.map identifier) ++
    ") VALUES " ++
    ", ".intercalate (i.rows.map fun row => "(" ++ Expression.sqlJoined ", " row ++ ")")

def Assignment.sql (a : Assignment) : String := identifier a.column ++ " = " ++ a.value.sql

def Update.sql (u : Update) : String :=
  "UPDATE " ++ identifier u.table ++ " SET " ++
    ", ".intercalate (u.assignments.map Assignment.sql) ++
    clause " WHERE " Expression.sql u.filter

def Delete.sql (d : Delete) : String :=
  "DELETE FROM " ++ identifier d.table ++ clause " WHERE " Expression.sql d.filter

def Command.sql : Command → String
  | .select s => s.sql
  | .insert i => i.sql
  | .update u => u.sql
  | .delete d => d.sql

end Pushdown
