import Pushdown.Sql.Expression

/-!
# Commands

The four relational commands. Their texts are written by `Pushdown.Sql.Printer`, their JSON form is
in `Pushdown.Sql.Codec`.
-/

namespace Pushdown

structure SelectItem where
  expr : Expression
  /-- The alias given to it. -/
  label : Option String

structure TableRef where
  name : String
  /-- The alias given to it. -/
  label : Option String
deriving DecidableEq

/-- The name by which columns refer to the table: its alias, if it has one. -/
def TableRef.referenceName (t : TableRef) : String := t.label.getD t.name

inductive JoinType where
  | inner
  | leftOuter
  | rightOuter
  | fullOuter
  | cross
deriving DecidableEq

structure Join where
  joinType : JoinType
  table : TableRef
  condition : Option Expression

structure FromClause where
  base : TableRef
  joins : List Join

structure SortItem where
  expr : Expression
  ascending : Bool

structure Select where
  distinct : Bool := false
  columns : List SelectItem
  source : FromClause
  filter : Option Expression := none
  groupBy : List Expression := []
  having : Option Expression := none
  orderBy : List SortItem := []
  limit : Option UInt64 := none
  offset : Option UInt64 := none

structure Insert where
  table : String
  columns : List String
  rows : List (List Expression)

structure Assignment where
  column : String
  value : Expression

structure Update where
  table : String
  assignments : List Assignment
  filter : Option Expression := none

structure Delete where
  table : String
  filter : Option Expression := none

inductive Command where
  | select (select : Select)
  | insert (insert : Insert)
  | update (update : Update)
  | delete (delete : Delete)

end Pushdown
