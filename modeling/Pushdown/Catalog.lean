import Pushdown.Sql.Type
import Pushdown.Text.Case

/-!
# The catalog

Tables with their columns and keys, and the properties that say how their rows are laid out in
documents. Table names are told apart in lower case; column names ignore the case of ASCII letters.
-/

namespace Pushdown

structure Column where
  name : String
  type : SqlType
  /-- The store assigns the value when an INSERT leaves the column out. -/
  autoGenerated : Bool
deriving DecidableEq

structure ForeignKey where
  name : String
  columns : List String
  referencedTable : String
  /-- When there are none, the key refers to the referenced table's primary key. -/
  referencedColumns : List String
deriving DecidableEq

structure TableProperties where
  /-- The rows live inside the documents of this table. -/
  mergeInto : Option String := none
  /-- Every document that refers to a row holds a copy of it. -/
  embeddable : Bool := false
  /-- The same, for the documents of this table only. -/
  embeddableInto : Option String := none
deriving DecidableEq

namespace TableProperties

def isEmbeddable (p : TableProperties) : Bool := p.embeddable || p.embeddableInto.isSome

def mergesInto (p : TableProperties) (table : String) : Bool :=
  match p.mergeInto with
  | some parent => Text.same parent table
  | none => false

def embedsInto (p : TableProperties) (table : String) : Bool :=
  p.embeddable ||
    match p.embeddableInto with
    | some holder => Text.same holder table
    | none => false

end TableProperties

structure Table where
  name : String
  columns : List Column
  primaryKey : List String
  foreignKeys : List ForeignKey := []
  properties : TableProperties := {}
deriving DecidableEq

namespace Table

def column? (t : Table) (name : String) : Option Column :=
  t.columns.find? fun c => Text.same c.name name

def isPrimaryKeyColumn (t : Table) (name : String) : Bool := Text.hasName t.primaryKey name

def primaryKeyColumns (t : Table) : List Column := t.primaryKey.filterMap t.column?

def generatedKeyColumn? (t : Table) : Option Column :=
  match t.primaryKey with
  | [name] =>
    match t.column? name with
    | some c => if c.autoGenerated then some c else none
    | none => none
  | _ => none

def foreignKeysTo (t : Table) (table : String) : List ForeignKey :=
  t.foreignKeys.filter fun fk => Text.same fk.referencedTable table

end Table

structure Catalog where
  /-- The tables with their names in lower case, in the order of these. -/
  entries : List (String × Table)
deriving DecidableEq

namespace Catalog

def empty : Catalog := ⟨[]⟩

/-- Puts `value` at its place among entries sorted by key, in the place of one with the same key. -/
def insertEntry (key : String) (value : Table) : List (String × Table) → List (String × Table)
  | [] => [(key, value)]
  | (k, v) :: rest =>
    if key = k then (key, value) :: rest
    else if key < k then (key, value) :: (k, v) :: rest
    else (k, v) :: insertEntry key value rest

def insert (c : Catalog) (t : Table) : Catalog := ⟨insertEntry (Text.lower t.name) t c.entries⟩

def ofTables (ts : List Table) : Catalog := ts.foldl insert empty

def tables (c : Catalog) : List Table := c.entries.map (·.2)

def table? (c : Catalog) (name : String) : Option Table := c.entries.lookup (Text.lower name)

end Catalog

end Pushdown
