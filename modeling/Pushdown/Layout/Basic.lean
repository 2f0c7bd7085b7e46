import Pushdown.Catalog
import Pushdown.Path

/-!
# Layouts

How the rows of a table lie in documents. A table is the root of its own collection, is merged into
the documents of another table, or is embeddable: the root of a collection whose rows are also
copied into the documents that refer to them. A *link* relates a table whose documents hold rows to
the table whose rows (or copies) they hold, and a *hop* is one step along a link, downwards.
-/

namespace Pushdown

inductive Association where
  | one
  | many
deriving DecidableEq

structure Link where
  name : String
  /-- The table whose documents hold the rows. -/
  parent : String
  /-- The table whose rows are held, under a field of its name. -/
  child : String
  /-- The columns of the foreign key, on the referring side. -/
  columns : List String
  /-- The referenced columns, in the order of `columns`. -/
  referencedColumns : List String
  association : Association
  /-- A top-level field under which the rows are read instead. -/
  readAs : Option String := none
deriving DecidableEq

/-- A foreign key, with the columns it refers to spelled out. -/
structure Reference where
  name : String
  table : String
  columns : List String
  referencedTable : String
  referencedColumns : List String
deriving DecidableEq

inductive HopKind where
  | merge
  | embed
deriving DecidableEq

structure Hop where
  kind : HopKind
  link : Link
deriving DecidableEq

namespace Hop

def field (h : Hop) : String := h.link.child

def isArray (h : Hop) : Bool := h.link.association == .many

def aliased (h : Hop) (name : String) : Hop :=
  { h with link := { h.link with readAs := some name } }

/-- The names on the way through `hops`. A hop that is read under a top-level field starts anew. -/
def pathNames (hops : List Hop) : List String :=
  hops.foldl
    (fun names h =>
      match h.link.readAs with
      | some name => [name]
      | none => names ++ [h.field])
    []

def path (hops : List Hop) : String := Path.join (pathNames hops)

def fieldPath (hops : List Hop) : String := Path.join (hops.map field)

end Hop

inductive Role where
  | root
  | embeddable
  /-- Rows are held by the documents of another table. -/
  | merged (key : Link)
deriving DecidableEq

structure TableLayout where
  table : String
  primaryKey : List String
  role : Role
  /-- The embeddable tables of which this table's rows hold copies. -/
  embeddedKeys : List Link := []
  /-- The tables whose rows hold copies of this table's rows. -/
  copyTargets : List Link := []
  references : List Reference := []
  /-- The tables merged into this one. -/
  mergedChildren : List String := []
deriving DecidableEq

namespace TableLayout

def mergeKey? (t : TableLayout) : Option Link :=
  match t.role with
  | .merged key => some key
  | _ => none

def isMerged (t : TableLayout) : Bool := t.mergeKey?.isSome

def isEmbeddable (t : TableLayout) : Bool := t.role == .embeddable

/-- The columns that a merged row takes over from the row that holds it. -/
def inheritedColumns (t : TableLayout) : List String := (t.mergeKey?.map (·.columns)).getD []

/-- The columns of the primary key that a row's own `_id` holds: those it does not take over from
the row that holds it. -/
def idColumns (t : TableLayout) : List String :=
  t.primaryKey.filter fun c => !Text.hasName t.inheritedColumns c

/-- The field of a column that is held in `_id`, when `inherited` columns are not. -/
def idField? (t : TableLayout) (inherited : List String) (column : String) : Option String :=
  let ids := t.idColumns
  if Text.hasName inherited column || !Text.hasName ids column then none
  else if ids.length = 1 then some "_id"
  else some (Path.extend "_id" column)

end TableLayout

/-- The layout of a table, with those of the tables it is merged into, the nearest first. -/
structure Layout extends TableLayout where
  ancestors : List TableLayout := []
deriving DecidableEq

namespace Layout

def chain (l : Layout) : List TableLayout := l.toTableLayout :: l.ancestors

def parent? (l : Layout) : Option Layout :=
  match l.ancestors with
  | [] => none
  | p :: above => some { p with ancestors := above }

def collection (l : Layout) : String := ((l.chain.getLast?).map (·.table)).getD l.table

def hops (l : Layout) : List Hop :=
  (l.chain.reverse.filterMap (·.mergeKey?)).map fun key => ⟨.merge, key⟩

def qualifiedName (l : Layout) : String := Hop.fieldPath l.hops

def positionalName (l : Layout) : String :=
  Path.join (l.hops.flatMap fun h => if h.isArray then [h.field, "$[]"] else [h.field])

end Layout

end Pushdown
