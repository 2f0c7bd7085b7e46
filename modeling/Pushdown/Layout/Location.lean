import Pushdown.Layout.Build

/-!
# Column locations

Where the value of a column lies below a top-level document. A column that links a merged row to the
row that holds it is read from that row, and the key of a copy from the columns that refer to it,
since neither is stored twice.
-/

namespace Pushdown

/-- A field of the row that lies `depth` hops below the top-level document. -/
structure Location where
  depth : Nat
  field : String
deriving DecidableEq

def Location.path (l : Location) (hops : List Hop) : String :=
  Path.extend (Hop.path (hops.take l.depth)) l.field

namespace Catalog

/-- The column of `columns` that stands where `column` stands in `partners`. -/
def counterpart? (partners columns : List String) (column : String) : Option String :=
  (partners.findIdx? (Text.same · column)).bind (columns[·]?)

def spelledColumn (c : Catalog) (table column : String) : Except LayoutError String := do
  let t ← c.table table
  match t.column? column with
  | some col => return col.name
  | none => throw (.unknownColumn table column)

/-- Locates a column of the table reached by hops that are given from the last to the first, or of
`top` when there are none. -/
def locateUp (c : Catalog) (top : String) : List Hop → String → Except LayoutError Location
  | [], column => do
    let l ← c.layout top
    let column ← c.spelledColumn top column
    return { depth := 0, field := (l.idField? [] column).getD column }
  | h :: above, column => do
    let l ← c.layout h.link.child
    let column ← c.spelledColumn h.link.child column
    match h.kind with
    | .merge =>
      match counterpart? h.link.columns h.link.referencedColumns column with
      | some referenced => locateUp c top above referenced
      | none =>
        return { depth := above.length + 1
                 field := (l.idField? h.link.columns column).getD column }
    | .embed =>
      match counterpart? h.link.referencedColumns h.link.columns column with
      | some referring => locateUp c top above referring
      | none => return { depth := above.length + 1, field := column }

def locate (c : Catalog) (top : String) (hops : List Hop) (column : String) : Except LayoutError Location :=
  c.locateUp top hops.reverse column

end Catalog

end Pushdown
