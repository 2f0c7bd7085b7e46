import Pushdown.Layout.Basic
import Pushdown.Layout.Error

/-!
# Building layouts

The layout of a table is read off the catalog. A table that is merged into another needs the layout
of that one first, so that a chain of merges that comes back to a table under construction is
refused.
-/

namespace Pushdown

namespace Catalog

def table (c : Catalog) (name : String) : Except LayoutError Table :=
  match c.table? name with
  | some t => .ok t
  | none => .error (.unknownTable name)

/-- A foreign key of `t`, with its columns checked and the referenced ones spelled out. -/
def reference (c : Catalog) (t : Table) (fk : ForeignKey) : Except LayoutError Reference := do
  let target ← c.table fk.referencedTable
  match fk.columns.find? fun name => (t.column? name).isNone with
  | some column => throw (.unknownColumn t.name column)
  | none =>
    let referenced :=
      if fk.referencedColumns.isEmpty then target.primaryKey else fk.referencedColumns
    if referenced.length = fk.columns.length then
      return { name := fk.name, table := t.name, columns := fk.columns
               referencedTable := target.name, referencedColumns := referenced }
    else
      throw (.keyColumnMismatch t.name fk.name fk.columns.length referenced.length)

def sameColumns (as bs : List String) : Bool :=
  as.length == bs.length && as.all fun a => Text.hasName bs a

/-- The foreign keys of other tables that may call for a copy of `t`'s rows. The rows of a table
merged into `t` hold none: they lie inside the row already. -/
def copyCandidates (c : Catalog) (t : Table) : List (Table × ForeignKey) :=
  (c.tables.filter fun other =>
    !Text.same other.name t.name && t.properties.embedsInto other.name &&
      !other.properties.mergesInto t.name).flatMap
    fun other => (other.foreignKeysTo t.name).map fun fk => (other, fk)

/-- Adds the copy target that a foreign key calls for, if it refers to the primary key. -/
def addCopyTarget (c : Catalog) (t : Table) (targets : List Link) (key : Table × ForeignKey) :
    Except LayoutError (List Link) := do
  let ref ← c.reference key.1 key.2
  if !sameColumns ref.referencedColumns t.primaryKey then
    return targets
  else if targets.any fun l => Text.same l.parent key.1.name then
    throw (.ambiguousReachability key.1.name t.name)
  else
    return targets ++
      [{ name := key.2.name, parent := key.1.name, child := t.name, columns := ref.columns
         referencedColumns := ref.referencedColumns, association := .one, readAs := none }]

def copyTargets (c : Catalog) (t : Table) : Except LayoutError (List Link) :=
  (c.copyCandidates t).foldlM (c.addCopyTarget t) []

/-- Follows the foreign keys of `holder` along which copies are kept, until one leads to `goal`.
`visit` searches on from another table. -/
def searchKeys (c : Catalog) (goal : String) (holder : Table)
    (visit : String → List String → Except LayoutError (Bool × List String)) :
    List ForeignKey → List String → Except LayoutError (Bool × List String)
  | [], visited => .ok (false, visited)
  | fk :: fks, visited => do
    let target ← c.table fk.referencedTable
    if !target.properties.embedsInto holder.name then
      searchKeys c goal holder visit fks visited
    else if Text.same target.name goal then
      return (true, visited)
    else
      let (found, visited) ← visit target.name visited
      if found then
        return (true, visited)
      else
        searchKeys c goal holder visit fks visited

/-- Whether copies of `goal` are kept, at some depth, in the rows of the named table. No table is
searched twice, so that a search nested deeper than the catalog has tables does not occur. -/
def embedSearch (c : Catalog) (goal : String) : Nat → String → List String → Except LayoutError (Bool × List String)
  | 0, _, visited => .ok (false, visited)
  | fuel + 1, name, visited =>
    if visited.contains (Text.lower name) then
      .ok (false, visited)
    else do
      let t ← c.table name
      searchKeys c goal t (embedSearch c goal fuel) t.foreignKeys (Text.lower name :: visited)

def embedChainReaches (c : Catalog) (name goal : String) : Except LayoutError Bool :=
  (·.1) <$> c.embedSearch goal (c.entries.length + 1) name []

/-- Adds the link to the embeddable table that a reference calls for, if it calls for one. -/
def addEmbeddedKey (c : Catalog) (t : Table) (copies keys : List Link) (ref : Reference) :
    Except LayoutError (List Link) := do
  let target ← c.table ref.referencedTable
  if !target.properties.embedsInto t.name || t.properties.mergesInto target.name then
    return keys
  else if keys.any fun l => Text.same l.child target.name then
    throw (.ambiguousReachability t.name target.name)
  else if copies.any fun l => Text.same l.parent target.name then
    throw (.embedCopyConflict t.name target.name)
  else if ← c.embedChainReaches target.name t.name then
    throw (.cyclic t.name)
  else
    return keys ++
      [{ name := ref.name, parent := t.name, child := target.name, columns := ref.columns
         referencedColumns := ref.referencedColumns, association := .one, readAs := none }]

/-- The link by which rows of `t` are held by those of `parent`. A row holds one when the parent
refers back or when the key that links them identifies the row. -/
def mergeKey (t : Table) (references : List Reference) (parent : TableLayout) : Except LayoutError Link :=
  match references.filter fun r => Text.same r.referencedTable parent.table with
  | [] => .error (.missingMergeKey t.name parent.table)
  | [ref] =>
    let refersBack := parent.references.any fun r => Text.same r.referencedTable t.name
    .ok
      { name := ref.name, parent := parent.table, child := t.name, columns := ref.columns
        referencedColumns := ref.referencedColumns
        association := if refersBack || sameColumns ref.columns t.primaryKey then .one else .many
        readAs := none }
  | _ :: _ :: _ => .error (.ambiguousMergeKey t.name parent.table)

def mergedChildren (c : Catalog) (t : Table) : List String :=
  (c.tables.filter fun other => other.properties.mergesInto t.name).map (·.name)

def outline (c : Catalog) (t : Table) : Except LayoutError TableLayout := do
  if t.properties.mergeInto.isSome && t.properties.isEmbeddable then
    throw (.mergedAndEmbeddable t.name)
  let references ← t.foreignKeys.mapM (c.reference t)
  let copies ← if t.properties.isEmbeddable then c.copyTargets t else pure []
  let keys ← references.foldlM (c.addEmbeddedKey t copies) []
  return { table := t.name, primaryKey := t.primaryKey
           role := if t.properties.isEmbeddable then .embeddable else .root
           embeddedKeys := keys, copyTargets := copies, references := references
           mergedChildren := c.mergedChildren t }

/-- The layout of a table with outline `own` below `parent`, or of a table that is merged into no
other. -/
def placeBelow (t : Table) (own : TableLayout) : Option Layout → Except LayoutError Layout
  | none => .ok { own with ancestors := [] }
  | some parent => do
    let key ← mergeKey t own.references parent.toTableLayout
    return { own with role := .merged key, ancestors := parent.chain }

/-- The layout of the named table, while those in `building` (in lower case) are under construction.
Every step up a chain of merges adds a table of the catalog to these, so that `fuel` of more than
their number is never used up. -/
def layoutWithin (c : Catalog) : Nat → List String → String → Except LayoutError Layout
  | 0, _, name => .error (.cyclic name)
  | fuel + 1, building, name =>
    if building.contains (Text.lower name) then
      .error (.cyclic name)
    else do
      let t ← c.table name
      let own ← c.outline t
      match t.properties.mergeInto with
      | none => placeBelow t own none
      | some parentName =>
        let parent ← layoutWithin c fuel (Text.lower name :: building) parentName
        placeBelow t own (some parent)

def layout (c : Catalog) (name : String) : Except LayoutError Layout :=
  c.layoutWithin (c.entries.length + 1) [] name

end Catalog

end Pushdown
