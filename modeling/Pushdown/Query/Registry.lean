import Pushdown.Bson.Basic
import Pushdown.Path
import Pushdown.Text.Case

/-!
# Values of a query

A query keeps what it knows of every value it meets, under the fingerprint of the expression: how
it is computed, under which names it is given out, and where it is found after grouping.
-/

namespace Pushdown

def Bson.fieldRef (path : String) : Bson := .string ("$" ++ path)

/-- Whether an expression reads the field at `path` and does nothing else. -/
def Bson.isFieldRef (path : String) : Bson → Bool
  | .string s => s == "$" ++ path
  | _ => false

def Path.afterMark (s : String) : String := String.ofList s.toList.tail

structure ColumnDetail where
  /-- The output names of the value, in the order in which they were given. -/
  labels : List String := []
  expression : Bson
  /-- The stored field that holds it, when it is not computed. -/
  fieldPath : Option String
  /-- Where it is found after grouping, when it is a key or an aggregate. -/
  groupedPath : Option String := none

namespace ColumnDetail

/-- The stored field that an expression reads, if it does nothing else. -/
def fieldPathOf : Bson → Option String
  | .string s =>
    match s.toList with
    | '$' :: '$' :: _ => none
    | '$' :: path => some (String.ofList path)
    | _ => none
  | _ => none

def ofExpression (e : Bson) : ColumnDetail := { expression := e, fieldPath := fieldPathOf e }

def withLabel (d : ColumnDetail) (label : String) : ColumnDetail :=
  if Text.hasName d.labels label then d else { d with labels := d.labels ++ [label] }

end ColumnDetail

/-- The values met so far, under their fingerprints, in the order of their first meeting. -/
abbrev Registry := List (String × ColumnDetail)

namespace Registry

def get? (r : Registry) (fingerprint : String) : Option ColumnDetail := List.lookup fingerprint r

def register (r : Registry) (fingerprint : String) (d : ColumnDetail) : Registry :=
  if (r.get? fingerprint).isSome then r else r ++ [(fingerprint, d)]

def modify (r : Registry) (fingerprint : String) (f : ColumnDetail → ColumnDetail) : Registry :=
  r.map fun entry => if entry.1 = fingerprint then (entry.1, f entry.2) else entry

def groupedPath? (r : Registry) (fingerprint : String) : Option String :=
  (r.get? fingerprint).bind (·.groupedPath)

def registerGrouped (r : Registry) (fingerprint : String) (d : ColumnDetail) (path : String) : Registry :=
  (r.register fingerprint d).modify fingerprint fun d => { d with groupedPath := some path }

def addLabel (r : Registry) (fingerprint label : String) : Registry :=
  r.modify fingerprint (·.withLabel label)

def fieldPaths (r : Registry) : List String := r.filterMap (·.2.fieldPath)

end Registry

end Pushdown
