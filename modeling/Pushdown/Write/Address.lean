import Pushdown.Write.Error
import Pushdown.Write.Plan

/-!
# Addresses of nested rows

Nested rows are addressed by paths in which arrays are followed by a mark: for all elements, or for
the elements that a filter on an identifier selects.
-/

namespace Pushdown

structure ParentAddress where
  filter : Document
  /-- The positional path of the row that holds the new one. -/
  path : String
  arrayFilters : List Document

namespace Hop

def lastArray? (hops : List Hop) : Option Nat :=
  (hops.reverse.findIdx? isArray).map fun i => hops.length - 1 - i

/-- The path of a field at `depth` below the elements of the array that is the hop at `array`. -/
def pathInElement (hops : List Hop) (array depth : Nat) (field : String) : String :=
  Path.join (((hops.take depth).drop (array + 1)).map Hop.field ++ [field])

def elementName (i : Nat) : String := "a" ++ toString i

/-- The path through hops, where `mark` stands after the array that is the hop at an index. -/
def markedPath (mark : Nat → Option String) (hops : List Hop) : List String :=
  (hops.zipIdx.map fun (h, i) =>
    if h.isArray then h.field :: (mark i).toList else [h.field]).flatten

def allPositions (hops : List Hop) : String :=
  Path.join (markedPath (fun i => if i + 1 < hops.length then some "$[]" else none) hops)

end Hop

namespace ParentAddress

structure Pin where
  location : Location
  value : Bson

/-- The condition that a pin puts on elements of the array that is the hop at `i`. -/
def condition? (hops : List Hop) (i : Nat) (pin : Pin) : Option (String × Bson) :=
  match Hop.lastArray? (hops.take pin.location.depth) with
  | some array =>
    if array = i then
      some (Hop.elementName i ++ "." ++
        Hop.pathInElement hops i pin.location.depth pin.location.field, pin.value)
    else
      none
  | none => none

def conditions (hops : List Hop) (pins : List Pin) (i : Nat) : Document :=
  Document.ofFields (pins.filterMap (condition? hops i))

/-- The address of the rows that the pins are about. Every array on the way is followed by an
identifier when some pin says which of its elements are meant. -/
def ofPins (hops : List Hop) (pins : List Pin) : ParentAddress :=
  { filter := Document.ofFields (pins.map fun p => (p.location.path hops, p.value))
    path := Path.join (Hop.markedPath
      (fun i =>
        some (if (conditions hops pins i).isEmpty then "$[]"
          else "$[" ++ Hop.elementName i ++ "]"))
      hops)
    arrayFilters := ((List.range hops.length).map (conditions hops pins)).filter (!·.isEmpty) }

end ParentAddress

namespace Catalog

def locateParent (c : Catalog) (top : String) (hops : List Hop) (key : List (String × Bson)) :
    Except WriteError ParentAddress := do
  let pins ← key.mapM fun (column, value) => do
    let l ← (c.locate top hops column).mapError WriteError.layout
    return (⟨l, value⟩ : ParentAddress.Pin)
  return ParentAddress.ofPins hops pins

def referringLocation (c : Catalog) (l : Layout) (target : Link) (top : String) (hops : List Hop)
    (keyColumn : String) : Except WriteError Location :=
  match counterpart? target.referencedColumns target.columns keyColumn with
  | none =>
    .error (.unsupported
      s!"copy of '{l.table}' in '{target.parent}' not keyed by its primary key")
  | some column => do
    let location ← (c.locate top hops column).mapError WriteError.layout
    match Hop.lastArray? hops with
    | some array =>
      if location.depth ≤ array then
        throw (.unsupported s!"copy of '{l.table}' in '{target.parent}' is keyed above its array")
      else
        return location
    | none => return location

/-- How the copies are changed that one table holds of the rows of another. -/
def copyPatch (c : Catalog) (l : Layout) (change : CopyChange) (target : Link) : Except WriteError CopyPatch := do
  let holder ← (c.layout target.parent).mapError WriteError.layout
  let hops := holder.hops
  let array := Hop.lastArray? hops
  let locations ← l.primaryKey.mapM (c.referringLocation l target holder.collection hops)
  return {
    collection := holder.collection
    keyPaths := locations.map (·.path hops)
    copyPath := Path.join
      (Hop.markedPath (fun i => some (if array = some i then "$[c]" else "$[]")) hops
        ++ [target.child])
    arrayFilter := array.map fun array =>
      ("c", locations.map fun x => Hop.pathInElement hops array x.depth x.field)
    change := change }

def copyPatches (c : Catalog) (l : Layout) (change : CopyChange) : Except WriteError (List CopyPatch) :=
  l.copyTargets.mapM (c.copyPatch l change)

end Catalog

end Pushdown
