import Pushdown.Layout.Build

/-!
# Routes

The ways from a document down to the rows of another table: along merges to the tables merged into
it and along embeds to the copies it holds.
-/

namespace Pushdown

namespace Catalog

def nextHops (c : Catalog) (l : Layout) : Except LayoutError (List Hop) := do
  let children ← l.mergedChildren.mapM c.layout
  return (children.filterMap (·.mergeKey?)).map (⟨.merge, ·⟩) ++ l.embeddedKeys.map (⟨.embed, ·⟩)

/-- The routes of at most `fuel` hops from the documents of the named table to `target`, none of
which passes through `target`. -/
def routesWithin (c : Catalog) (target : String) : Nat → String → Except LayoutError (List (List Hop))
  | 0, _ => .ok []
  | fuel + 1, name => do
    let l ← c.layout name
    let hops ← c.nextHops l
    let found ← hops.mapM fun h =>
      if Text.same h.link.child target then
        pure [[h]]
      else do
        let below ← routesWithin c target fuel h.link.child
        return below.map (h :: ·)
    return found.flatten

/-- The routes from the documents of the named table to `target`. A route that visits no table twice
has fewer hops than the catalog has tables. -/
def routes (c : Catalog) (name target : String) : Except LayoutError (List (List Hop)) :=
  c.routesWithin target (c.entries.length + 1) name

/-- Whether the rows of `other` lie, at some depth, in those of `name` by merges alone. -/
def merges (c : Catalog) (name other : String) : Except LayoutError Bool := do
  let l ← c.layout other
  return l.ancestors.any fun a => Text.same a.table name

def embeds (c : Catalog) (name other : String) : Except LayoutError Bool := do
  let found ← c.routes name other
  return found.any fun route => route.any fun h => h.kind == .embed

def contains (c : Catalog) (name other : String) : Except LayoutError Bool := do
  let found ← c.routes name other
  return !found.isEmpty

def route? (c : Catalog) (name target : String) : Except LayoutError (Option (List Hop)) := do
  match ← c.routes name target with
  | [] => return none
  | [route] => return some route
  | _ => throw (.ambiguousReachability name target)

end Catalog

end Pushdown
