import Pushdown.Layout.Build

/-!
# Layouts built once

A session that asks for layouts again and again keeps those it has built. What it has built or tried
before does not change any answer.
-/

namespace Pushdown

/-- The layouts built so far, and the tables whose layouts are under construction, by their names in
lower case. -/
structure LayoutCache where
  known : List (String × Layout) := []
  building : List String := []

namespace LayoutCache

def empty : LayoutCache := {}

def start (cache : LayoutCache) (key : String) : LayoutCache :=
  { cache with building := key :: cache.building }

def finish (cache : LayoutCache) (key : String) : LayoutCache :=
  { cache with building := cache.building.filter (· != key) }

def learn (cache : LayoutCache) (key : String) (l : Layout) : LayoutCache :=
  { cache with known := (key, l) :: cache.known }

/-- Gives the layout of the named table, building it at the first request. A layout that cannot be
built is tried anew at the next. -/
def request (c : Catalog) : Nat → String → StateM LayoutCache (Except LayoutError Layout)
  | 0, name => pure (.error (.cyclic name))
  | fuel + 1, name => do
    let key := Text.lower name
    match (← get).known.lookup key with
    | some l => pure (.ok l)
    | none =>
      if (← get).building.contains key then
        pure (.error (.cyclic name))
      else
        modify (·.start key)
        let built : Except LayoutError Layout ←
          match c.table name with
          | .error e => pure (.error e)
          | .ok t =>
            match c.outline t with
            | .error e => pure (.error e)
            | .ok own =>
              match t.properties.mergeInto with
              | none => pure (Catalog.placeBelow t own none)
              | some parentName =>
                match ← request c fuel parentName with
                | .error e => pure (.error e)
                | .ok parent => pure (Catalog.placeBelow t own (some parent))
        modify (·.finish key)
        match built with
        | .ok l => modify (·.learn key l)
        | .error _ => pure ()
        pure built

def layout (c : Catalog) (name : String) (cache : LayoutCache) : Except LayoutError Layout × LayoutCache :=
  (request c (c.entries.length + 1) name).run cache

end LayoutCache

end Pushdown
