import Pushdown.Bson.Basic
import Pushdown.Path

/-!
# Reading along a path

A path leads through documents by field names and through arrays by positions.
-/

namespace Pushdown

namespace Bson

def step? (name : String) : Bson → Option Bson
  | .document fields => Document.get? fields name
  | .array items => (readIndex? name).bind (items[·]?)
  | _ => none

def follow? : List String → Bson → Option Bson
  | [], b => some b
  | name :: names, b => (b.step? name).bind (follow? names)

theorem follow?_append (names more : List String) (b : Bson) :
    follow? (names ++ more) b = (follow? names b).bind (follow? more) := by
  induction names generalizing b with
  | nil => rfl
  | cons name names ih => cases h : b.step? name <;> simp [follow?, h, ih]

end Bson

def Document.atPath? (d : Document) (path : String) : Option Bson :=
  Bson.follow? (Path.split path) (.document d)

end Pushdown
