/-!
# Options
-/

namespace Pushdown

/-- What the store can do, and which of several ways of writing is taken. -/
structure Options where
  /-- The store knows `$literal`; without it some constants cannot be expressed. -/
  literalExpressions : Bool := true
  /-- Date functions give null for a missing or null input instead of failing. -/
  guardDateFunctions : Bool := true
  /-- Nested rows are deleted with one `$pull` when the condition only reads the row itself. -/
  pullFastPath : Bool := true
  /-- Copies are brought up to date after a write to the table they are copies of. -/
  propagateCopies : Bool := true
  /-- Where the content of large objects is kept. -/
  largeObjectCollection : String := "__lobs"
deriving DecidableEq

end Pushdown
