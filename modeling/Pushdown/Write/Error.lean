import Pushdown.Query.Error

/-!
# Why a write fails
-/

namespace Pushdown

inductive WriteError where
  | unsupported (what : String)
  | unknownColumn (table column : String)
  | columnCount (expected actual : Nat)
  | missingKey (table : String)
  | missingParentKey (table : String)
  | primaryKeyUpdate (column : String)
  | nonLiteralValue (expression : String)
  /-- The expression has no value outside the store. -/
  | evaluation (expression : String)
  | query (cause : QueryError)
  | layout (cause : LayoutError)
  | conversion (cause : ConversionError)
  | store (cause : StoreError)
deriving DecidableEq

namespace WriteError

def report : WriteError → Report
  | .unsupported what => { code := 3001, message := s!"unsupported: {what}" }
  | .unknownColumn table column =>
    { code := 3002, message := s!"unknown column '{column}' in table '{table}'" }
  | .columnCount expected actual =>
    { code := 3003, message := s!"expected {expected} values per row, found {actual}" }
  | .missingKey table => { code := 3004, message := s!"a row of '{table}' needs its key columns" }
  | .missingParentKey table =>
    { code := 3005, message := s!"a row of '{table}' needs the key of the row it is stored in"
      advice :=
        some s!"Rows of `{table}` are stored inside their parent row. Supply its key." }
  | .primaryKeyUpdate column =>
    { code := 3006, message := s!"primary key column '{column}' cannot be updated"
      advice := some "Delete the row and insert it again with the new key." }
  | .nonLiteralValue expression =>
    { code := 3007, message := s!"'{expression}' is not a constant" }
  | .evaluation expression =>
    { code := 3008, message := s!"cannot evaluate {expression} here" }
  | .query cause => cause.report
  | .layout cause => cause.report
  | .conversion cause => cause.report
  | .store cause => cause.report

end WriteError

end Pushdown
