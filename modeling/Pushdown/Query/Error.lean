import Pushdown.Layout.Error
import Pushdown.StoredForm
import Pushdown.Text.Escaped

/-!
# Why a query cannot be compiled
-/

namespace Pushdown

inductive QueryError where
  | unsupported (what : String)
  | unsupportedFunction (name : String)
  | functionArity (name : String) (args : Nat)
  | unknownSource (name : String)
  | duplicateSource (name : String)
  | unknownColumn (column : String)
  | ambiguousColumn (column : String)
  | notColocated (tables : List String)
  | columnNotGrouped (column : String)
  | aggregateNotAllowed (expression : String)
  | orderByNotProjected (expression : String)
  /-- More than the nested row itself is needed. -/
  | notElementLocal (expression : String)
  | limitOutOfRange (limit : UInt64)
  | offsetOutOfRange (offset : UInt64)
  | layout (cause : LayoutError)
  | conversion (cause : ConversionError)
deriving DecidableEq

namespace QueryError

def report : QueryError → Report
  | .unsupported what => { code := 2001, message := s!"unsupported: {what}" }
  | .unsupportedFunction name => { code := 2002, message := s!"unsupported function '{name}'" }
  | .functionArity name args =>
    { code := 2003, message := s!"function '{name}' does not accept {args} arguments" }
  | .unknownSource name => { code := 2004, message := s!"unknown table or alias '{name}'" }
  | .duplicateSource name =>
    { code := 2005, message := s!"table or alias '{name}' appears more than once" }
  | .unknownColumn column => { code := 2006, message := s!"unknown column '{column}'" }
  | .ambiguousColumn column =>
    { code := 2007, message := s!"column '{column}' is ambiguous"
      advice := some s!"Qualify `{column}` with the table or alias it belongs to." }
  | .notColocated tables =>
    { code := 2008
      message := "tables " ++ Text.escapedList tables ++ " are not stored in the same document"
      advice :=
        some "Only tables stored in the same document can be joined. Query them separately." }
  | .columnNotGrouped column =>
    { code := 2009
      message :=
        s!"'{column}' must appear in the GROUP BY clause or be used in an aggregate function" }
  | .aggregateNotAllowed expression =>
    { code := 2010, message := s!"aggregate '{expression}' is not allowed here" }
  | .orderByNotProjected expression =>
    { code := 2011
      message := s!"ORDER BY expression '{expression}' must appear in the select list" }
  | .notElementLocal expression =>
    { code := 2012, message := s!"'{expression}' does not only read columns of the nested row" }
  | .limitOutOfRange limit =>
    { code := 2013, message := s!"LIMIT ({limit}) cannot be converted to i64" }
  | .offsetOutOfRange offset =>
    { code := 2014, message := s!"OFFSET ({offset}) cannot be converted to i64" }
  | .layout cause => cause.report
  | .conversion cause => cause.report

end QueryError

end Pushdown
