/-!
# Reports

What a user is told about a failure: a stable number, what went wrong, and sometimes what to do.
Numbers are grouped by the part that fails: 1xxx layouts, 2xxx queries, 3xxx writes, 4xxx
conversions, 5xxx the store.
-/

namespace Pushdown

structure Report where
  code : Nat
  message : String
  advice : Option String := none
deriving DecidableEq

namespace Report

def display (r : Report) : String :=
  "Error " ++ toString r.code ++ ": " ++
    match r.advice with
    | some advice => advice ++ "\n\tCaused by:\n\t" ++ r.message
    | none => r.message

/-- The same report from a part that says where it comes from. -/
def within (r : Report) (origin : String) : Report := { r with message := origin ++ r.message }

end Report

end Pushdown
