import Pushdown.Query.Select
import Pushdown.Write.Change
import Pushdown.Write.Execution

/-!
# Commands

Any command, compiled and carried out: a query gives rows, a write says what it has changed.
-/

namespace Pushdown

inductive Failure where
  | layout (cause : LayoutError)
  | query (cause : QueryError)
  | write (cause : WriteError)
  | conversion (cause : ConversionError)
  | store (cause : StoreError)
deriving DecidableEq

def Failure.report : Failure → Report
  | .layout cause => cause.report.within "document map error: "
  | .query cause => cause.report.within "translator error: "
  | .write cause => cause.report.within "write error: "
  | .conversion cause => cause.report.within "conversion error: "
  | .store cause => cause.report.within "store error: "

inductive CompiledCommand where
  | query (query : Query)
  | write (plan : WritePlan)

inductive Execution where
  | rows (columns : List String) (rows : List (List Value))
  | write (outcome : WriteOutcome)

namespace Command

variable {σ : Type}

/-- Compiles a command. Large objects that a write gives are stored while it is compiled. -/
def compile (catalog : Catalog) (options : Options) (objects : LargeObjects σ) :
    Command → Attempt σ Failure CompiledCommand
  | .select s => do
    let query ← Attempt.ofExcept ((s.compile catalog options).mapError Failure.query)
    return .query query
  | command => do
    let context : WriteContext σ := ⟨catalog, options, objects⟩
    return .write (← (context.plan command).failingAs Failure.write)

def runQuery (store : DocumentStore σ) (q : Query) : Attempt σ Failure Execution := do
  let documents ←
    Attempt.failingAs (fun s => store.aggregate q.toAggregateRequest s) Failure.store
  let rows ← fun s =>
    ((documents.mapM (OutputColumn.decodeRow (store.fetch s) q.columns)).mapError
      Failure.conversion, s)
  return .rows (q.columns.map (·.name)) rows

def execute (catalog : Catalog) (options : Options) (store : DocumentStore σ) (command : Command) :
    Attempt σ Failure Execution := do
  match ← command.compile catalog options store.toLargeObjects with
  | .query q => runQuery store q
  | .write plan => return .write (← (store.run plan).failingAs Failure.write)

end Command

end Pushdown
