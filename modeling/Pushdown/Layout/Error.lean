import Pushdown.Report

/-!
# Why a layout cannot be given
-/

namespace Pushdown

inductive LayoutError where
  | unknownTable (name : String)
  | unknownColumn (table column : String)
  | mergedAndEmbeddable (table : String)
  | keyColumnMismatch (table key : String) (columns referenced : Nat)
  | missingMergeKey (table parent : String)
  | ambiguousMergeKey (table parent : String)
  | cyclic (table : String)
  | embedCopyConflict (table target : String)
  | ambiguousReachability (source target : String)
deriving DecidableEq

namespace LayoutError

def report : LayoutError → Report
  | .unknownTable name => { code := 1001, message := s!"unknown table '{name}'" }
  | .unknownColumn table column =>
    { code := 1002, message := s!"unknown column '{column}' in table '{table}'" }
  | .mergedAndEmbeddable table =>
    { code := 1003, message := s!"table '{table}' cannot be both merged and embeddable"
      advice := some s!"Remove either the merge or the embeddable property of table `{table}`." }
  | .keyColumnMismatch table key columns referenced =>
    { code := 1004
      message :=
        s!"foreign key '{key}' of table '{table}' has {columns} columns but references {referenced}" }
  | .missingMergeKey table parent =>
    { code := 1005
      message := s!"table '{table}' is merged into '{parent}' but has no foreign key to it"
      advice :=
        some s!"Add a foreign key from `{table}` to `{parent}`, or remove its merge property." }
  | .ambiguousMergeKey table parent =>
    { code := 1006
      message := s!"table '{table}' is merged into '{parent}' but has several foreign keys to it" }
  | .cyclic table =>
    { code := 1007, message := s!"merge or embed relationships of table '{table}' form a cycle" }
  | .embedCopyConflict table target =>
    { code := 1008
      message := s!"tables '{table}' and '{target}' are related by both an embed and a copy link" }
  | .ambiguousReachability source target =>
    { code := 1009
      message := s!"table '{target}' is reachable from '{source}' in more than one way" }

end LayoutError

end Pushdown
