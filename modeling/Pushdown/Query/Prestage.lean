import Pushdown.Bson.Basic

/-!
# Stages before the match

What has to be done to the documents of a collection before the conditions of a query can be tested:
nested documents that are read have to be there, nested arrays are flattened into one document per
element, and some fields are computed. All computed fields share one stage.
-/

namespace Pushdown

inductive Prestage where
  /-- The document at `path` is there and not null. -/
  | present (path : String)
  | flatten (path : String)
  | compute (fields : List (String × Bson))

namespace Prestage

def path? : Prestage → Option String
  | .present path => some path
  | .flatten path => some path
  | .compute _ => none

def isFlattenOf (path : String) : Prestage → Bool
  | .flatten p => p == path
  | _ => false

def isPresentOf (path : String) : Prestage → Bool
  | .present p => p == path
  | _ => false

def isCompute : Prestage → Bool
  | .compute _ => true
  | _ => false

/-- Adds a field after the others; a field of that name is replaced. -/
def withField (name : String) (value : Bson) : Prestage → Prestage
  | .compute fields => .compute (fields.filter (·.1 ≠ name) ++ [(name, value)])
  | stage => stage

def toDocument : Prestage → Document
  | .present path =>
    [("$match", .document [(path, .document [("$exists", .boolean true), ("$ne", .null)])])]
  | .flatten path => [("$unwind", .string ("$" ++ path))]
  | .compute fields => [("$addFields", .document (Document.ofFields fields))]

end Prestage

abbrev Prestages := List Prestage

namespace Prestages

/-- Asks for the document at `path`. An array that is flattened there is asked for already. -/
def requirePresent (stages : Prestages) (path : String) : Prestages :=
  if stages.any (·.path? == some path) then stages else stages ++ [.present path]

/-- Flattens the array at `path`. An array that is flattened has to be there, so this takes the
place of a request for it. -/
def flatten (stages : Prestages) (path : String) : Prestages :=
  if stages.any (Prestage.isFlattenOf path) then stages
  else stages.filter (!Prestage.isPresentOf path ·) ++ [.flatten path]

def compute (stages : Prestages) (name : String) (value : Bson) : Prestages :=
  if stages.any Prestage.isCompute then stages.map (Prestage.withField name value)
  else stages ++ [.compute [(name, value)]]

end Prestages

end Pushdown
