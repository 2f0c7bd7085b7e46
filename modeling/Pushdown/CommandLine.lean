import Pushdown.Json.Parser
import Pushdown.Session
import Pushdown.Sql.Codec

/-!
# The command line

What the program prints for a command that is compiled without a store. The catalog, the command and
the options are given as JSON texts.
-/

namespace Pushdown

structure CommandOutput where
  exit : UInt32
  stdout : String
  stderr : String
deriving DecidableEq

namespace CommandOutput

def ofLines (lines : List String) : CommandOutput :=
  { exit := 0, stdout := String.join (lines.map (· ++ "\n")), stderr := "" }

def failure (text : String) : CommandOutput :=
  { exit := 1, stdout := "", stderr := "Error: CliError(" ++ Text.escaped text ++ ")\n" }

end CommandOutput

def indented (line : String) : String := "    " ++ line

def Query.lines (q : Query) : List String :=
  ["collection: " ++ q.collection ++ ",", "pipeline:"]
    ++ q.pipeline.map (fun stage => indented (Document.text stage))
    ++ ["columns:"]
    ++ q.columns.map fun c => indented (c.name ++ " " ++ c.type.text ++ " <- " ++ c.path)

def Mutation.lines : Mutation → List String
  | .insert collection document =>
    ["insert into " ++ collection ++ ":", indented (Document.text document)]
  | .update request =>
    ["update of " ++ request.collection ++ ":", indented (Document.text request.filter),
      indented (Document.text request.update)] ++
      request.arrayFilters.map fun f => indented (Document.text f)
  | .remove collection filter =>
    ["removal from " ++ collection ++ ":", indented (Document.text filter)]

def AggregateRequest.lines (r : AggregateRequest) : List String :=
  ("read of " ++ r.collection ++ ":") :: r.pipeline.map fun stage => indented (Document.text stage)

def CopyFetch.line (f : CopyFetch) : String :=
  match f.source with
  | some (collection, filter) =>
    "copy into " ++ f.field ++ " from " ++ collection ++ ": " ++ Document.text filter
  | none => "copy into " ++ f.field ++ " is cleared"

def NestedAction.lines : NestedAction → List String
  | .update fields => ["update of rows:", indented (Document.text fields)]
  | .delete => ["removal of rows"]

def WritePlan.lines : WritePlan → List String
  | .insert plan =>
    ("insert into " ++ plan.table) ::
      plan.rows.flatMap fun r => r.copies.map CopyFetch.line ++ (r.mutation []).lines
  | .direct plan =>
    ("write to " ++ plan.table) :: plan.copies.map CopyFetch.line ++ plan.mutation.lines ++
      match plan.propagation with
      | some p => p.keyQuery.lines ++ p.patches.map fun patch =>
          "copies in " ++ patch.collection ++ " at " ++ patch.copyPath
      | none => []
  | .pull plan =>
    ("delete from " ++ plan.table) :: plan.countQuery.lines ++ (Mutation.update plan.mutation).lines
  | .nested plan =>
    ("write to " ++ plan.table) :: plan.read.lines ++ plan.copies.map CopyFetch.line ++
      plan.action.lines

def CompiledCommand.lines : CompiledCommand → List String
  | .query q => q.lines
  | .write plan => plan.lines

def readShape {α : Type} (what : String) (f : Json → Option α) (text : String) : Except String α :=
  match (Json.parse? text).bind (Json.read? f) with
  | some a => .ok a
  | none => .error ("invalid " ++ what)

namespace CommandLine

structure Inputs where
  catalog : String
  command : String
  options : Option String

def Inputs.read (i : Inputs) : Except String (Catalog × Command × Options) := do
  let catalog ← readShape "catalog" Catalog.ofJson? i.catalog
  let command ← readShape "command" Command.ofJson? i.command
  let options ←
    match i.options with
    | some text => readShape "options" Options.ofJson? text
    | none => pure {}
  return (catalog, command, options)

def describe (i : Inputs) : CommandOutput :=
  match i.read with
  | .error text => .failure text
  | .ok (catalog, command, options) =>
    match ((command.compile catalog options .unavailable).run ()).1 with
    | .ok compiled => .ofLines compiled.lines
    | .error e => .failure e.report.display

end CommandLine

end Pushdown
