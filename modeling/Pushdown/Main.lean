import Pushdown.CommandLine

/-!
# The program

`pushdown --catalog FILE [--options FILE] COMMAND-FILE` compiles the command in a file and prints
the pipeline or the write plan.
-/

namespace Pushdown.CommandLine

structure Arguments where
  command : Option String := none
  catalog : Option String := none
  options : Option String := none

def Arguments.ofList? : List String → Arguments → Option Arguments
  | [], a => some a
  | "--catalog" :: file :: rest, a => ofList? rest { a with catalog := some file }
  | "-c" :: file :: rest, a => ofList? rest { a with catalog := some file }
  | "--options" :: file :: rest, a => ofList? rest { a with options := some file }
  | "-o" :: file :: rest, a => ofList? rest { a with options := some file }
  | file :: rest, a =>
    if a.command.isSome || Path.hasPrefix "-" file then none
    else ofList? rest { a with command := some file }

def usage : String := "usage: pushdown --catalog FILE [--options FILE] COMMAND-FILE\n"

end Pushdown.CommandLine

open Pushdown CommandLine in
def main (args : List String) : IO UInt32 := do
  let stderr ← IO.getStderr
  match Arguments.ofList? args {} with
  | some { command := some command, catalog := some catalog, options } =>
    let catalog ← IO.FS.readFile catalog
    let command ← IO.FS.readFile command
    let options ←
      match options with
      | some file => some <$> IO.FS.readFile file
      | none => pure none
    let output := describe ⟨catalog, command, options⟩
    IO.print output.stdout
    stderr.putStr output.stderr
    return output.exit
  | _ =>
    stderr.putStr usage
    return 2
