import FlatNtuple.CommandLine
/-!
# The program

Reads the files that the arguments name, prints what comes of them, and exits with the status.
-/
namespace FlatNtuple

/-- The contents of a file, if it can be read. -/
def readFile? (path : String) : IO (Option String) := do
  try
    return some (← IO.FS.readFile path)
  catch _ => return none

end FlatNtuple

open FlatNtuple in
def main (args : List String) : IO UInt32 := do
  let files ← args.mapM fun path => do return (path, ← readFile? path)
  match CommandLine.outcome (fun path => (files.lookup path).join) args with
  | .output text =>
    IO.print text
    return 0
  | .failure message =>
    IO.eprintln message
    return 1
  | .overflow text =>
    IO.print text
    IO.eprintln "A charge does not fit into 32 bits"
    return 101
  | .usage =>
    IO.eprintln "Usage: ntuplize (parse <EXPRESSION> | check <CONFIG> | run <CONFIG> <EVENTS>)"
    return 2
