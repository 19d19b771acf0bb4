import Tacit.CommandLine

/-! The program: evaluates a text given on the command line, or the contents of a file. -/
namespace Tacit.CommandLine

def usage : String := "Usage: tacit [-f] [-t] [-g] [--max-depth N] [CONTENTS]"

def readFile? (path : String) : IO (Option String) := do
  try return some (← IO.FS.readFile path)
  catch _ => return none

end Tacit.CommandLine

open Tacit.CommandLine in
def main (args : List String) : IO UInt32 := do
  match parseArguments args with
  | none =>
    IO.eprintln usage
    return 2
  | some options =>
    let output ← run readFile? options
    IO.print output.stdout
    IO.eprint output.stderr
    return output.code.toUInt32
