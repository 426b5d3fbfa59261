import Extraction.CommandLine.Program

/-! The command line on the files and the clock of the machine. -/
namespace Extraction.CommandLine

/-- What an action gives, if it does not fail. -/
def attempt {α : Type} (action : IO α) : IO (Option α) := do
  try return some (← action) catch _ => return none

instance : Host IO where
  read path := attempt do return (← IO.FS.readBinFile path).toList
  write path content := do return (← attempt (IO.FS.writeFile path content)).isSome
  append path content := do
    let done ← attempt do
      let handle ← IO.FS.Handle.mk path .append
      handle.putStr content
      handle.flush
    return done.isSome
  now := IO.monoNanosNow

end Extraction.CommandLine

open Extraction.CommandLine in
def main (arguments : List String) : IO UInt32 := do
  let ending ← (run arguments : IO Ending)
  match ending with
  | .unusable => IO.eprintln "error: the arguments are not usable"
  | .failed message => IO.eprintln ("Error: " ++ message)
  | .done output => IO.print output
  return ending.status.toUInt32
