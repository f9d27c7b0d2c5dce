import YulToolchain.CommandLine

/-!
# The Program

The command line with its effects: reading a file and printing.

## Main definitions

* `main`: The program.
-/

namespace YulToolchain

/-- Reads a file from disk. -/
def readFromDisk (path : String) : IO (Except CommandLine.FileFault String) := do
  match ← (IO.FS.readFile path).toBaseIO with
  | .ok text => return .ok text
  | .error (.noFileOrDirectory _ _ _) => return .error .missing
  | .error e => return .error (.system (toString e))

end YulToolchain

/-- The program. -/
def main (args : List String) : IO UInt32 := do
  let outcome ← YulToolchain.CommandLine.run YulToolchain.readFromDisk "yultoolchain" args
  IO.print outcome.output
  if let some fault := outcome.fault then
    IO.eprint fault.report
  return outcome.exitCode
