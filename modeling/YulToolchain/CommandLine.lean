import YulToolchain.CommandLine.Options
import YulToolchain.Pipeline

/-!
# The Command Line

What the program does with its arguments: it reads one file and prints what the
mode asks for.

The checks come in a fixed order: the options, a request for help, the number of
free arguments, the names of the steps, the file, the source in it,
and only then the mode.

Reading the file is the only effect, so `run` takes it as an argument and works
in whatever monad that lives in.

## Main definitions

* `Mode`: What can be asked for.
* `CommandFault`: Why a command fails.
* `Outcome`: What a command leaves behind.
* `run`: Runs a command.
-/

namespace YulToolchain

namespace CommandLine

/-- What can be asked for. -/
inductive Mode where
  /-- The source as it was read. -/
  | print
  /-- The optimised source. -/
  | optimize
  /-- The bytes of the optimised source. -/
  | assemble
  /-- The functions that reach too deep. -/
  | check
  /-- The result of running the code. -/
  | run
deriving DecidableEq, Repr

/-- The mode with a name. -/
def Mode.ofName? : String → Option Mode
  | "print" => some .print
  | "optimize" => some .optimize
  | "assemble" => some .assemble
  | "check" => some .check
  | "run" => some .run
  | _ => none

/-- Why a file can not be read. -/
inductive FileFault where
  /-- There is no such file. -/
  | missing
  /-- Another reason, in the words of the system. -/
  | system (reason : String)
deriving DecidableEq, Repr

/-- The wording of a fault. -/
def FileFault.message : FileFault → String
  | missing => "No such file or directory (os error 2)"
  | system reason => reason

/-- Why a command fails. -/
inductive CommandFault where
  /-- The options can not be read. -/
  | options (why : OptionFault)
  /-- There is not exactly one free argument. -/
  | usage (program : String)
  /-- The file can not be read. -/
  | file (why : FileFault)
  /-- The mode is unknown. -/
  | unknownMode (name : String)
  /-- The source can not be processed. -/
  | failure (f : Failure)
deriving DecidableEq

/-- The wordings of a fault, outermost first. -/
def CommandFault.messages : CommandFault → List String
  | options why => [why.message]
  | usage program =>
    ["Usage: " ++ program ++ " path [-v LEVEL] [-O STEPS] [--mode MODE]"]
  | file why => ["Failed to read file", why.message]
  | unknownMode name => ["Unknown mode " ++ Text.quoted name]
  | failure f => f.messages

/-- Text with a margin before every line but the first. -/
def indented (margin : String) (text : String) : String :=
  ("\n" ++ margin).intercalate (text.splitOn "\n")

/-- The causes in a report. Several causes are numbered. -/
def causeLines (causes : List String) : List String :=
  match causes with
  | [cause] => ["    " ++ indented "    " cause]
  | _ => causes.zipIdx.map fun (cause, n) =>
    let number := toString n
    String.ofList (List.replicate (5 - number.length) ' ') ++ number ++ ": "
      ++ indented "       " cause

/-- The report of a fault: the outermost wording, and the causes below it. -/
def CommandFault.report (f : CommandFault) : String :=
  match f.messages with
  | [] => "Error: \n"
  | [outer] => "Error: " ++ outer ++ "\n"
  | outer :: causes =>
    "Error: " ++ outer ++ "\n\nCaused by:\n" ++ "\n".intercalate (causeLines causes) ++ "\n"

/-- What a command leaves behind. -/
structure Outcome where
  /-- What it prints. -/
  output : String
  /-- Why it fails, if it does. -/
  fault : Option CommandFault
deriving DecidableEq

namespace Outcome

/-- The status a command exits with. -/
def exitCode (o : Outcome) : UInt32 := if o.fault.isSome then 1 else 0

/-- A command that fails after it has printed something. -/
def failing (output : String) (fault : CommandFault) : Outcome := ⟨output, some fault⟩

end Outcome

/-- Lines with a line feed after each. -/
def unlines (lines : List String) : String := String.join (lines.map (· ++ "\n"))

/-- The functions that reach too deep, as lines. -/
def overshootLines (depths : Table String Int) : List String :=
  if depths.isEmpty then ["ok"]
  else depths.entries.map fun (function, depth) =>
    (if function.isEmpty then "<top level>" else function) ++ ": " ++ toString depth

/-- The result of a run, as lines. -/
def resultLines (r : RunResult) : List String :=
  r.state.trace.toList.map TraceEvent.line
    ++ r.state.storage.entries.map
      (fun (key, value) => "sstore " ++ key.toHex ++ " " ++ value.toHex)
    ++ [match r.termination with
      | some t => t.name ++ ": 0x" ++ Hex.encode r.state.returnData
      | none => "finished"]

/-- The dialect of the sources that are read. -/
def sourceDialect : Dialect := .strictAssemblyForObjects

/-- The lines that a mode prints for an object. -/
def Mode.lines (steps : List Step) (o : Object) : Mode → Except Failure (List String)
  | .print => .ok [o.print]
  | .optimize => do return [(← YulToolchain.optimize sourceDialect steps o).print]
  | .assemble => do
    let o ← YulToolchain.optimize sourceDialect steps o
    return [Hex.encode (← YulToolchain.assemble sourceDialect o)]
  | .check => do return overshootLines (← overshoot sourceDialect o.code)
  | .run => do return resultLines (← execute sourceDialect [] o)

/-- What is to be done with a file. -/
structure Job where
  /-- The path of the file. -/
  path : String
  /-- The steps of the optimisation. -/
  steps : List Step
  /-- The name of the mode. -/
  mode : String

/-- Reads off the arguments what is to be done. If nothing is, the command is
    over already. -/
def Job.ofArguments (program : String) (args : List String) : Except Outcome Job := do
  let a ← (readArguments args).mapError fun why => .failing (usageText program) (.options why)
  if a.given .help then throw ⟨usageText program, none⟩
  match a.free with
  | [path] =>
    let steps ← match a.value? .steps with
      | some text =>
        (Step.ofText text).mapError fun cause => .failing "" (.failure (.of cause))
      | none => pure Step.defaultSequence
    return ⟨path, steps, (a.value? .mode).getD "optimize"⟩
  | _ => throw (.failing (usageText program) (.usage program))

/-- Does what is to be done with the source in the file. -/
def Job.lines (job : Job) (source : String) : Except CommandFault (List String) := do
  let o ← (readSource sourceDialect source).mapError .failure
  match Mode.ofName? job.mode with
  | none => throw (.unknownMode job.mode)
  | some mode => (mode.lines job.steps o).mapError .failure

/-- Does what is to be done with a file, given what reading it gave. -/
def Job.outcome (job : Job) : Except FileFault String → Outcome
  | .error why => .failing "" (.file why)
  | .ok source => match job.lines source with
    | .ok lines => ⟨unlines lines, none⟩
    | .error fault => .failing "" fault

/-- Runs a command with the given way to read a file. -/
def run {m : Type → Type} [Monad m] (contents : String → m (Except FileFault String))
    (program : String) (args : List String) : m Outcome :=
  match Job.ofArguments program args with
  | .error outcome => pure outcome
  | .ok job => do return job.outcome (← contents job.path)

end CommandLine

end YulToolchain
