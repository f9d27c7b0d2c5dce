import YulToolchain.Ast.Literal
import YulToolchain.Machine.Instruction

/-!
# Ends of Execution

Why the execution of a program stops before the end of its code.

A program may end itself, run out of its budget of steps, or do something that
has no meaning. The first two are results; the last one is a failure, and what
the program did before is of no interest.

Two of the failures are no answers of the interpreter: it breaks off when memory
can not be had, or when bytes are accessed that were not. They are told apart by
`RunFault.breaksOff`.

## Main definitions

* `Limits`: The budget of an execution.
* `Termination`: The ways in which execution ends as a result.
* `RunFault`: What has no meaning.
* `RunFault.breaksOff`: The faults that are no answers.
* `Halt`: Either of the two.
-/

namespace YulToolchain

/-- The budget of an execution. Both limits are given as numbers of 64 bits. -/
structure Limits where
  /-- How many statements and rounds of loops are executed at most. The counter has 64 bits as
      well, so the greatest number is no limit: it can not be exceeded. -/
  maxSteps : Nat
  /-- The highest address up to which memory may be touched. -/
  maxMemory : Nat
deriving DecidableEq, Repr

/-- The budget if none is given. -/
def Limits.standard : Limits := ⟨10000, 0x100000⟩

/-- The ways in which execution ends before the end of the code. -/
inductive Termination where
  | stop
  /-- The program returned data. -/
  | returned
  /-- The program returned data and asked to undo what it did. -/
  | reverted
  | invalid
  | selfDestruct
  /-- The budget of steps is used up. -/
  | stepLimit
deriving DecidableEq, Repr

/-- The name of a termination. -/
def Termination.name : Termination → String
  | stop => "Stop"
  | returned => "Return"
  | reverted => "Revert"
  | invalid => "Invalid"
  | selfDestruct => "SelfDestruct"
  | stepLimit => "StepLimit"

/-- What has no meaning when it is executed. -/
inductive RunFault where
  /-- A literal denotes nothing. -/
  | literal (why : LiteralFault)
  /-- A variable has no value. -/
  | unknownVariable (name : String) (line : Nat)
  /-- A variable that is assigned to does not exist. -/
  | unknownTarget (name : String)
  /-- A function is not defined. -/
  | unknownFunction (name : String) (line : Nat)
  /-- A function is called with the wrong number of arguments. -/
  | argumentCount (name : String) (line : Nat)
  /-- An instruction is called with the wrong number of arguments. -/
  | operandCount (op : Instruction) (actual : Nat)
  /-- An instruction addresses the stack or the code. -/
  | notInterpretable (op : Instruction)
  /-- An expression has not exactly one value where one is needed. -/
  | singleValueExpected (line count : Nat)
  /-- An expression has not as many values as variables are declared. -/
  | declarationCount (line : Nat)
  /-- An expression has not as many values as variables are assigned. -/
  | assignmentCount (line : Nat)
  /-- An expression statement has values. -/
  | valuesLeft (line : Nat)
  /-- A builtin that names an object is given something else. -/
  | objectNameExpected (name : String) (line : Nat)
  /-- Labels and stack assignments are statements of loose assembly. -/
  | looseAssembly (line : Nat)
  /-- Memory is touched beyond the highest address. -/
  | outOfRange (address : Nat)
  /-- A range of bytes that is accessed ends behind the end of memory. -/
  | outsideMemory (last size : Nat)
  /-- Memory would have more bytes than it can have. -/
  | tooMuchMemory (size : Nat)
  /-- The variables of a function are gone when it returns. -/
  | lostFrame (function : String)
  /-- A return variable is gone when its function returns. -/
  | lostReturnVariable (name : String)
deriving DecidableEq

/-- A line as it is named in the wording of a fault. -/
def atLine (line : Nat) : String := " at line " ++ toString line

/-- The wordings of a fault, outermost first. -/
def RunFault.messages : RunFault → List String
  | literal why => why.messages
  | unknownVariable name line => ["Unknown variable " ++ name ++ atLine line]
  | unknownTarget name => ["Assignment to unknown variable " ++ name]
  | unknownFunction name line => ["Unknown function " ++ name ++ atLine line]
  | argumentCount name line => ["Wrong number of arguments to " ++ name ++ atLine line]
  | operandCount op actual =>
    [op.mnemonic ++ " expects " ++ toString op.args ++ " argument(s), got " ++ toString actual]
  | notInterpretable op => [op.mnemonic ++ " cannot be interpreted"]
  | singleValueExpected line count =>
    ["Expected a single value" ++ atLine line ++ ", got " ++ toString count]
  | declarationCount line => ["Wrong number of values in declaration" ++ atLine line]
  | assignmentCount line => ["Wrong number of values in assignment" ++ atLine line]
  | valuesLeft line => ["Expression statement" ++ atLine line ++ " leaves values behind"]
  | objectNameExpected name line => [name ++ " expects a literal" ++ atLine line]
  | looseAssembly line => ["Loose assembly" ++ atLine line ++ " cannot be interpreted"]
  | outOfRange address =>
    ["Memory access at 0x" ++ String.ofList (Nat.toDigits 16 address) ++ " out of range"]
  | outsideMemory last size =>
    ["Range up to " ++ toString last ++ " exceeds memory of size " ++ toString size]
  | tooMuchMemory size => ["Memory of size " ++ toString size ++ " exceeds the capacity"]
  | lostFrame function => ["Lost the frame of " ++ function]
  | lostReturnVariable name => ["Lost return variable " ++ name]

/-- Whether the interpreter breaks off without an answer instead of reporting the fault. -/
def RunFault.breaksOff : RunFault → Bool
  | outsideMemory _ _ => true
  | tooMuchMemory _ => true
  | _ => false

/-- Why execution stops before the end of the code. -/
inductive Halt where
  /-- The program ended or was ended. -/
  | ended (t : Termination)
  /-- The program did something that has no meaning. -/
  | failed (why : RunFault)
deriving DecidableEq

/-- Whether the interpreter breaks off without an answer. -/
def Halt.breaksOff : Halt → Bool
  | ended _ => false
  | failed why => why.breaksOff

end YulToolchain
