import YulToolchain.Execution.Halt
import YulToolchain.Internal
import YulToolchain.Parser.Error
import YulToolchain.Text.Quoted

/-!
# Failures

Why a request could not be met: the cause, and around it the activities during
which it came up.

## Main definitions

* `Cause`: The causes of failures.
* `Failure`: A cause in its context.
* `Failure.messages`: The wordings, outermost first.
-/

namespace YulToolchain

/-- The causes of failures. -/
inductive Cause where
  /-- The source is no program. -/
  | parse (e : ParseError)
  /-- The program is not well formed. -/
  | analysis (e : AnalysisError)
  /-- The toolchain broke its own rules. -/
  | internal (e : InternalError)
  /-- A slot of the stack can not be reached. -/
  | stackTooDeep (e : StackTooDeep)
  /-- A literal denotes nothing. -/
  | literal (why : LiteralFault)
  /-- An instruction has no such operand. -/
  | operand (why : Instruction.OperandFault)
  /-- A size does not fit into a reference of four bytes. -/
  | tooLarge
  /-- No step has the name. -/
  | unknownStep (name : String)
  /-- The program did something that has no meaning. -/
  | run (why : RunFault)
deriving DecidableEq

/-- The wordings of a cause, outermost first. -/
def Cause.messages : Cause → List String
  | parse e => e.messages
  | analysis e => [e.message]
  | internal e => [e.message]
  | stackTooDeep e => [e.message]
  | literal why => why.messages
  | operand why => [why.message]
  | tooLarge =>
    ["Assembly too large for 4-byte references", "out of range integral type conversion attempted"]
  | unknownStep name => ["Unknown optimiser step " ++ Text.quoted name]
  | run why => why.messages

/-- A cause with the activities around it, outermost first. -/
structure Failure where
  /-- The activities. -/
  context : List String
  /-- The cause. -/
  cause : Cause
deriving DecidableEq

namespace Failure

/-- A cause without context. -/
def of (cause : Cause) : Failure := ⟨[], cause⟩

/-- The wordings of a failure, outermost first. -/
def messages (f : Failure) : List String := f.context ++ f.cause.messages

/-- A failure on one line. -/
def message (f : Failure) : String := ": ".intercalate f.messages

/-- A failure during an activity. -/
def during (activity : String) (f : Failure) : Failure :=
  { f with context := activity :: f.context }

end Failure

/-- Turns an error into a failure. -/
def orFail {ε α : Type} (cause : ε → Cause) (r : Except ε α) : Except Failure α :=
  r.mapError fun e => .of (cause e)

/-- Names the activity during which something may fail. -/
def within {α : Type} (activity : String) (r : Except Failure α) : Except Failure α :=
  r.mapError (Failure.during activity)

end YulToolchain
