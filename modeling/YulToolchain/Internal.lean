import YulToolchain.Analysis.Error

/-!
# Internal Errors

Violations of what a pass or the code generator relies on. They do not blame
the program but the toolchain, and the output can not be trusted.

## Main definitions

* `InternalFault`: The violations.
* `InternalError`: A violation at a line.
* `StackTooDeep`: A variable that can not be reached on the stack.
-/

namespace YulToolchain

/-- Violations of internal assumptions. -/
inductive InternalFault where
  /-- A name to be renamed has no declaration. -/
  | unresolved (name : String)
  /-- The code that the passes leave is not well formed. -/
  | resultIllFormed (e : AnalysisError)
  /-- The movability of a statement was asked for. -/
  | statementMovability
  /-- A name has no declaration. -/
  | unknownName (name : String)
  /-- A variable has no slot on the stack. -/
  | noSlot (name : String)
  /-- The slot of a variable is not below the top of the stack. -/
  | slotNotBelowTop (name : String) (distance : Int)
  /-- The stack does not have the height it should have. -/
  | heightMismatch (place : String) (expected actual : Int)
  /-- A function is used as a value. -/
  | functionAsValue (name : String)
  /-- Something that is no function is called. -/
  | notAFunction (name : String)
  /-- Code refers to an object that is not attached. -/
  | unknownObject (name : String)
  /-- A builtin that names an object is given something else. -/
  | objectNameExpected (name : String)
  /-- A loop is to be left where there is none. -/
  | outsideLoop
  /-- The frame of a function does not have the height it should have. -/
  | badFrame (size : Nat) (height : Int)
  /-- The frame of a function could not be brought into order. -/
  | frameNotReshuffled
  /-- A label has two positions. -/
  | labelDefinedTwice (label : Nat)
  /-- A label has no position. -/
  | undefinedLabel (label : Nat)
  /-- Nothing is attached under a number. -/
  | unknownAttachment (id : Nat)
deriving DecidableEq

/-- The wording of a violation. -/
def InternalFault.message : InternalFault → String
  | unresolved name => "Unresolved identifier " ++ name
  | resultIllFormed e => "Optimised code does not analyse: " ++ e.message
  | statementMovability => "Movability for statement requested"
  | unknownName name => "Identifier " ++ name ++ " not found"
  | noSlot name => "Variable " ++ name ++ " has no stack slot"
  | slotNotBelowTop name distance =>
    "Variable " ++ name ++ " is not below the top of the stack (distance " ++ toString distance
      ++ ")"
  | heightMismatch place expected actual =>
    "Stack height mismatch after " ++ place ++ ": expected " ++ toString expected ++ ", got "
      ++ toString actual
  | functionAsValue name => "Function " ++ name ++ " used as a value"
  | notAFunction name => name ++ " is not a function"
  | unknownObject name => "Could not find assembly object <" ++ name ++ ">"
  | objectNameExpected name => name ++ " expects a single string literal"
  | outsideLoop => "Break or continue outside of a loop"
  | badFrame size height =>
    "Function frame of " ++ toString size ++ " slot(s) at stack height " ++ toString height
  | frameNotReshuffled => "Error reshuffling the stack"
  | labelDefinedTwice label => "Label " ++ toString label ++ " defined twice"
  | undefinedLabel label => "Reference to undefined label " ++ toString label
  | unknownAttachment id => "Unknown sub-assembly " ++ toString id

/-- A violation with the line it was found on. -/
structure InternalError where
  /-- The line. -/
  line : Nat
  /-- The violation. -/
  fault : InternalFault
deriving DecidableEq

/-- The wording of an internal error. -/
def InternalError.message (e : InternalError) : String :=
  "[line " ++ toString e.line ++ "] Internal compiler error: " ++ e.fault.message

/-- A slot of the stack that can not be reached where it is needed. -/
structure StackTooDeep where
  /-- The function whose code needs it, empty at the top level. -/
  function : String
  /-- The variable that lives in the slot, empty for the frame of the function
      itself. -/
  variableName : String
  /-- How many slots it lies out of reach. -/
  depth : Int
deriving DecidableEq, Repr

/-- The wording of a slot out of reach. -/
def StackTooDeep.message (e : StackTooDeep) : String :=
  (if e.variableName.isEmpty then "Stack too deep by " ++ toString e.depth ++ " slot(s)"
    else "Variable " ++ e.variableName ++ " is " ++ toString e.depth
      ++ " slot(s) too deep inside the stack")
    ++ (if e.function.isEmpty then "" else " in function " ++ e.function)

end YulToolchain
