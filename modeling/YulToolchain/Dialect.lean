import YulToolchain.Machine.Instruction

/-!
# Dialects

Which calls are builtin, and how much of the language is accepted.

There are two families. The typed dialect has no builtins at all. The machine
dialects offer the instructions as functions, all but those that address the
stack or the code, and differ in their flavour and in whether code may refer to
the objects around it.

Every machine dialect has a twin whose builtins do no more than take their
arguments and leave zeros. Code generation runs against the twin when only
stack heights matter.

## Main definitions

* `Flavour`: How much of the language is accepted.
* `Builtin`: What is known of a builtin function.
* `Dialect`: The dialects.
* `Dialect.builtin?`: The builtin with a name.
* `Dialect.functionalInstruction?`: The instruction a call denotes.
* `Dialect.reserved`: The names that code may not declare.
-/

namespace YulToolchain

/-- How much of the language is accepted. -/
inductive Flavour where
  /-- Labels, stack assignments and raw jumps are allowed. -/
  | loose
  /-- Plain untyped code over instructions. -/
  | strict
  /-- Typed code. -/
  | yul
deriving DecidableEq, Repr, Inhabited

/-- How a builtin is lowered to machine code. -/
inductive BuiltinCode where
  /-- To an instruction. -/
  | instruction (op : Instruction)
  /-- To the size of a named object. -/
  | dataSize
  /-- To the offset of a named object. -/
  | dataOffset
  /-- To a copy out of the code. -/
  | dataCopy
  /-- To nothing but its effect on the stack. -/
  | stackEffectOnly
deriving DecidableEq, Repr, Inhabited

/-- What is known of a builtin function. -/
structure Builtin where
  /-- Its name. -/
  name : String
  /-- How many arguments it takes. -/
  params : Nat
  /-- How many values it returns. -/
  returns : Nat
  /-- Whether a call may be evaluated any number of times at any point. -/
  movable : Bool
  /-- Whether a call can be removed when its result is unused. -/
  sideEffectFree : Bool
  /-- As `sideEffectFree`, provided that nothing observes the memory size. -/
  sideEffectFreeIfNoMsize : Bool
  /-- Whether it returns the memory size. -/
  isMsize : Bool
  /-- Whether its arguments have to be literals and are never evaluated. -/
  literalArguments : Bool
  /-- How it is lowered. -/
  code : BuiltinCode
deriving DecidableEq, Repr, Inhabited

namespace Builtin

/-- The builtin that stands for an instruction. -/
def ofInstruction (op : Instruction) : Builtin where
  name := op.mnemonic
  params := op.args
  returns := op.returns
  movable := op.movable
  sideEffectFree := op.sideEffectFree
  sideEffectFreeIfNoMsize := op.sideEffectFreeIfNoMsize
  isMsize := op == .msize
  literalArguments := false
  code := .instruction op

/-- A builtin that looks up a named object. Its argument is a literal. -/
def objectQuery (name : String) (code : BuiltinCode) : Builtin where
  name
  params := 1
  returns := 1
  movable := true
  sideEffectFree := true
  sideEffectFreeIfNoMsize := true
  isMsize := false
  literalArguments := true
  code

/-- The builtin that copies out of the code. -/
def dataCopy : Builtin where
  name := "datacopy"
  params := 3
  returns := 0
  movable := false
  sideEffectFree := false
  sideEffectFreeIfNoMsize := false
  isMsize := false
  literalArguments := false
  code := .dataCopy

/-- The builtins that reach the objects around the code. -/
def objectAccess? : String → Option Builtin
  | "datasize" => some (objectQuery "datasize" .dataSize)
  | "dataoffset" => some (objectQuery "dataoffset" .dataOffset)
  | "datacopy" => some dataCopy
  | _ => none

/-- The instruction a builtin is lowered to, if it is one. -/
def instruction? (b : Builtin) : Option Instruction :=
  match b.code with
  | .instruction op => some op
  | _ => none

end Builtin

/-- The settings of a dialect of the machine. -/
structure MachineDialect where
  /-- How much of the language is accepted. -/
  flavour : Flavour
  /-- Whether code may refer to the objects around it. -/
  objectAccess : Bool
  /-- Whether builtins only have their effect on the stack. -/
  dryRun : Bool
deriving DecidableEq, Repr, Inhabited

/-- The dialects. -/
inductive Dialect where
  /-- Typed code without any builtins. -/
  | typed
  /-- Code over the instructions of the machine. -/
  | machine (m : MachineDialect)
deriving DecidableEq, Repr, Inhabited

namespace MachineDialect

/-- The builtin with a name. -/
def builtin? (m : MachineDialect) (name : String) : Option Builtin :=
  let found := ((if m.objectAccess then Builtin.objectAccess? name else none)).or
    (((Instruction.ofMnemonic? name).filter (!·.isStackManipulation)).map Builtin.ofInstruction)
  if m.dryRun then found.map fun b => { b with code := .stackEffectOnly } else found

/-- The instruction that a call denotes when the call is read. -/
def functionalInstruction? (m : MachineDialect) (name : String) : Option Instruction :=
  match m.flavour with
  | .loose => (Instruction.ofMnemonic? name).filter (!·.isPush)
  | _ => (Instruction.ofMnemonic? name).bind fun _ =>
    (m.builtin? name).bind Builtin.instruction?

/-- The twin whose builtins only have their effect on the stack. -/
def noOutput (m : MachineDialect) : MachineDialect := { m with dryRun := true }

end MachineDialect

namespace Dialect

/-- Instructions with labels, stack assignments and raw jumps. -/
def looseAssembly : Dialect := .machine ⟨.loose, false, false⟩

/-- Plain code over instructions. -/
def strictAssembly : Dialect := .machine ⟨.strict, false, false⟩

/-- Plain code over instructions that may refer to the objects around it. -/
def strictAssemblyForObjects : Dialect := .machine ⟨.strict, true, false⟩

/-- How much of the language a dialect accepts. -/
def flavour : Dialect → Flavour
  | typed => .yul
  | machine m => m.flavour

/-- The builtin with a name. -/
def builtin? : Dialect → String → Option Builtin
  | typed, _ => none
  | machine m, name => m.builtin? name

/-- The instruction that a call denotes when the call is read. -/
def functionalInstruction? : Dialect → String → Option Instruction
  | typed, _ => none
  | machine m, name => m.functionalInstruction? name

/-- Whether code may not declare a name: it is a builtin, or an instruction of
    the machine that the dialect is for. -/
def reserved : Dialect → String → Bool
  | typed, _ => false
  | machine m, name => (m.builtin? name).isSome || (Instruction.ofMnemonic? name).isSome

/-- The machine settings of a dialect, if it is for the machine. -/
def machine? : Dialect → Option MachineDialect
  | typed => none
  | machine m => some m

end Dialect

end YulToolchain
