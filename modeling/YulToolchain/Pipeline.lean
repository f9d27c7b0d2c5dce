import YulToolchain.Assembly
import YulToolchain.CodeGen.Object
import YulToolchain.Execution.Interpreter
import YulToolchain.Parser.Object
import YulToolchain.Pass.Sequence

/-!
# The Pipeline

What the toolchain does with a source, from reading to running it.

## Main definitions

* `readSource`: Reads an object.
* `optimize`: Optimises the code of an object and of all objects in it.
* `assemble`: The bytes of an object.
* `execute`: The result of running the code of an object.
-/

namespace YulToolchain

/-- Reads an object, or a bare block as the object it stands for. -/
def readSource (d : Dialect) (source : String) : Except Failure Object :=
  within "Failed to parse source" (orFail .parse (parseObject d source))

mutual

/-- Optimises the code of an object and of all objects in it. -/
def optimize (d : Dialect) (steps : List Step) : Object → Except Failure Object
  | ⟨name, code, attachments⟩ => do
    let code ← within ("While optimising object " ++ name) (optimizeCode d [] steps code)
    return ⟨name, code, ← optimizeAttached d steps attachments⟩

/-- Optimises the code of attached objects. -/
def optimizeAttached (d : Dialect) (steps : List Step) :
    List Attachment → Except Failure (List Attachment)
  | [] => .ok []
  | .object o :: rest => do
    let o ← optimize d steps o
    return .object o :: (← optimizeAttached d steps rest)
  | .data name bytes :: rest => do return .data name bytes :: (← optimizeAttached d steps rest)

end

/-- The code of an object with its attachments, as bytes. -/
def assemble (d : Dialect) (o : Object) : Except Failure (List UInt8) := do
  let assembly : Assembly ← within "Failed to compile" (o.compile d false Target.fresh)
  within "Failed to assemble" assembly.finish

/-- The result of running the code of an object within the standard budget. -/
def execute (d : Dialect) (calldata : List UInt8) (o : Object) : Except Failure RunResult :=
  within "Failed to interpret" (orFail .run (interpret d .standard calldata o.code))

end YulToolchain
