import YulToolchain.CodeGen.Gen

/-!
# Code of Expressions

Every expression leaves its values on top of the stack. Arguments are evaluated
from the last to the first, so that the first one ends up on top.

A call of a function puts the position to return to below the arguments and
jumps to the entry of the function.

## Main definitions

* `Expr.generate`: The code of an expression.
* `Gen.objectQuery`: The code of a question about an object.
-/

namespace YulToolchain

namespace Gen

variable {A : Type} [Target A]

/-- The code of a literal. -/
def literal (l : Literal) : Gen A Unit := do
  match l.value with
  | .ok w =>
    setLine l.line
    emit (.constant w)
  | .error why =>
    throw ((Failure.of (.literal why)).during ("Invalid literal at line " ++ toString l.line))

/-- The object that the arguments of a builtin name. -/
def objectName (line : Nat) (function : String) : List Expr → Gen A String
  | [.literal l] =>
    if l.kind = .string then do
      let bytes ← orStop .literal l.stringBytes
      return String.ofList (Text.ofBytes bytes)
    else violation line (.objectNameExpected function)
  | _ => violation line (.objectNameExpected function)

/-- The code of a question about an object: what is pushed for the object itself,
    and what for an attachment. -/
def objectQuery (c : GenContext) (line : Nat) (function : String) (args : List Expr)
    (own : Item) (attachment : Nat → Reference) : Gen A Unit := do
  let name ← objectName line function args
  if c.objects.current = some name then emit own
  else match c.objects.attached.lookup name with
    | some id => emit (.reference (attachment id))
    | none => violation line (.unknownObject name)

end Gen

open Gen

variable {A : Type} [Target A]

mutual

/-- The code of an expression. -/
def Expr.generate (c : GenContext) (p : Place) : Expr → Gen A Unit
  | .literal l => Gen.literal l
  | .ident line name => do
    let (d, symbol) ← lookup c p line name
    match symbol with
    | .var _ => copyVariable c p line name
    | .label => emit (.reference (.label (← labelOf d)))
    | .function _ _ => violation line (.functionAsValue name)
  | .instr line op args => do
    Expr.generateArgs c p args
    setLine line
    instruction op
  | .call line name args => match c.dialect.builtin? name with
    | some b => match b.code with
      | .instruction op => do
        Expr.generateArgs c p args
        instruction op
      | .dataSize => objectQuery c line name args (.reference .ownSize) .sizeOf
      | .dataOffset => objectQuery c line name args (.constant 0) .offsetOf
      | .dataCopy => do
        Expr.generateArgs c p args
        instruction .codecopy
      | .stackEffectOnly => do
        if b.literalArguments then pure ()
        else
          Expr.generateArgs c p args
          pops args.length
        zeros b.returns
    | none => do
      let (d, symbol) ← lookup c p line name
      match symbol with
      | .function params returns => do
        let back ← newLabel
        emit (.reference (.label back))
        Expr.generateArgs c p args
        let entry ← entryOf c d
        setLine line
        jumpTo entry (returns.length - params.length - 1)
        label back
      | _ => violation line (.notAFunction name)

/-- The code of arguments, from the last to the first. -/
def Expr.generateArgs (c : GenContext) (p : Place) : List Expr → Gen A Unit
  | [] => pure ()
  | e :: rest => do
    Expr.generateArgs c p rest
    Expr.generate c p e

end

end YulToolchain
