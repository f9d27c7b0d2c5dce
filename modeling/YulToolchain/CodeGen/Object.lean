import YulToolchain.CodeGen.Statement
import YulToolchain.Object
import YulToolchain.Table

/-!
# Code of Objects

The code of an object with everything attached to it.

Attachments come first, in order, so that the code of the object can refer to
all of them by name. Where two attachments share a name, the later one is
meant.

## Main definitions

* `Object.compile`: The code of an object, written to a target.
* `overshoot`: How far each function of a program reaches too deep.
-/

namespace YulToolchain

variable {A : Type} [Target A]

mutual

/-- The code of an object, written to a target. -/
def Object.compile (d : Dialect) (namedLabels : Bool) (target : A) : Object → Except Failure A
  | ⟨name, code, attachments⟩ => do
    let (attached, target) ← Attachment.compileSeq d namedLabels [] target attachments
    let scopes ← within ("While analysing object " ++ name) (orFail .analysis (analyze d code))
    let (tooDeep, target) ← generate ⟨d, scopes, ⟨some name, attached⟩, namedLabels⟩ code target
    match tooDeep with
    | [] => return target
    | first :: _ => throw (.of (.stackTooDeep first))

/-- The code of attachments, attached to a target. It returns their numbers by
    name, the latest first, given those of the attachments before. -/
def Attachment.compileSeq (d : Dialect) (namedLabels : Bool) (attached : List (String × Nat))
    (target : A) : List Attachment → Except Failure (List (String × Nat) × A)
  | [] => .ok (attached, target)
  | .object ⟨name, code, inner⟩ :: rest => do
    let sub ← within ("While compiling object " ++ name)
      (Object.compile d namedLabels Target.fresh ⟨name, code, inner⟩)
    let (id, target) := Target.attachCode sub target
    Attachment.compileSeq d namedLabels ((name, id) :: attached) target rest
  | .data name bytes :: rest =>
    let (id, target) := Target.attachData bytes target
    Attachment.compileSeq d namedLabels ((name, id) :: attached) target rest

end

/-- The largest depth that each function reaches too deep. -/
def StackTooDeep.byFunction (errors : List StackTooDeep) : Table String Int :=
  errors.foldl (fun t e => t.update e.function 0 (max e.depth)) .empty

/-- How far each function of a program reaches too deep. Functions that do not
    are left out. Code of a dialect that is not for the machine never does. -/
def overshoot (d : Dialect) (code : Block) : Except Failure (Table String Int) :=
  match d.machine? with
  | none => .ok .empty
  | some m => do
    let d : Dialect := .machine m.noOutput
    let scopes ← orFail .analysis (analyze d code)
    let (errors, _) ← generate ⟨d, scopes, ⟨none, []⟩, false⟩ code (Target.fresh : DryRun)
    return StackTooDeep.byFunction errors

end YulToolchain
