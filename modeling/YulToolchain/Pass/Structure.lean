import YulToolchain.Flow.Traversal
import YulToolchain.Pass.Flatten

/-!
# Simplifying Control Flow

Control flow whose outcome is known is removed: a conditional with a constant
condition becomes its body or nothing, a switch on a constant becomes the case
that is selected, and a loop that is never entered becomes its initialisation.

What is known of a loop condition describes the state before the
initialisation, so it counts only if the initialisation does not touch what the
condition refers to.

## Main definitions

* `selectCase?`: The case that a value selects.
* `Pass.simplifyStructure`: The pass.
-/

namespace YulToolchain

/-- Whether a case has a value. -/
def Case.selects (w : Word) (c : Case) : Bool :=
  c.value.any fun l => l.value.toOption == some w

/-- The case that a value selects: the first one with that value, or else the
    default. -/
def selectCase? (w : Word) (cases : List Case) : Option Case :=
  (cases.find? (Case.selects w)).or (cases.find? (·.value.isNone))

namespace Pass

/-- Whether the initialisation of a loop writes or declares something that its
    condition refers to. -/
def changedByInit (pre : Block) (test : Expr) : Bool :=
  !pre.stmts.isEmpty &&
    test.references.any fun name => pre.assigned.contains name || pre.declared.contains name

/-- What takes the place of a statement whose outcome is known. -/
def simplifyStructureStmt (declared : List String) (known : Known) : Stmt → Option (List Stmt)
  | .cond _ test body => (known.constant? test).map fun w =>
    if w = 0 then [] else body.inlineOrKeep declared
  | .switch _ subject cases => (known.constant? subject).map fun w =>
    match selectCase? w cases with
    | some c => c.body.inlineOrKeep declared
    | none => []
  | .loop _ pre test _ _ =>
    if changedByInit pre test then none
    else match known.constant? test with
      | some w => if w = 0 then some (pre.inlineOrKeep declared) else none
      | none => none
  | _ => none

/-- The policy that removes control flow, given all declarations of the
    program. -/
def structurePolicy (declared : List String) : Policy Unit :=
  { Policy.idle Unit with
    replace := fun known s own => (simplifyStructureStmt declared known s, own) }

/-- Removes control flow whose outcome is known. The typed dialect has no
    numbers to decide by and is left alone. -/
def simplifyStructure (d : Dialect) (code : Block) : Block :=
  if d.machine?.isSome then (Flow.run d (structurePolicy code.declared) () code).1 else code

end Pass

end YulToolchain
