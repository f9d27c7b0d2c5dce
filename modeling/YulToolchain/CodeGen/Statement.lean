import YulToolchain.CodeGen.Expression
import YulToolchain.CodeGen.Frame

/-!
# Code of Statements

Every statement but a declaration leaves the stack as high as it found it, and a
block drops the variables it declares when it ends. Wherever two paths through
the code join, the height is checked. Loose assembly may move the stack as it
likes, so there the heights after expressions and blocks are not.

Scopes are numbered as the analysis numbers them: `next` is always the number of
the first scope that a piece of code opens.

## Main definitions

* `Block.generate`: The code of a block.
* `Stmt.generate`: The code of a statement.
-/

namespace YulToolchain

open Gen

variable {A : Type} [Target A]

namespace Gen

/-- Drops the variables of a block at its end. -/
def closeBlock (c : GenContext) (scope line : Nat) (before : Int) : Gen A Unit := do
  setLine line
  pops (c.scopes.variableCount scope)
  if c.dialect.flavour ≠ .loose then expectHeight line before "block"

/-- Gives declared variables the slots from a height upwards. -/
def declareSlots (c : GenContext) (p : Place) (first : Int) : List TypedName → Gen A Unit
  | [] => pure ()
  | v :: rest => do
    let (d, _) ← lookup c p v.line v.name
    setSlot d first
    declareSlots c p (first + 1) rest

/-- Jumps out of the code of a loop body. -/
def leaveBody (p : Place) (line : Nat) (goal : LoopTargets → Nat) : Gen A Unit :=
  match p.loop with
  | none => violation line .outsideLoop
  | some targets => do
    let popped ← popUntil targets.height
    jumpTo (goal targets) popped

end Gen

mutual

/-- The code of a block whose scope has a number. -/
def Block.generate (c : GenContext) (p : Place) (scope : Nat) : Block → Gen A Unit
  | ⟨line, stmts⟩ => do
    let before ← height
    Stmt.generateSeq c { p with scope } (scope + 1) stmts
    closeBlock c scope line before

/-- The code of statements, one after the other. -/
def Stmt.generateSeq (c : GenContext) (p : Place) (next : Nat) : List Stmt → Gen A Unit
  | [] => pure ()
  | s :: rest => do
    Stmt.generate c p next s
    Stmt.generateSeq c p (next + s.scopeCount) rest

/-- The code of a statement. -/
def Stmt.generate (c : GenContext) (p : Place) (next : Nat) : Stmt → Gen A Unit
  | .expr line e => do
    setLine line
    let before ← height
    e.generate c p
    if c.dialect.flavour ≠ .loose then expectHeight line before "expression statement"
  | .assign line targets value => do
    setLine line
    value.generate c p
    assignVariables c p targets
  | .decl line vars value => do
    setLine line
    let before ← height
    match value with
    | some e => e.generate c p
    | none => zeros vars.length
    expectHeight line (before + vars.length) "variable declaration"
    declareSlots c p before vars
  | .func line name params returns body => do
    setLine line
    let (d, _) ← lookup c p line name
    let entry ← entryOf c d
    -- The position to return to lies at the bottom.
    setSlots next 1 params.reverse
    let entryHeight : Int := 1 + params.length
    let before ← height
    let after ← newLabel
    jumpTo after (entryHeight - before)
    label entry
    setHeight entryHeight
    setSlots next entryHeight returns
    zeros returns.length
    let inside : Place := ⟨next, none, name⟩
    Block.generate c inside (next + 1) body
    expectHeight line (entryHeight + returns.length) "function body"
    unwindFrame inside params.length returns.length
    setLine line
    jump (before - returns.length)
    label after
    expectHeight line before "function definition"
  | .cond line test body => do
    setLine line
    let before ← height
    test.generate c p
    instruction .iszero
    let after ← newLabel
    jumpToIf after
    Block.generate c p next body
    label after
    expectHeight line before "if"
  | .switch line subject cases => do
    setLine line
    let before ← height
    subject.generate c p
    let after ← newLabel
    let bodies ← Case.generateTests c p next cases
    jumpTo after 0
    Case.generateBodies c p next after bodies cases
    label after
    pops 1
    expectHeight line before "switch"
  | .loop line ⟨preLine, pre⟩ test post body => do
    setLine line
    let before ← height
    let inside : Place := { p with scope := next }
    let bodyScope := next + 1 + Stmt.scopeCountSeq pre
    Stmt.generateSeq c inside (next + 1) pre
    let start ← newLabel
    let continued ← newLabel
    let after ← newLabel
    setLine line
    label start
    test.generate c inside
    instruction .iszero
    jumpToIf after
    let targets : LoopTargets := ⟨after, continued, ← height⟩
    Block.generate c { inside with loop := some targets } bodyScope body
    label continued
    Block.generate c inside (bodyScope + body.scopeCount) post
    jumpTo start 0
    label after
    closeBlock c next preLine before
  | .brk line => do
    setLine line
    leaveBody p line LoopTargets.exit
  | .cont line => do
    setLine line
    leaveBody p line LoopTargets.next
  | .block ⟨line, stmts⟩ => do
    setLine line
    Block.generate c p next ⟨line, stmts⟩
  | .label line name => do
    setLine line
    let (d, _) ← lookup c p line name
    label (← labelOf d)
  | .stackAssign line target => do
    setLine line
    assignVariable c p line target.name

/-- The code that compares the subject of a switch with the values of its
    cases. It returns the labels of the bodies of the cases that have a value;
    the body of the default case stands in line. -/
def Case.generateTests (c : GenContext) (p : Place) (next : Nat) : List Case → Gen A (List Nat)
  | [] => pure []
  | ⟨_, none, body⟩ :: rest => do
    Block.generate c p next body
    Case.generateTests c p (next + body.scopeCount) rest
  | ⟨_, some l, body⟩ :: rest => do
    Gen.literal l
    instruction (.dup 1)
    instruction .eq
    let id ← newLabel
    jumpToIf id
    return id :: (← Case.generateTests c p (next + body.scopeCount) rest)

/-- The bodies of the cases that have a value, under their labels. All but the
    last one jump behind the switch. -/
def Case.generateBodies (c : GenContext) (p : Place) (next after : Nat) :
    List Nat → List Case → Gen A Unit
  | id :: ids, ⟨_, some _, body⟩ :: rest => do
    label id
    Block.generate c p next body
    if ids.isEmpty then pure () else jumpTo after 0
    Case.generateBodies c p (next + body.scopeCount) after ids rest
  | ids, ⟨_, none, body⟩ :: rest =>
    Case.generateBodies c p (next + body.scopeCount) after ids rest
  | _, _ => pure ()

end

/-- The code of a program, written to a target. It returns the accesses that
    reach too deep, the first one first; the code is of use only if there are
    none. -/
def generate (c : GenContext) (code : Block) (target : A) :
    Except Failure (List StackTooDeep × A) := do
  let ((), s) ← (code.generate c ⟨0, none, ""⟩ 0).run (.ofTarget target)
  return (s.tooDeep.reverse, s.target)

end YulToolchain
