import YulToolchain.Analysis
import YulToolchain.Assembly.Target
import YulToolchain.Failure

/-!
# Code in Generation

The state that code generation threads through a program, and the operations on
it that know nothing of statements.

Variables live on the stack. Each has a slot, the height that the stack had when
the variable was put there, for as long as its scope is open. How far below the
top a variable lies is therefore the difference between the height at a place
and its slot.

A variable that lies too deep for the instructions of the machine does not end
code generation. It is recorded, an `invalid` is written in place of the access,
and everything after it is generated as if the access had worked. One run finds
all of them that way.

## Main definitions

* `ObjectNames`: What code can say about objects.
* `GenContext`, `Place`: What stays the same in a program, and at a place.
* `GenState`, `Gen`: The state and the computations over it.
* `Gen.copyVariable`, `Gen.assignVariable`: The two accesses to a variable.
* `Gen.expectHeight`: The check of the height where two paths join.
-/

namespace YulToolchain

/-- What the object builtins refer to. -/
structure ObjectNames where
  /-- The object whose code is generated. -/
  current : Option String
  /-- The numbers of the attachments by name, the latest first. -/
  attached : List (String × Nat)
deriving Repr, Inhabited

/-- What stays the same while the code of an object is generated. -/
structure GenContext where
  /-- The dialect of the code. -/
  dialect : Dialect
  /-- The scopes of the code. -/
  scopes : Scopes
  /-- The objects the code can refer to. -/
  objects : ObjectNames
  /-- Whether the entry of a function gets the label of its name. -/
  namedLabels : Bool

/-- Where the statements of a loop body jump to. -/
structure LoopTargets where
  /-- The label behind the loop. -/
  exit : Nat
  /-- The label of the `post` block. -/
  next : Nat
  /-- The height of the stack at both labels. -/
  height : Int
deriving DecidableEq, Repr

/-- A place in the code. -/
structure Place where
  /-- The scope of the place. -/
  scope : Nat
  /-- The innermost loop whose body the place is in. -/
  loop : Option LoopTargets
  /-- The function the place is in, empty at the top level. -/
  function : String
deriving DecidableEq, Repr

/-- The state of code generation. -/
structure GenState (A : Type) where
  /-- What is written to. -/
  target : A
  /-- The labels of the entries of functions. -/
  entries : List (Declaration × Nat)
  /-- The labels of labels. -/
  labels : List (Declaration × Nat)
  /-- The slots of variables. -/
  slots : List (Declaration × Int)
  /-- The accesses that reach too deep, the latest first. -/
  tooDeep : List StackTooDeep

/-- The state before anything is generated. -/
def GenState.ofTarget {A : Type} (target : A) : GenState A := ⟨target, [], [], [], []⟩

/-- A computation that generates code. -/
abbrev Gen (A α : Type) := StateT (GenState A) (Except Failure) α

/-- The deepest slot that can be copied to the top. -/
def maxCopyDepth : Int := 16

/-- The deepest slot that the top can be moved into. -/
def maxAssignDepth : Int := 17

namespace Gen

variable {A : Type} [Target A]

/-- Breaks code generation off because of a violation at a line. -/
def violation {α : Type} (line : Nat) (fault : InternalFault) : Gen A α :=
  throw (.of (.internal ⟨line, fault⟩))

/-- Turns an error into one of code generation. -/
def orStop {ε α : Type} (cause : ε → Cause) : Except ε α → Gen A α
  | .ok a => pure a
  | .error e => throw (.of (cause e))

/-- Writes to the target. -/
def write (f : A → A) : Gen A Unit := modify fun ⟨target, entries, labels, slots, tooDeep⟩ =>
  ⟨f target, entries, labels, slots, tooDeep⟩

/-- The height of the stack. -/
def height : Gen A Int := do return Target.height (← get).target

/-- Overrides the height of the stack. -/
def setHeight (h : Int) : Gen A Unit := write (Target.setHeight h)

/-- Sets the source line. -/
def setLine (line : Nat) : Gen A Unit := write (Target.setLine line)

/-- Writes an item. -/
def emit (i : Item) : Gen A Unit := write (Target.emit i)

/-- Writes an instruction. -/
def instruction (i : Instruction) : Gen A Unit := emit (.instruction i)

/-- Writes the same item a number of times. -/
def emitTimes (i : Item) : Nat → Gen A Unit
  | 0 => pure ()
  | count + 1 => do
    emit i
    emitTimes i count

/-- Writes zeros. -/
def zeros (count : Nat) : Gen A Unit := emitTimes (.constant 0) count

/-- Drops slots off the top of the stack. -/
def pops (count : Nat) : Gen A Unit := emitTimes (.instruction .pop) count

/-- Marks the position of a label. -/
def label (id : Nat) : Gen A Unit := emit (.label id)

/-- Writes a jump after which the height changes by a difference. -/
def jump (difference : Int) : Gen A Unit := write (Target.jump difference)

/-- Writes a jump to a label after which the height changes by a difference. -/
def jumpTo (id : Nat) (difference : Int) : Gen A Unit := write (Target.jumpTo id difference)

/-- Writes a conditional jump to a label. -/
def jumpToIf (id : Nat) : Gen A Unit := write (Target.jumpToIf id)

/-- Hands out a label. -/
def newLabel : Gen A Nat := do
  let ⟨target, entries, labels, slots, tooDeep⟩ ← get
  let (id, target) := Target.newLabel target
  set (⟨target, entries, labels, slots, tooDeep⟩ : GenState A)
  return id

/-- Hands out the label of a name. -/
def namedLabel (name : String) : Gen A Nat := do
  let ⟨target, entries, labels, slots, tooDeep⟩ ← get
  let (id, target) := Target.namedLabel name target
  set (⟨target, entries, labels, slots, tooDeep⟩ : GenState A)
  return id

/-- What a name refers to at a place. -/
def lookup (c : GenContext) (p : Place) (line : Nat) (name : String) :
    Gen A (Declaration × Symbol) :=
  match c.scopes.lookup p.scope name with
  | some found => pure found
  | none => violation line (.unknownName name)

/-- The label of the entry of a function, the same one every time. -/
def entryOf (c : GenContext) (d : Declaration) : Gen A Nat := do
  match (← get).entries.lookup d with
  | some id => return id
  | none =>
    let id ← if c.namedLabels then namedLabel d.name else newLabel
    modify fun s => { s with entries := (d, id) :: s.entries }
    return id

/-- The label of a declared label, the same one every time. -/
def labelOf (d : Declaration) : Gen A Nat := do
  match (← get).labels.lookup d with
  | some id => return id
  | none =>
    let id ← newLabel
    modify fun s => { s with labels := (d, id) :: s.labels }
    return id

/-- Gives a variable its slot. -/
def setSlot (d : Declaration) (slot : Int) : Gen A Unit :=
  modify fun s => { s with slots := (d, slot) :: s.slots }

/-- Gives variables of a scope the slots from a height upwards. -/
def setSlots (scope : Nat) (first : Int) : List TypedName → Gen A Unit
  | [] => pure ()
  | v :: rest => do
    setSlot ⟨scope, v.name⟩ first
    setSlots scope (first + 1) rest

/-- Records an access that reaches too deep. -/
def reportTooDeep (p : Place) (variableName : String) (depth : Int) : Gen A Unit := do
  modify fun s => { s with tooDeep := ⟨p.function, variableName, depth⟩ :: s.tooDeep }
  instruction .invalid

/-- How far below the top a variable lies, one for the top itself. There is
    none if it is deeper than a limit, which is recorded then; a variable that
    is less deep than `least` breaks the rules of code generation. -/
def distance? (c : GenContext) (p : Place) (line : Nat) (name : String) (least limit : Int) :
    Gen A (Option Int) := do
  let (d, _) ← lookup c p line name
  match (← get).slots.lookup d with
  | none => violation line (.noSlot name)
  | some slot =>
    let distance := (← height) - slot
    if distance < least then violation line (.slotNotBelowTop name distance)
    else if limit < distance then
      reportTooDeep p name (distance - limit)
      return none
    else return some distance

/-- Puts a copy of a variable on the stack. -/
def copyVariable (c : GenContext) (p : Place) (line : Nat) (name : String) : Gen A Unit := do
  match ← distance? c p line name 1 maxCopyDepth with
  | some distance => instruction (← orStop .operand (Instruction.dupOf distance.toNat))
  | none => zeros 1

/-- Moves the top of the stack into a variable. -/
def assignVariable (c : GenContext) (p : Place) (line : Nat) (name : String) : Gen A Unit := do
  match ← distance? c p line name 2 maxAssignDepth with
  | some distance => instruction (← orStop .operand (Instruction.swapOf (distance.toNat - 1)))
  | none => pure ()
  pops 1

/-- Assigns the top of the stack to variables, from the last to the first. -/
def assignVariables (c : GenContext) (p : Place) : List Identifier → Gen A Unit
  | [] => pure ()
  | v :: rest => do
    assignVariables c p rest
    assignVariable c p v.line v.name

/-- Drops slots until the stack has a height, and returns how many. -/
def popUntil (h : Int) : Gen A Int := do
  let count := (← height) - h
  pops count.toNat
  return count

/-- Checks the height of the stack after something. -/
def expectHeight (line : Nat) (expected : Int) (place : String) : Gen A Unit := do
  let actual ← height
  if actual ≠ expected then violation line (.heightMismatch place expected actual)

end Gen

end YulToolchain
