import YulToolchain.Machine.Instruction
import YulToolchain.Word

/-!
# Assembly Items

What code generation emits: instructions, constants, the positions of labels,
and references to what is only known once the whole assembly is.

A reference always takes four bytes, so the size of an item, and with it the
position of every item, does not depend on what references resolve to.

## Main definitions

* `Reference`: What a reference can stand for.
* `Item`: The items.
* `Item.stackEffect`: How an item changes the height of the stack.
* `Item.size`: How many bytes an item takes.
-/

namespace YulToolchain

/-- What a reference stands for. -/
inductive Reference where
  /-- The position of a label. -/
  | label (id : Nat)
  /-- The size of the whole assembly with its attachments. -/
  | ownSize
  /-- The offset of an attachment. -/
  | offsetOf (id : Nat)
  /-- The size of an attachment. -/
  | sizeOf (id : Nat)
deriving DecidableEq, Repr, Inhabited

/-- What code generation emits. -/
inductive Item where
  /-- An instruction without immediate bytes. -/
  | instruction (i : Instruction)
  /-- A constant, pushed with as few bytes as it needs. -/
  | constant (w : Word)
  /-- The position of a label, which is a jump target. -/
  | label (id : Nat)
  /-- A reference, pushed with four bytes. -/
  | reference (r : Reference)
deriving DecidableEq, Repr, Inhabited

/-- How an instruction changes the height of the stack. -/
def Instruction.stackEffect (i : Instruction) : Int := i.returns - i.args

namespace Item

/-- How an item changes the height of the stack. -/
def stackEffect : Item → Int
  | instruction i => i.stackEffect
  | constant _ => 1
  | label _ => 0
  | reference _ => 1

/-- How many bytes a reference takes behind its opcode. -/
def referenceWidth : Nat := 4

/-- The first number that does not fit into a reference. -/
def referenceLimit : Nat := 0x100000000

/-- How many bytes an item takes. -/
def size : Item → Nat
  | instruction _ => 1
  | constant w => 1 + w.byteWidth
  | label _ => 1
  | reference _ => 1 + referenceWidth

/-- How many bytes some items take. -/
def sizeAll : List Item → Nat
  | [] => 0
  | i :: rest => i.size + sizeAll rest

end Item

end YulToolchain
