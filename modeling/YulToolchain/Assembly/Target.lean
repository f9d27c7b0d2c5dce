import YulToolchain.Assembly.Item

/-!
# Targets of Code Generation

What code generation writes to. A target keeps the height that the stack has
after what was written, hands out labels, and takes attachments.

There are two targets. `Assembly` keeps everything and can be turned into
bytes. `DryRun` keeps nothing but the height, which is enough to find out
whether code can be generated at all.

## Main definitions

* `Target`: The operations of a target.
* `DryRun`: The target that only keeps the height.
-/

namespace YulToolchain

/-- The operations of a target of code generation. -/
class Target (A : Type) where
  /-- The empty target. -/
  fresh : A
  /-- The height of the stack after what was written. It may be negative. -/
  height : A → Int
  /-- Overrides the height of the stack. -/
  setHeight : Int → A → A
  /-- Writes an item. -/
  emit : Item → A → A
  /-- Hands out a label. -/
  newLabel : A → Nat × A
  /-- Hands out the label of a name. -/
  namedLabel : String → A → Nat × A
  /-- Attaches finished code and returns its number. -/
  attachCode : A → A → Nat × A
  /-- Attaches bytes and returns their number. -/
  attachData : List UInt8 → A → Nat × A
  /-- Sets the source line that is being written. -/
  setLine : Nat → A → A

namespace Target

variable {A : Type} [Target A]

/-- Writes a jump, after which the stack has changed by a difference. -/
def jump (difference : Int) (a : A) : A :=
  let a := emit (.instruction .jump) a
  setHeight (height a + difference) a

/-- Writes a jump to a label, after which the stack has changed by a
    difference. -/
def jumpTo (label : Nat) (difference : Int) (a : A) : A :=
  jump difference (emit (.reference (.label label)) a)

/-- Writes a conditional jump to a label. -/
def jumpToIf (label : Nat) (a : A) : A :=
  emit (.instruction .jumpi) (emit (.reference (.label label)) a)

end Target

/-- The target that only keeps the height of the stack. -/
structure DryRun where
  /-- The height of the stack. -/
  height : Int
  /-- The last label handed out. -/
  lastLabel : Nat
  /-- How many attachments there are. -/
  attachments : Nat
deriving DecidableEq, Repr, Inhabited

namespace DryRun

/-- Hands out a label. -/
def newLabel (a : DryRun) : Nat × DryRun :=
  (a.lastLabel + 1, { a with lastLabel := a.lastLabel + 1 })

/-- Takes an attachment and returns its number. -/
def attach (a : DryRun) : Nat × DryRun :=
  (a.attachments, { a with attachments := a.attachments + 1 })

/-- A label with a name is as good as any other. -/
instance : Target DryRun where
  fresh := ⟨0, 0, 0⟩
  height a := a.height
  setHeight h a := { a with height := h }
  emit i a := { a with height := a.height + i.stackEffect }
  newLabel := newLabel
  namedLabel _ a := a.newLabel
  attachCode _ a := a.attach
  attachData _ a := a.attach
  setLine _ a := a

end DryRun

end YulToolchain
