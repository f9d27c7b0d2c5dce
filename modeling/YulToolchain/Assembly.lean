import YulToolchain.Assembly.Target
import YulToolchain.Failure
import YulToolchain.Table

/-!
# Assemblies

The target that keeps what is written, and the bytes it stands for.

The bytes of an assembly are those of its items, followed by its attachments in
the order in which they were attached: the bytes of attached data, and the
finished bytes of attached assemblies. References are resolved last, when all
sizes are known.

## Main definitions

* `Assembly`, `Attached`: Assemblies and what is attached to them.
* `labelPositions`: The positions of the labels.
* `Assembly.finish`: The bytes of an assembly.
-/

namespace YulToolchain

mutual

/-- Code in the making. -/
structure Assembly where
  /-- What was written, in order. -/
  items : Array Item
  /-- The height of the stack. -/
  height : Int
  /-- The last label handed out. -/
  lastLabel : Nat
  /-- The labels of names. -/
  named : List (String × Nat)
  /-- What is attached, in order. -/
  attachments : List Attached
  /-- The source line that was written last. -/
  line : Nat

/-- What can be attached to an assembly. -/
inductive Attached where
  /-- An assembly of its own. -/
  | code (a : Assembly)
  /-- Bytes. -/
  | data (bytes : List UInt8)

end

/-- The first label of some items that has a position already. -/
def duplicateLabel? : List Nat → List Item → Option Nat
  | _, [] => none
  | seen, .label id :: rest =>
    if seen.contains id then some id else duplicateLabel? (id :: seen) rest
  | seen, _ :: rest => duplicateLabel? seen rest

/-- The positions of the labels in some items that start at a position. -/
def labelPositions : Nat → List Item → List (Nat × Nat)
  | _, [] => []
  | position, .label id :: rest =>
    (id, position) :: labelPositions (position + (Item.label id).size) rest
  | position, i :: rest => labelPositions (position + i.size) rest

/-- What references resolve to. -/
structure Layout where
  /-- The positions of the labels. -/
  labels : List (Nat × Nat)
  /-- The offset and size of each attachment. -/
  attachments : List (Nat × Nat)
  /-- The size of the whole assembly. -/
  total : Nat

/-- The offset and size of each attachment, given the sizes and where the first
    one starts. -/
def placeAttachments : Nat → List Nat → List (Nat × Nat)
  | _, [] => []
  | offset, size :: rest => (offset, size) :: placeAttachments (offset + size) rest

/-- What a reference resolves to. -/
def Layout.resolve (l : Layout) : Reference → Except InternalFault Nat
  | .label id => match l.labels.lookup id with
    | some position => .ok position
    | none => .error (.undefinedLabel id)
  | .ownSize => .ok l.total
  | .offsetOf id => match l.attachments[id]? with
    | some (offset, _) => .ok offset
    | none => .error (.unknownAttachment id)
  | .sizeOf id => match l.attachments[id]? with
    | some (_, size) => .ok size
    | none => .error (.unknownAttachment id)

/-- The opcode of the push of some bytes, of which there are between one and
    thirty-two. -/
def pushOpcode (width : Nat) : UInt8 := UInt8.ofNat (0x5f + width)

/-- The bytes of an item. `line` is the line to blame. -/
def Item.bytes (l : Layout) (line : Nat) : Item → Except Failure (List UInt8)
  | .instruction i => .ok [i.opcode]
  | .constant w => .ok (pushOpcode w.byteWidth :: w.minimalBytes)
  | .label _ => .ok [Instruction.jumpdest.opcode]
  | .reference r => do
    let value ← orFail (fun fault => .internal ⟨line, fault⟩) (l.resolve r)
    if value < referenceLimit then
      return pushOpcode referenceWidth :: Word.bytesOfNat referenceWidth value
    else throw (.of .tooLarge)

mutual

/-- The bytes of an assembly with its attachments. -/
def Assembly.finish : Assembly → Except Failure (List UInt8)
  | ⟨items, _, _, _, attachments, line⟩ => do
    let items := items.toList
    if let some id := duplicateLabel? [] items then
      throw (.of (.internal ⟨line, .labelDefinedTwice id⟩))
    let parts ← within "While finalizing sub-assemblies" (Attached.finishAll attachments)
    let ownSize := Item.sizeAll items
    let places := placeAttachments ownSize (parts.map List.length)
    let total := ownSize + parts.flatten.length
    let own ← items.mapM (Item.bytes ⟨labelPositions 0 items, places, total⟩ line)
    return own.flatten ++ parts.flatten

/-- The bytes of each attachment. -/
def Attached.finishAll : List Attached → Except Failure (List (List UInt8))
  | [] => .ok []
  | .code a :: rest => do
    let bytes ← a.finish
    return bytes :: (← Attached.finishAll rest)
  | .data bytes :: rest => do return bytes :: (← Attached.finishAll rest)

end

namespace Assembly

/-- Hands out a label. -/
def newLabel (a : Assembly) : Nat × Assembly :=
  (a.lastLabel + 1, { a with lastLabel := a.lastLabel + 1 })

/-- Hands out the label of a name, the same one every time. -/
def namedLabel (name : String) (a : Assembly) : Nat × Assembly :=
  match a.named.lookup name with
  | some id => (id, a)
  | none =>
    let (id, a) := a.newLabel
    (id, { a with named := (name, id) :: a.named })

/-- Takes an attachment and returns its number. -/
def attach (what : Attached) (a : Assembly) : Nat × Assembly :=
  (a.attachments.length, { a with attachments := a.attachments ++ [what] })

instance : Target Assembly where
  fresh := ⟨#[], 0, 0, [], [], 0⟩
  height a := a.height
  setHeight h a := { a with height := h }
  emit i a := { a with items := a.items.push i, height := a.height + i.stackEffect }
  newLabel := newLabel
  namedLabel := namedLabel
  attachCode sub := attach (.code sub)
  attachData bytes := attach (.data bytes)
  setLine line a := { a with line }

end Assembly

end YulToolchain
