import YulToolchain.Machine.Instruction
import YulToolchain.Text.Hex

/-!
# Disassembly

Bytes as a list of instructions, one to a line.

A push takes the bytes behind it along, as many as there are. A byte that is no
opcode stands for itself.

## Main definitions

* `Decoded`: What is found at an offset.
* `decodeCode`: Bytes as instructions.
* `disassemble`: The lines.
-/

namespace YulToolchain

/-- What is found at an offset of some bytes. -/
inductive Decoded where
  /-- An instruction with its immediate bytes. -/
  | instruction (i : Instruction) (immediate : List UInt8)
  /-- A byte that is no opcode. -/
  | unknown (b : UInt8)
deriving DecidableEq, Repr

namespace Decoded

/-- What some bytes start with, the first of them given apart. -/
def first (b : UInt8) (rest : List UInt8) : Decoded :=
  match Instruction.ofOpcode? b with
  | some i => .instruction i (rest.take i.pushSize)
  | none => .unknown b

/-- How many bytes are taken. -/
def size : Decoded → Nat
  | instruction _ immediate => 1 + immediate.length
  | unknown _ => 1

end Decoded

/-- Bytes as instructions with their offsets, starting at an offset. -/
def decodeFrom (offset : Nat) : List UInt8 → List (Nat × Decoded)
  | [] => []
  | b :: rest =>
    let here := Decoded.first b rest
    (offset, here) :: decodeFrom (offset + here.size) (rest.drop (here.size - 1))
termination_by bytes => bytes.length

/-- Bytes as instructions with their offsets. -/
def decodeCode (code : List UInt8) : List (Nat × Decoded) := decodeFrom 0 code

/-- An offset with at least four hexadecimal digits. -/
def offsetText (offset : Nat) : String :=
  let digits := Nat.toDigits 16 offset
  String.ofList (List.replicate (4 - digits.length) '0' ++ digits)

/-- What is found at an offset, as a line. -/
def Decoded.line (offset : Nat) : Decoded → String
  | .instruction i immediate =>
    offsetText offset ++ " " ++ i.mnemonic
      ++ (if i.isPush then " 0x" ++ Hex.encode immediate else "")
  | .unknown b => offsetText offset ++ " invalid 0x" ++ Hex.encode [b]

/-- Bytes as lines, one instruction to a line. -/
def disassemble (code : List UInt8) : List String :=
  (decodeCode code).map fun (offset, d) => d.line offset

end YulToolchain
