import YulToolchain.Execution.Halt
import YulToolchain.Table
import YulToolchain.Text.Bytes
import YulToolchain.Word

/-!
# Machine State

What a program can observe and change apart from its variables.

Memory is a row of bytes that grows in whole words whenever bytes beyond its end
are touched. An access of no bytes touches nothing, wherever it is. Bytes are
read and written within memory only, so they have to be touched before. The size
that memory is to grow to is computed in 64 bits. It is zero behind the last word
that there are addresses for, so that memory does not grow at all, and a size of
more than 63 bits can not be had. Storage
maps words to words; what was never written is zero, and only what is not zero
is kept, so two storages with the same content are equal.

## Main definitions

* `TraceEvent`: An interaction with the environment.
* `MachineState`: The state.
* `MachineState.touch`: The bytes behind an access to memory.
* `MachineState.store`, `MachineState.load`: Storage.
-/

namespace YulToolchain

/-- An interaction with the environment: an instruction with its arguments. -/
structure TraceEvent where
  /-- The instruction. -/
  op : Instruction
  /-- Its arguments, the first one first. -/
  args : List Word
deriving DecidableEq, Repr

/-- An interaction as a line. -/
def TraceEvent.line (e : TraceEvent) : String :=
  e.op.mnemonic.map Char.toUpper ++ "(" ++ ", ".intercalate (e.args.map Word.toHex) ++ ")"

/-- What a program can observe and change apart from its variables. -/
structure MachineState where
  /-- The data the program was called with. -/
  calldata : List UInt8
  /-- The memory. -/
  memory : Array UInt8
  /-- The words of storage that are not zero. -/
  storage : Table Word Word
  /-- The interactions so far, in order. -/
  trace : Array TraceEvent
  /-- The data that the program returned. -/
  returnData : List UInt8
deriving DecidableEq

/-- A computation over the machine state. -/
abbrev OnMachine := EStateM Halt MachineState

/-- A range of memory. -/
structure MemoryRange where
  /-- The first address. -/
  start : Nat
  /-- The number of bytes. -/
  size : Nat
deriving DecidableEq, Repr

/-- The number of bytes in a word. -/
def wordSize : Nat := 32

/-- A number of bytes rounded up to whole words. -/
def wholeWords (size : Nat) : Nat := (size + (wordSize - 1)) / wordSize * wordSize

/-- The number of values of an address, a size or a counter. Sizes are computed modulo this
    number. -/
def sizeRange : Nat := UInt64.size

/-- The number of bytes that memory can have. -/
def memoryCapacity : Nat := UInt64.size / 2 - 1

/-- Bytes from an offset on, with zeros beyond their end. -/
def paddedSlice (bytes : List UInt8) (offset size : Nat) : List UInt8 :=
  let found := (bytes.drop offset).take size
  found ++ List.replicate (size - found.length) 0

/-- Puts bytes into a row of bytes from an address on. -/
def writeBytes (memory : Array UInt8) : Nat → List UInt8 → Array UInt8
  | _, [] => memory
  | address, b :: rest => writeBytes (memory.setIfInBounds address b) (address + 1) rest

namespace MachineState

/-- The state before a program runs. -/
def initial (calldata : List UInt8) : MachineState := ⟨calldata, #[], .empty, #[], []⟩

/-- Memory grown to at least a size. -/
def grow (size : Nat) (s : MachineState) : MachineState :=
  { s with memory := s.memory ++ Array.replicate (size - s.memory.size) 0 }

/-- Memory grown to at least a size, if that can be had. -/
def reserve (size : Nat) : OnMachine Unit := do
  if (← get).memory.size < size then
    if size ≤ memoryCapacity then modify (grow size) else throw (.failed (.tooMuchMemory size))

/-- An address, if it is one and not beyond the highest one that may be touched. -/
def address (limits : Limits) (n : Nat) : OnMachine Nat :=
  if n < sizeRange ∧ n ≤ limits.maxMemory then pure n else throw (.failed (.outOfRange n))

/-- The range behind an access to memory, which grows to cover it. -/
def touch (limits : Limits) (offset size : Word) : OnMachine MemoryRange :=
  if size = 0 then pure ⟨0, 0⟩
  else do
    let start ← address limits offset.toNat
    let size ← address limits size.toNat
    let last ← address limits (start + size)
    reserve (wholeWords last % sizeRange)
    return ⟨start, size⟩

/-- Stops if a range is not within memory. -/
def within (r : MemoryRange) : OnMachine Unit := do
  let size := (← get).memory.size
  if r.start + r.size ≤ size then pure ()
  else throw (.failed (.outsideMemory (r.start + r.size) size))

/-- The bytes in a range of memory. -/
def read (r : MemoryRange) : OnMachine (List UInt8) := do
  within r
  return ((← get).memory.extract r.start (r.start + r.size)).toList

/-- Puts bytes into memory. -/
def write (start : Nat) (bytes : List UInt8) : OnMachine Unit := do
  within ⟨start, bytes.length⟩
  modify fun s => { s with memory := writeBytes s.memory start bytes }

/-- Fills a range of memory with zeros. -/
def clear (r : MemoryRange) : OnMachine Unit := write r.start (List.replicate r.size 0)

/-- The word in storage at a key. -/
def load (key : Word) (s : MachineState) : Word := (s.storage.get? key).getD 0

/-- Puts a word into storage. -/
def store (key value : Word) (s : MachineState) : MachineState :=
  { s with storage := if value = 0 then s.storage.erase key else s.storage.insert key value }

/-- Records an interaction. -/
def record (op : Instruction) (args : List Word) : OnMachine Unit :=
  modify fun s => { s with trace := s.trace.push ⟨op, args⟩ }

/-- Ends execution. -/
def finish {α : Type} (t : Termination) : OnMachine α := throw (.ended t)

end MachineState

end YulToolchain
