import YulToolchain.Proofs.Execution.Environment
import YulToolchain.Proofs.Execution.Outcome
import YulToolchain.Proofs.Machine.Arithmetic
import Mathlib.Tactic.Common

/-!
# What Instructions Can Do

What is common to the execution of all instructions.

With as many arguments as it takes, an instruction either leaves as many values as
its table says or halts in one of the allowed ways. A movable instruction does even
less: it does not change the state at all, and its value depends on its arguments
and on the call data alone.

Whatever an instruction does to the machine, and however it ends, the data that the
program was called with stay the same, memory and trace only grow, and what is said of
an orderly machine stays true. Every range of memory that an instruction reads or
writes was touched just before. So it is within memory, provided that memory can have
all the words below its limit.

## Main definitions

* `Limits.MemoryFits`: Memory can have all the words below its limit.

* `MachineState.Orderly`: Memory is in whole words and within its limit, and storage
  holds no zeros.
* `MachineState.Advances`: What any instruction may do to the machine.
* `Performs`: An effect has a value with a property and lets the machine advance.

## Theorems

* `MachineState.touch_cases`: A range that was touched is within memory.
* `Instruction.execute_performs`: The number of values of an instruction.
* `Instruction.execute_advances`: All instructions let the machine advance.
* `Instruction.execute_contained`: No instruction leaves memory, if memory fits.
* `Instruction.execute_movable`: A movable instruction has the same value in every
  state.
-/

namespace YulToolchain

section Sizes

@[simp]
theorem length_paddedSlice (bytes : List UInt8) (offset size : Nat) :
    (paddedSlice bytes offset size).length = size := by
  simp only [paddedSlice, List.length_append, List.length_take, List.length_replicate]
  omega

/-- Writing bytes keeps the size of memory. -/
@[simp]
theorem size_writeBytes : ∀ (bytes : List UInt8) (memory : Array UInt8) (start : Nat),
    (writeBytes memory start bytes).size = memory.size
  | [], _, _ => rfl
  | b :: rest, memory, start => by
      rw [writeBytes, size_writeBytes rest, Array.size_setIfInBounds]

theorem le_wholeWords (size : Nat) : size ≤ wholeWords size := by
  simp only [wholeWords, wordSize]
  omega

theorem wholeWords_mono {size size' : Nat} (h : size ≤ size') :
    wholeWords size ≤ wholeWords size' := by
  simp only [wholeWords, wordSize]
  omega

theorem dvd_wholeWords (size : Nat) : wordSize ∣ wholeWords size := Nat.dvd_mul_left _ _

end Sizes

/-- Memory can have all the words that are not entirely above its limit. -/
def Limits.MemoryFits (limits : Limits) : Prop := wholeWords limits.maxMemory ≤ memoryCapacity

instance (limits : Limits) : Decidable limits.MemoryFits :=
  inferInstanceAs (Decidable (_ ≤ _))

namespace Limits.MemoryFits

variable {limits : Limits} {last : Nat}

theorem wholeWords_le (h : limits.MemoryFits) (hlast : last ≤ limits.maxMemory) :
    wholeWords last ≤ memoryCapacity :=
  Nat.le_trans (wholeWords_mono hlast) h

theorem wholeWords_mod (h : limits.MemoryFits) (hlast : last ≤ limits.maxMemory) :
    wholeWords last % sizeRange = wholeWords last :=
  Nat.mod_eq_of_lt (Nat.lt_of_le_of_lt (h.wholeWords_le hlast) (by decide))

end Limits.MemoryFits

namespace MachineState

/-- Memory is in whole words and ends where the last word below its limit ends, and no entry
    of storage is zero. -/
structure Orderly (limits : Limits) (s : MachineState) : Prop where
  whole : wordSize ∣ s.memory.size
  bounded : s.memory.size ≤ wholeWords limits.maxMemory
  storage : ∀ entry ∈ s.storage.entries, entry.2 ≠ 0

/-- The call data stay the same, memory and trace only grow, and an orderly machine stays
    orderly. -/
structure Advances (limits : Limits) (s t : MachineState) : Prop where
  calldata : t.calldata = s.calldata
  memory : s.memory.size ≤ t.memory.size
  trace : s.trace.toList <+: t.trace.toList
  orderly : s.Orderly limits → t.Orderly limits

variable {limits : Limits} {s t u : MachineState}

theorem Orderly.initial (calldata : List UInt8) : (initial calldata).Orderly limits :=
  ⟨Nat.dvd_zero _, Nat.zero_le _, fun _ h => absurd h List.not_mem_nil⟩

theorem Advances.refl (s : MachineState) : s.Advances limits s :=
  ⟨rfl, Nat.le_refl _, List.prefix_refl _, id⟩

theorem Advances.trans (h : s.Advances limits t) (h' : t.Advances limits u) :
    s.Advances limits u :=
  ⟨h'.calldata.trans h.calldata, Nat.le_trans h.memory h'.memory, h.trace.trans h'.trace,
    h'.orderly ∘ h.orderly⟩

theorem size_grow (size : Nat) (s : MachineState) :
    (grow size s).memory.size = max s.memory.size size := by
  simp only [grow, Array.size_append, Array.size_replicate]
  omega

/-- Growing memory to whole words below the limit. -/
theorem Advances.grow {size : Nat} (hwhole : wordSize ∣ size)
    (hbounded : size ≤ wholeWords limits.maxMemory) : s.Advances limits (grow size s) := by
  have hsize := size_grow size s
  refine ⟨rfl, hsize ▸ Nat.le_max_left _ _, List.prefix_refl _, fun ho => ⟨?_, ?_, ho.storage⟩⟩
  · rw [hsize]
    rcases Nat.le_total s.memory.size size with hle | hle
    · rw [Nat.max_eq_right hle]
      exact hwhole
    · rw [Nat.max_eq_left hle]
      exact ho.whole
  · rw [hsize]
    exact Nat.max_le.mpr ⟨ho.bounded, hbounded⟩

/-- Replacing bytes of memory. -/
theorem Advances.write (start : Nat) (bytes : List UInt8) :
    s.Advances limits { s with memory := writeBytes s.memory start bytes } :=
  ⟨rfl, Nat.le_of_eq (size_writeBytes bytes s.memory start).symm, List.prefix_refl _, fun ho =>
    ⟨(size_writeBytes bytes s.memory start).symm ▸ ho.whole,
      (size_writeBytes bytes s.memory start).symm ▸ ho.bounded, ho.storage⟩⟩

/-- Zeros are not stored but erased. -/
theorem Advances.store (key value : Word) : s.Advances limits (store key value s) := by
  refine ⟨rfl, Nat.le_refl _, List.prefix_refl _, fun ho => ⟨ho.whole, ho.bounded, ?_⟩⟩
  intro entry hentry
  simp only [MachineState.store] at hentry
  by_cases hvalue : value = 0
  · rw [if_pos hvalue] at hentry
    exact ho.storage entry (List.mem_of_mem_filter hentry)
  · rw [if_neg hvalue] at hentry
    rcases Table.mem_insertEntry hentry with hnew | hold
    · rw [hnew]
      exact hvalue
    · exact ho.storage entry hold

/-- A range is within memory. -/
def Spans (s : MachineState) (r : MemoryRange) : Prop := r.start + r.size ≤ s.memory.size

/-- Reserving memory leaves at least the size that was asked for, or fails because that can not
    be had. -/
theorem reserve_cases {size : Nat} (hwhole : wordSize ∣ size)
    (hbounded : size ≤ wholeWords limits.maxMemory) (s : MachineState) :
    (memoryCapacity < size ∧ reserve size s = .error (.failed (.tooMuchMemory size)) s) ∨
    ∃ t, reserve size s = .ok () t ∧ size ≤ t.memory.size ∧ s.Advances limits t := by
  have hget : (get : OnMachine MachineState) s = .ok s s := rfl
  simp only [reserve, Bind.bind, EStateM.bind, hget]
  by_cases hgrows : s.memory.size < size
  · by_cases hcapacity : size ≤ memoryCapacity
    · rw [if_pos hgrows, if_pos hcapacity]
      exact Or.inr ⟨grow size s, rfl, size_grow size s ▸ Nat.le_max_right _ _,
        .grow hwhole hbounded⟩
    · rw [if_pos hgrows, if_neg hcapacity]
      exact Or.inl ⟨Nat.lt_of_not_le hcapacity, rfl⟩
  · rw [if_neg hgrows]
    exact Or.inr ⟨s, rfl, Nat.le_of_not_lt hgrows, .refl s⟩

/-- An address is reported or allowed. -/
theorem address_cases (limits : Limits) (n : Nat) (s : MachineState) :
    address limits n s = .error (.failed (.outOfRange n)) s ∨
      n ≤ limits.maxMemory ∧ address limits n s = .ok n s := by
  rw [address]
  by_cases h : n < sizeRange ∧ n ≤ limits.maxMemory
  · rw [if_pos h]
    exact Or.inr ⟨h.2, rfl⟩
  · rw [if_neg h]
    exact Or.inl rfl

/-- A range that was touched has the size that was asked for. It is within memory if memory
    fits, and in this case there is nothing that can not be had. -/
theorem touch_cases (limits : Limits) (offset size : Word) (s : MachineState) :
    (∃ n, touch limits offset size s = .error (.failed (.outOfRange n)) s) ∨
    (¬ limits.MemoryFits ∧ ∃ n, touch limits offset size s
      = .error (.failed (.tooMuchMemory n)) s) ∨
    ∃ r t, touch limits offset size s = .ok r t ∧ r.size = size.toNat ∧
      (limits.MemoryFits → t.Spans r) ∧ s.Advances limits t := by
  simp only [touch]
  -- Nothing is touched without bytes.
  by_cases hsize : size = 0
  · rw [if_pos hsize]
    exact Or.inr (Or.inr ⟨_, s, rfl, hsize ▸ rfl, fun _ => Nat.zero_le _, .refl s⟩)
  rw [if_neg hsize]
  simp only [Bind.bind, EStateM.bind]
  -- The start, the number of bytes and the end are checked one after the other.
  rcases address_cases limits offset.toNat s with hstart | ⟨-, hstart⟩
  · simp only [hstart]
    exact Or.inl ⟨_, rfl⟩
  rcases address_cases limits size.toNat s with hcount | ⟨-, hcount⟩
  · simp only [hstart, hcount]
    exact Or.inl ⟨_, rfl⟩
  rcases address_cases limits (offset.toNat + size.toNat) s with hlast | ⟨hle, hlast⟩
  · simp only [hstart, hcount, hlast]
    exact Or.inl ⟨_, rfl⟩
  simp only [hstart, hcount, hlast]
  -- The size that is reserved is whole, even where the product wraps.
  have hwhole : wordSize ∣ wholeWords (offset.toNat + size.toNat) % sizeRange :=
    (Nat.dvd_mod_iff (by decide)).mpr (dvd_wholeWords _)
  have hbounded := Nat.le_trans (Nat.mod_le _ sizeRange) (wholeWords_mono hle)
  rcases reserve_cases hwhole hbounded s with ⟨hcapacity, hreserve⟩ | ⟨t, hreserve, ht, hadvances⟩
  · rw [hreserve]
    -- Not enough room: excluded where memory fits.
    refine Or.inr (Or.inl ⟨fun hfits => ?_, _, rfl⟩)
    rw [hfits.wholeWords_mod hle] at hcapacity
    exact Nat.not_le.mpr hcapacity (hfits.wholeWords_le hle)
  · rw [hreserve]
    -- Reserved: where memory fits nothing wraps, so the range is covered.
    refine Or.inr (Or.inr ⟨_, t, rfl, rfl, fun hfits => ?_, hadvances⟩)
    rw [hfits.wholeWords_mod hle] at ht
    exact Nat.le_trans (le_wholeWords _) ht

/-- A range is within memory or it is reported. -/
theorem within_cases (r : MemoryRange) (s : MachineState) : s.Spans r ∧ within r s = .ok () s ∨
    ¬ s.Spans r ∧
      within r s = .error (.failed (.outsideMemory (r.start + r.size) s.memory.size)) s := by
  have hget : (get : OnMachine MachineState) s = .ok s s := rfl
  simp only [within, Bind.bind, EStateM.bind, hget]
  by_cases h : r.start + r.size ≤ s.memory.size
  · rw [if_pos h]
    exact Or.inl ⟨h, rfl⟩
  · rw [if_neg h]
    exact Or.inr ⟨h, rfl⟩

end MachineState

/-- The machine after an effect, whether that has a value or halts. -/
def finalMachine {α : Type} : EStateM.Result Halt MachineState α → MachineState
  | .ok _ s => s
  | .error _ s => s

/-- An effect on the machine has a value with a property, or it halts in an allowed way, and
    the machine advances. If memory fits, the interpreter does not break off. -/
structure Performs {α : Type} (limits : Limits) (s : MachineState)
    (r : EStateM.Result Halt MachineState α) (Q : α → Prop) : Prop where
  ends : match r with
    | .ok a _ => Q a
    | .error halt _ => halt.Allowed
  advances : s.Advances limits (finalMachine r)
  contained : limits.MemoryFits → ∀ halt t, r = .error halt t → halt.breaksOff = false

namespace Performs

open MachineState

variable {α β : Type} {P : α → Prop} {Q : β → Prop} {limits : Limits} {s t : MachineState}

/-- What comes before an effect counts as well. -/
theorem after {r : EStateM.Result Halt MachineState β} (h : Performs limits t r Q)
    (ht : s.Advances limits t) : Performs limits s r Q :=
  ⟨h.ends, ht.trans h.advances, h.contained⟩

theorem ok {a : α} (h : P a) (ht : s.Advances limits t) :
    Performs limits s (.ok a t : EStateM.Result Halt MachineState α) P := ⟨h, ht, nofun⟩

/-- An effect that halts without having changed anything. -/
theorem error {halt : Halt} (h : halt.Allowed)
    (hcontained : limits.MemoryFits → halt.breaksOff = false) :
    Performs limits s (.error halt s : EStateM.Result Halt MachineState α) P :=
  ⟨h, .refl s, by rintro hfits _ _ ⟨⟩; exact hcontained hfits⟩

/-- Two parts of an operation. -/
theorem bind {m : OnMachine α} {f : α → OnMachine β} (hm : Performs limits s (m s) P)
    (hf : ∀ a t, P a → Performs limits t (f a t) Q) : Performs limits s ((m >>= f) s) Q := by
  simp only [Bind.bind, EStateM.bind]
  cases hr : m s with
  | ok a t =>
      rw [hr] at hm
      exact (hf a t hm.ends).after hm.advances
  | error halt t =>
      rw [hr] at hm
      refine ⟨hm.ends, hm.advances, ?_⟩
      rintro hfits _ _ ⟨⟩
      exact hm.contained hfits _ _ rfl

theorem pure {a : α} (h : P a) : Performs limits s ((Pure.pure a : OnMachine α) s) P :=
  ok h (.refl s)

/-- An effect whose value does not matter. -/
theorem next {m : OnMachine α} {f : α → OnMachine β} (hm : Performs limits s (m s) fun _ => True)
    (hf : ∀ a t, Performs limits t (f a t) Q) : Performs limits s ((m >>= f) s) Q :=
  hm.bind fun a t _ => hf a t

theorem get {f : MachineState → OnMachine β} (hf : Performs limits s (f s s) Q) :
    Performs limits s ((get >>= f) s) Q := hf

/-- What follows on touching a range can rely on it being within memory if memory fits. -/
theorem touch {offset size : Word} {f : MemoryRange → OnMachine β}
    (hf : ∀ r t, r.size = size.toNat → (limits.MemoryFits → t.Spans r) →
      Performs limits t (f r t) Q) :
    Performs limits s ((touch limits offset size >>= f) s) Q := by
  simp only [Bind.bind, EStateM.bind]
  rcases touch_cases limits offset size s with ⟨n, herror⟩ | ⟨hfits, n, herror⟩ |
    ⟨r, t, hr, hsize, hwithin, ht⟩
  · rw [herror]
    exact error trivial fun _ => rfl
  · rw [herror]
    exact error rfl fun h => absurd h hfits
  · rw [hr]
    exact (hf r t hsize hwithin).after ht

/-- What follows on the check of a range that is within memory if memory fits. -/
theorem checked {r : MemoryRange} {f : Unit → OnMachine β} (h : limits.MemoryFits → s.Spans r)
    (hf : Performs limits s (f () s) Q) :
    Performs limits s ((MachineState.within r >>= f) s) Q := by
  simp only [Bind.bind, EStateM.bind]
  rcases within_cases r s with ⟨-, hok⟩ | ⟨houtside, herror⟩
  · rw [hok]
    exact hf
  · rw [herror]
    exact error rfl fun hfits => absurd (h hfits) houtside

theorem read {r : MemoryRange} (h : limits.MemoryFits → s.Spans r) :
    Performs limits s (read r s) fun _ => True :=
  checked h (ok trivial (.refl s))

theorem write {start : Nat} {bytes : List UInt8}
    (h : limits.MemoryFits → s.Spans ⟨start, bytes.length⟩) :
    Performs limits s (write start bytes s) fun _ => True :=
  checked h (ok trivial (.write start bytes))

/-- An operation is recorded. -/
theorem record {op : Instruction} {args : List Word} :
    Performs limits s (record op args s) fun _ => True := by
  have htrace : (s.trace.push ⟨op, args⟩).toList = s.trace.toList ++ [⟨op, args⟩] :=
    Array.toList_push
  exact ok trivial ⟨rfl, Nat.le_refl _, htrace ▸ List.prefix_append _ _,
    fun h => ⟨h.whole, h.bounded, h.storage⟩⟩

theorem store {key value : Word} :
    Performs limits s ((modify (MachineState.store key value) : OnMachine PUnit) s)
      fun _ => True := ok trivial (.store key value)

theorem returned {bytes : List UInt8} :
    Performs limits s ((modify fun s => { s with returnData := bytes } : OnMachine PUnit) s)
      fun _ => True :=
  ok trivial ⟨rfl, Nat.le_refl _, List.prefix_refl _, fun h => ⟨h.whole, h.bounded, h.storage⟩⟩

theorem finish {t : Termination} : Performs limits s ((finish t : OnMachine α) s) P :=
  error trivial fun _ => rfl

end Performs

namespace Instruction

open MachineState (Spans)
open Performs

section Arguments

variable {args : List Word}

theorem one_argument (h : args.length = 1) : ∃ a, args = [a] :=
  match args, h with
  | [_], _ => ⟨_, rfl⟩

theorem two_arguments (h : args.length = 2) : ∃ a b, args = [a, b] :=
  match args, h with
  | [_, _], _ => ⟨_, _, rfl⟩

theorem three_arguments (h : args.length = 3) : ∃ a b c, args = [a, b, c] :=
  match args, h with
  | [_, _, _], _ => ⟨_, _, _, rfl⟩

theorem four_arguments (h : args.length = 4) : ∃ a b c d, args = [a, b, c, d] :=
  match args, h with
  | [_, _, _, _], _ => ⟨_, _, _, _, rfl⟩

theorem six_arguments (h : args.length = 6) : ∃ a b c d e f, args = [a, b, c, d, e, f] :=
  match args, h with
  | [_, _, _, _, _, _], _ => ⟨_, _, _, _, _, _, rfl⟩

theorem seven_arguments (h : args.length = 7) : ∃ a b c d e f g, args = [a, b, c, d, e, f, g] :=
  match args, h with
  | [_, _, _, _, _, _, _], _ => ⟨_, _, _, _, _, _, _, rfl⟩

end Arguments

/-- Execution with the right number of arguments. -/
theorem execute_eq {limits : Limits} {op : Instruction} {args : List Word}
    (h : args.length = op.args) : op.execute limits args = match op.evaluate args with
      | some value => pure (some value)
      | none => op.perform limits args :=
  if_neg (not_not.mpr h)

/-- Every instruction performs what it can, and leaves as many words as it says. -/
theorem execute_performs (limits : Limits) {op : Instruction} {args : List Word}
    (hstack : op.isStackManipulation = false) (hargs : args.length = op.args) (s : MachineState) :
    Performs limits s (op.execute limits args s) fun r => r.toList.length = op.returns := by
  rw [execute_eq hargs]
  -- The cases go by the number of arguments, and by what is touched.
  cases op
  case iszero | not =>
    obtain ⟨a, rfl⟩ := one_argument hargs
    exact Performs.pure rfl
  case add | mul | sub | div | sdiv | mod | smod | exp | signextend | lt | gt | slt | sgt | eq | and
      | or | xor | byte | shl | shr | sar =>
    obtain ⟨a, b, rfl⟩ := two_arguments hargs
    exact Performs.pure rfl
  case addmod | mulmod =>
    obtain ⟨a, b, c, rfl⟩ := three_arguments hargs
    exact Performs.pure rfl
  case keccak256 =>
    obtain ⟨offset, size, rfl⟩ := two_arguments hargs
    exact touch fun _ _ _ hr => (read hr).next fun _ _ => Performs.pure rfl
  case calldataload =>
    obtain ⟨offset, rfl⟩ := one_argument hargs
    exact Performs.get (Performs.pure rfl)
  case calldatasize =>
    obtain rfl := List.eq_nil_of_length_eq_zero hargs
    exact Performs.get (Performs.pure rfl)
  case calldatacopy =>
    obtain ⟨target, offset, size, rfl⟩ := three_arguments hargs
    -- What is copied is as long as the range.
    refine touch fun r t _ hr => Performs.get ((write ?_).next fun _ _ => Performs.pure rfl)
    rwa [length_paddedSlice]
  case codecopy | returndatacopy =>
    obtain ⟨target, offset, size, rfl⟩ := three_arguments hargs
    refine record.next fun _ _ => touch fun r t _ hr => (write ?_).next fun _ _ => Performs.pure rfl
    rwa [List.length_replicate]
  case extcodecopy =>
    obtain ⟨address, target, offset, size, rfl⟩ := four_arguments hargs
    refine record.next fun _ _ => touch fun r t _ hr => (write ?_).next fun _ _ => Performs.pure rfl
    rwa [List.length_replicate]
  case mload =>
    obtain ⟨offset, rfl⟩ := one_argument hargs
    exact touch fun _ _ _ hr => (read hr).next fun _ _ => Performs.pure rfl
  case mstore =>
    obtain ⟨offset, value, rfl⟩ := two_arguments hargs
    refine touch fun r t hsize hr => ?_
    -- The range is one word long.
    have hword : limits.MemoryFits → t.Spans ⟨r.start, value.toBytes.length⟩ := by
      rw [Spans, hsize] at hr
      rwa [Spans, Word.toBytes, Word.length_bytesOfNat]
    exact (write hword).next fun _ _ => Performs.pure rfl
  case mstore8 =>
    obtain ⟨offset, value, rfl⟩ := two_arguments hargs
    refine touch fun r t hsize hr => ?_
    -- The range is one byte long.
    have hbyte : limits.MemoryFits → t.Spans ⟨r.start, 1⟩ := by rwa [Spans, hsize] at hr
    exact (write hbyte).next fun _ _ => Performs.pure rfl
  case msize =>
    obtain rfl := List.eq_nil_of_length_eq_zero hargs
    exact Performs.get (Performs.pure rfl)
  case sload =>
    obtain ⟨key, rfl⟩ := one_argument hargs
    exact Performs.get (Performs.pure rfl)
  case sstore =>
    obtain ⟨key, value, rfl⟩ := two_arguments hargs
    exact store.next fun _ _ => Performs.pure rfl
  case pop =>
    obtain ⟨value, rfl⟩ := one_argument hargs
    exact Performs.pure rfl
  case log k =>
    match args, hargs with
    | _ :: _ :: _, _ => exact touch fun _ _ _ _ => record.next fun _ _ => Performs.pure rfl
  case create =>
    obtain ⟨value, offset, size, rfl⟩ := three_arguments hargs
    exact touch fun _ _ _ _ => record.next fun _ _ => Performs.pure rfl
  case create2 =>
    obtain ⟨value, offset, size, salt, rfl⟩ := four_arguments hargs
    exact touch fun _ _ _ _ => record.next fun _ _ => Performs.pure rfl
  -- Both the input and the output are touched.
  case call | callcode =>
    obtain ⟨gas, address, value, input, inputSize, output, outputSize, rfl⟩ :=
      seven_arguments hargs
    exact touch fun _ _ _ _ => touch fun _ _ _ _ => record.next fun _ _ => Performs.pure rfl
  case delegatecall | staticcall =>
    obtain ⟨gas, address, input, inputSize, output, outputSize, rfl⟩ := six_arguments hargs
    exact touch fun _ _ _ _ => touch fun _ _ _ _ => record.next fun _ _ => Performs.pure rfl
  case ret | revert =>
    obtain ⟨offset, size, rfl⟩ := two_arguments hargs
    exact touch fun _ _ _ hr => (read hr).next fun _ _ => returned.next fun _ _ =>
      record.next fun _ _ => finish
  case stop | invalid | selfdestruct => exact record.next fun _ _ => finish
  case address | balance | origin | caller | callvalue | codesize | gasprice | extcodesize
      | returndatasize | extcodehash | blockhash | coinbase | timestamp | number | difficulty
      | gaslimit | gas => exact Performs.pure rfl
  case pc => exact Performs.error rfl fun _ => rfl
  case jump | jumpi | jumpdest | push | dup | swap => exact absurd hstack Bool.noConfusion

/-- What is refused without looking at the arguments has the wrong number of them, or addresses
    the stack or the code. -/
theorem execute_refused (limits : Limits) {op : Instruction} {args : List Word}
    (h : ¬ (args.length = op.args ∧ op.isStackManipulation = false)) (s : MachineState) :
    ∃ why : RunFault, why.breaksOff = false ∧
      op.execute limits args s = .error (.failed why) s := by
  by_cases hargs : args.length = op.args
  · refine ⟨.notInterpretable op, rfl, ?_⟩
    rw [execute_eq hargs]
    cases op
    case jump | jumpi | jumpdest | push | dup | swap => rfl
    all_goals exact absurd ⟨hargs, rfl⟩ h
  · refine ⟨.operandCount op args.length, rfl, ?_⟩
    rw [execute, if_pos hargs]
    rfl

/-- Whatever the arguments are, an instruction lets the machine advance. -/
theorem execute_advances (limits : Limits) (op : Instruction) (args : List Word)
    (s : MachineState) : s.Advances limits (finalMachine (op.execute limits args s)) := by
  by_cases hproper : args.length = op.args ∧ op.isStackManipulation = false
  · exact (execute_performs limits hproper.2 hproper.1 s).advances
  · obtain ⟨why, -, hwhy⟩ := execute_refused limits hproper s
    rw [hwhy]
    exact .refl s

/-- Whatever the arguments are, the interpreter does not break off in an instruction if memory
    fits: all that the instruction accesses is within memory. -/
theorem execute_contained {limits : Limits} (hfits : limits.MemoryFits) {op : Instruction}
    {args : List Word} {s t : MachineState} {halt : Halt}
    (h : op.execute limits args s = .error halt t) : halt.breaksOff = false := by
  by_cases hproper : args.length = op.args ∧ op.isStackManipulation = false
  · exact (execute_performs limits hproper.2 hproper.1 s).contained hfits halt t h
  · obtain ⟨why, hreported, hwhy⟩ := execute_refused limits hproper s
    rw [hwhy] at h
    cases h
    exact hreported

/-- A movable instruction has a value that depends on its arguments and on the
    call data alone, and changes nothing. -/
theorem execute_movable (limits : Limits) {op : Instruction} {args : List Word}
    (hmovable : op.movable = true) (hstack : op.isStackManipulation = false)
    (hargs : args.length = op.args) (calldata : List UInt8) :
    ∃ r : Option Word, r.toList.length = op.returns ∧
      ∀ s : MachineState, s.calldata = calldata → op.execute limits args s = .ok r s := by
  rw [execute_eq hargs]
  -- Without effects the result depends on the arguments and the calldata.
  cases op
  case iszero | not =>
    obtain ⟨a, rfl⟩ := one_argument hargs
    exact ⟨_, rfl, fun _ _ => rfl⟩
  case add | mul | sub | div | sdiv | mod | smod | exp | signextend | lt | gt | slt | sgt | eq | and
      | or | xor | byte | shl | shr | sar =>
    obtain ⟨a, b, rfl⟩ := two_arguments hargs
    exact ⟨_, rfl, fun _ _ => rfl⟩
  case addmod | mulmod =>
    obtain ⟨a, b, c, rfl⟩ := three_arguments hargs
    exact ⟨_, rfl, fun _ _ => rfl⟩
  case calldataload =>
    obtain ⟨offset, rfl⟩ := one_argument hargs
    refine ⟨some (Word.ofBytes (paddedSlice calldata offset.toNat wordSize)), rfl, ?_⟩
    rintro s rfl
    rfl
  case calldatasize =>
    obtain rfl := List.eq_nil_of_length_eq_zero hargs
    refine ⟨some (BitVec.ofNat 256 calldata.length), rfl, ?_⟩
    rintro s rfl
    rfl
  case pop =>
    obtain ⟨value, rfl⟩ := one_argument hargs
    exact ⟨none, rfl, fun _ _ => rfl⟩
  case address | origin | caller | callvalue | codesize | gasprice | blockhash | coinbase
      | timestamp | number | difficulty | gaslimit => exact ⟨_, rfl, fun _ _ => rfl⟩
  case jump | jumpi | jumpdest | push | dup | swap => exact absurd hstack Bool.noConfusion
  all_goals exact absurd hmovable Bool.noConfusion

end Instruction

end YulToolchain
