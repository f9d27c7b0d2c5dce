import YulToolchain.Assembly.Disassembly
import YulToolchain.Execution.Operation

/-!
# The Stack Machine

What running finished code does.

The machine reads its code byte by byte. It has a position in the code, a stack of
words and the same state that the interpreter has, and an instruction that does more
than move words on the stack or the position does to that state what
`Instruction.execute` says. Only the bytes that are read decide what happens: whether
they were written as code or attached as data makes no difference.

A jump has to land on a label, that is, on a `jumpdest` that is met when the whole code
is read from the front. Bytes that no instruction has, jumps elsewhere and stacks with
too few words leave the machine stuck, which is not an end of a program.

## Main definitions

* `Bytecode.Config`: A position, a stack and a machine state.
* `Bytecode.step`: One instruction.
* `Bytecode.performAll`: Some instructions, wherever they stand.
* `Bytecode.after`: What the machine comes to in a number of steps.
* `Bytecode.run`: How a run ends, within a number of steps.
* `Bytecode.Walks`: Runs that stay below a position.

## Theorems

* `Bytecode.Walks.trans`: Runs one after the other.
* `Bytecode.Walks.run`: A run to its end.
* `Bytecode.run_eq_none_of_cycle`: A run without an end.
-/

namespace YulToolchain

namespace Bytecode

/-- What the machine works on. -/
structure Config where
  /-- The position in the code. -/
  pc : Nat
  /-- The stack, the top first. -/
  stack : List Word
  /-- The machine state. -/
  state : MachineState
deriving DecidableEq

/-- The machine before it runs. -/
def start (calldata : List UInt8) : Config := ⟨0, [], .initial calldata⟩

/-- What one step leads to. -/
inductive Next where
  /-- The machine goes on. -/
  | on (c : Config)
  /-- There is no code at the position. -/
  | off
  /-- The program ended itself, or did something that has no meaning. -/
  | halted (why : Halt) (state : MachineState)
  /-- There is nothing the machine can do. -/
  | stuck

/-- What is read at a position. -/
def fetch (code : List UInt8) (pc : Nat) : Option Decoded :=
  match code.drop pc with
  | [] => none
  | b :: rest => some (Decoded.first b rest)

/-- A position is a label: a `jumpdest` that is met when the code is read from the
    front. -/
def isLabel (code : List UInt8) (pc : Nat) : Bool :=
  decide ((pc, Decoded.instruction .jumpdest []) ∈ decodeCode code)

/-- Goes on at the position that a word holds, which has to be a label. -/
def jump (code : List UInt8) (target : Word) (stack : List Word) (state : MachineState) : Next :=
  if isLabel code target.toNat then .on ⟨target.toNat, stack, state⟩ else .stuck

/-- The word that immediate bytes hold. Bytes behind the end of the code are zero. -/
def immediateWord (width : Nat) (bytes : List UInt8) : Word :=
  Word.ofBytes (bytes ++ List.replicate (width - bytes.length) 0)

/-- Takes the arguments of an instruction off the stack, the first one on top, executes
    it, and puts back what it returns. -/
def operate (limits : Limits) (op : Instruction) (next : Nat) (stack : List Word)
    (state : MachineState) : Next :=
  if stack.length < op.args then .stuck
  else match op.execute limits (stack.take op.args) state with
    | .ok value state => .on ⟨next, value.toList ++ stack.drop op.args, state⟩
    | .error why state => .halted why state

/-- Executes an instruction with its immediate bytes. -/
def perform (limits : Limits) (code : List UInt8) (op : Instruction) (immediate : List UInt8)
    (c : Config) : Next :=
  let next := c.pc + 1 + op.pushSize
  match op, c.stack with
  | .push k, stack => .on ⟨next, immediateWord (k + 1) immediate :: stack, c.state⟩
  | .dup k, stack => match stack[k.val]? with
    | some word => .on ⟨next, word :: stack, c.state⟩
    | none => .stuck
  | .swap k, top :: rest => match rest[k.val]? with
    | some word => .on ⟨next, word :: rest.set k top, c.state⟩
    | none => .stuck
  | .pop, _ :: rest => .on ⟨next, rest, c.state⟩
  | .jumpdest, stack => .on ⟨next, stack, c.state⟩
  | .pc, stack => .on ⟨next, BitVec.ofNat 256 c.pc :: stack, c.state⟩
  | .jump, target :: rest => jump code target rest c.state
  | .jumpi, target :: test :: rest =>
    if test = 0 then .on ⟨next, rest, c.state⟩ else jump code target rest c.state
  | .swap _, [] | .pop, [] | .jump, [] | .jumpi, _ => .stuck
  | op, stack => operate limits op next stack c.state

/-- One step of the machine. -/
def step (limits : Limits) (code : List UInt8) (c : Config) : Next :=
  match fetch code c.pc with
  | none => .off
  | some (.unknown _) => .stuck
  | some (.instruction op immediate) => perform limits code op immediate c

/-- A step executes the instruction that is read at the position. -/
theorem step_of_fetch {limits : Limits} {code : List UInt8} {c : Config} {op : Instruction}
    {immediate : List UInt8} (h : fetch code c.pc = some (.instruction op immediate)) :
    step limits code c = perform limits code op immediate c := by
  rw [step, h]

/-- Performs instructions without immediate bytes one after the other. -/
def performAll (limits : Limits) (code : List UInt8) : List Instruction → Config → Option Config
  | [], c => some c
  | op :: ops, c => match perform limits code op [] c with
    | .on c => performAll limits code ops c
    | _ => none

/-- What the machine comes to in a number of steps, if it goes on that long. -/
def after (limits : Limits) (code : List UInt8) : Nat → Config → Option Config
  | 0, c => some c
  | n + 1, c => match step limits code c with
    | .on c => after limits code n c
    | _ => none

/-- How a run ends. -/
inductive Ending where
  /-- The machine ran off the end of the code. -/
  | off (stack : List Word) (state : MachineState)
  /-- The program ended itself, or did something that has no meaning. -/
  | halted (why : Halt) (state : MachineState)
  /-- The machine got stuck. -/
  | stuck

/-- What a run that ran off the end leaves behind. -/
def Ending.off? : Ending → Option (List Word × MachineState)
  | .off stack state => some (stack, state)
  | _ => none

/-- What it means that the code was left at its end. -/
theorem Ending.off?_eq_some {e : Ending} {stack : List Word} {state : MachineState} :
    e.off? = some (stack, state) ↔ e = .off stack state := by
  cases e <;> simp only [Ending.off?, Option.some.injEq, Prod.mk.injEq, Ending.off.injEq,
    reduceCtorEq]

/-- How a run ends, if it does within a number of steps. -/
def run (limits : Limits) (code : List UInt8) : Nat → Config → Option Ending
  | 0, _ => none
  | fuel + 1, c => match step limits code c with
    | .on c => run limits code fuel c
    | .off => some (.off c.stack c.state)
    | .halted why state => some (.halted why state)
    | .stuck => some .stuck

/-- The machine comes from one configuration to another, and executes nothing at or
    behind a bound on the way. -/
inductive Walks (limits : Limits) (code : List UInt8) (size : Nat) : Config → Config → Prop where
  | refl (c : Config) : Walks limits code size c c
  | step {c c' c'' : Config} (hpc : c.pc < size) (hstep : step limits code c = .on c')
      (hrest : Walks limits code size c' c'') : Walks limits code size c c''

section Runs

variable {limits : Limits} {code : List UInt8} {size : Nat} {c c' c'' : Config}

/-- Instructions one after the other. -/
theorem performAll_append (ops more : List Instruction) (c : Config) :
    performAll limits code (ops ++ more) c
      = (performAll limits code ops c).bind (performAll limits code more) := by
  induction ops generalizing c with
  | nil => rfl
  | cons op ops ih =>
      rw [List.cons_append, performAll, performAll]
      cases perform limits code op [] c with
      | on c' => exact ih c'
      | _ => rfl

theorem Walks.one (hpc : c.pc < size) (hstep : Bytecode.step limits code c = .on c') :
    Walks limits code size c c' := .step hpc hstep (.refl c')

/-- Runs one after the other. -/
theorem Walks.trans (h : Walks limits code size c c') (h' : Walks limits code size c' c'') :
    Walks limits code size c c'' := by
  induction h with
  | refl _ => exact h'
  | step hpc hstep _ ih => exact .step hpc hstep (ih h')

/-- A run ends the way that its last configuration does. -/
theorem Walks.run (h : Walks limits code size c c') {ending : Ending} {fuel : Nat}
    (hend : run limits code fuel c' = some ending) :
    ∃ fuel, run limits code fuel c = some ending := by
  induction h with
  | refl _ => exact ⟨fuel, hend⟩
  | step _ hstep _ ih =>
      rcases ih hend with ⟨fuel', hrun⟩
      exact ⟨fuel' + 1, by simp only [Bytecode.run, hstep, hrun]⟩

/-- A run goes on from what it comes to. -/
theorem run_add_of_after (fuel : Nat) : ∀ {n : Nat} {c : Config}, after limits code n c = some c' →
    run limits code (n + fuel) c = run limits code fuel c'
  | 0, c, h => by
      obtain rfl := Option.some.inj h
      rw [Nat.zero_add]
  | n + 1, c, h => by
      rw [Nat.succ_add, run]
      rw [after] at h
      cases hstep : step limits code c with
      | on c₁ =>
          rw [hstep] at h
          exact run_add_of_after fuel h
      | _ => rw [hstep] at h; exact absurd h (by rintro ⟨⟩)

/-- A run has no end before what it comes to. -/
theorem run_eq_none_of_after : ∀ {n fuel : Nat} {c : Config}, after limits code n c = some c' →
    fuel ≤ n → run limits code fuel c = none
  | _, 0, _, _, _ => rfl
  | n + 1, fuel + 1, c, h, hle => by
      rw [run]
      rw [after] at h
      cases hstep : step limits code c with
      | on c₁ =>
          rw [hstep] at h
          exact run_eq_none_of_after h (Nat.le_of_succ_le_succ hle)
      | _ => rw [hstep] at h; exact absurd h (by rintro ⟨⟩)

/-- A run that comes back to where it was has no end. -/
theorem run_eq_none_of_cycle {n : Nat} (hn : 0 < n) (h : after limits code n c = some c)
    (fuel : Nat) : run limits code fuel c = none := by
  induction fuel using Nat.strongRecOn with
  | ind fuel ih =>
      by_cases hle : fuel ≤ n
      · exact run_eq_none_of_after h hle
      · have hrun := run_add_of_after (fuel - n) h
        rw [Nat.add_sub_cancel' (Nat.le_of_not_le hle)] at hrun
        rw [hrun]
        exact ih (fuel - n) (by omega)

end Runs

end Bytecode

end YulToolchain
