import YulToolchain.Proofs.Execution.Routine
import Mathlib.Tactic.Common

/-!
# Runs with and without a Budget

A run that does not use up its budget is the same as a run without one.

Steps are counted in every run, but only a metered run is stopped for them. The
bounds on the rounds of loops and on the depth of calls are there in both. So a
metered run that comes to an end of its own has an unmetered counterpart with the
same bounds, and an unmetered run that comes to an end of its own has a metered
counterpart in every budget that covers its steps and its bounds.

Both directions are one statement: `Follows` says that a second computation does
what the first one does, unless the first one runs out of steps or ends with more
steps than the second may make. In the latter case the second one uses up its budget.

## Main definitions

* `Spent`: An outcome is the end of the budget.
* `RunContext.Covers`: One context allows all that another does.
* `Leads`, `Follows`: A computation does what another one does.
* `Outcome.result`: The result of a program, by how its run ends.

## Theorems

* `Follows.routine`: What is true of the six kinds of routines is true of all of them.
* `Block.run_follows`, `FunctionDef.call_follows`: A run follows every run with lower
  bounds.
* `Block.run_unmetered`: A metered run without a meter.
* `Block.run_metered`: An unmetered run in a budget.
-/

namespace YulToolchain

/-- The state in which a computation ends. -/
def finalState {α : Type} : Outcome α → RunState
  | .ok _ s => s
  | .error _ s => s

/-- The budget of steps is used up. -/
def Spent {α : Type} : Outcome α → Prop
  | .ok _ _ => False
  | .error halt _ => halt = .ended .stepLimit

/-- From a state, a second outcome is the first one, unless that is the end of the budget
    or has more steps than allowed, in which case the second one is the end of its budget.
    Steps are never taken back. -/
structure Leads {α : Type} (c : RunContext) (s : RunState) (r r' : Outcome α) : Prop where
  grows : s.steps ≤ (finalState r).steps
  same : Spent r ∨ ((c.metered = true → (finalState r).steps ≤ c.limits.maxSteps) → r' = r)
  stops : c.metered = true → s.steps ≤ c.limits.maxSteps →
    c.limits.maxSteps < (finalState r).steps → Spent r'

/-- A computation does what another one does, as far as it may. -/
def Follows {α : Type} (c : RunContext) (m m' : Run α) : Prop := ∀ s, Leads c s (m s) (m' s)

namespace Follows

variable {α β : Type} {c : RunContext} {m m' : Run α} {f f' : α → Run β}

theorem refl (h : ∀ s, (finalState (m s)).steps = s.steps) : Follows c m m :=
  fun s => ⟨Nat.le_of_eq (h s).symm, Or.inr fun _ => rfl,
    fun _ hle hlt => absurd (h s ▸ hlt) (Nat.not_lt.mpr hle)⟩

theorem pure (a : α) : Follows c (Pure.pure a) (Pure.pure a) := refl fun _ => rfl

theorem onVariables (h : m.OnVariables) : Follows c m m := by
  refine refl fun s => ?_
  rcases h s with ⟨a, env, hs⟩ | ⟨why, -, env, hs⟩ <;> rw [hs] <;> rfl

/-- A computation that is out of steps at once. -/
theorem spent {t : RunState → Outcome α} (h : ∀ s, t s = .error (.ended .stepLimit) s) :
    Follows c t m := by
  intro s
  rw [h]
  exact ⟨Nat.le_refl _, Or.inl rfl, fun _ hle hlt => absurd hlt (Nat.not_lt.mpr hle)⟩

/-- One part follows after the other. -/
theorem bind (hm : Follows c m m') (hf : ∀ a, Follows c (f a) (f' a)) :
    Follows c (m >>= f) (m' >>= f') := by
  intro s
  rcases hm s with ⟨hgrows, hsame, hstops⟩
  simp only [Bind.bind, EStateM.bind]
  cases hr : m s with
  | error halt t =>
      rw [hr] at hgrows hsame hstops
      -- The first part ends the run, the same way if it can be afforded.
      refine ⟨hgrows, hsame.imp_right fun h hafford => ?_, fun hmetered hle hlt => ?_⟩
      · rw [h hafford]
      · have hspent := hstops hmetered hle hlt
        revert hspent
        cases m' s with
        | ok _ _ => exact False.elim
        | error _ _ => exact id
  | ok a t =>
      rw [hr] at hgrows hsame hstops
      rcases hf a t with ⟨hgrows', hsame', hstops'⟩
      refine ⟨Nat.le_trans hgrows hgrows', hsame'.imp_right fun h hafford => ?_,
        fun hmetered hle hlt => ?_⟩
      · -- What is affordable at the end was affordable on the way.
        -- What the whole takes is at least what the first part takes.
        have hway : c.metered = true → t.steps ≤ c.limits.maxSteps :=
          fun hmetered => Nat.le_trans hgrows' (hafford hmetered)
        rw [hsame.resolve_left id hway]
        exact h hafford
      · -- The budget is used up in the first part, or else in the second one.
        rcases Nat.lt_or_ge c.limits.maxSteps t.steps with hover | hunder
        · have hspent := hstops hmetered hle hover
          revert hspent
          cases m' s with
          | ok _ _ => exact False.elim
          | error _ _ => exact id
        · rw [hsame.resolve_left id fun _ => hunder]
          exact hstops' hmetered hunder hlt

end Follows

/-- One context allows all that another one does. -/
structure RunContext.Covers (c c' : RunContext) : Prop where
  dialect : c'.dialect = c.dialect
  memory : c'.limits.maxMemory = c.limits.maxMemory
  steps : c.limits.maxSteps ≤ c'.limits.maxSteps

/-- Instructions depend on the limit of memory, not on that of steps. -/
theorem Instruction.execute_limits {limits limits' : Limits}
    (h : limits'.maxMemory = limits.maxMemory) (op : Instruction) (args : List Word) :
    op.execute limits' args = op.execute limits args := by
  -- Both sides are the same case analysis, and `touch` looks at nothing but the memory.
  have hperform : op.perform limits' args = op.perform limits args := by
    rcases limits with ⟨steps, memory⟩
    rcases limits' with ⟨steps', memory'⟩
    cases h
    rfl
  rw [Instruction.execute, Instruction.execute, hperform]

open Run

/-- Runs a block as a whole program. -/
def Block.runProgram (c : RunContext) (b : Block) : Run Flow :=
  b.run c (FunctionDef.call c c.limits.maxSteps) []

theorem Block.runProgram_eq_routine (c : RunContext) (b : Block) : b.runProgram c
    = (b.routine c.dialect []).run c (FunctionDef.call c c.limits.maxSteps) :=
  b.run_eq_routine []

section Code

variable {c c' : RunContext}

/-- A step follows a step: both count it. -/
theorem Follows.step : Follows c' (step c) (step c') := by
  intro s
  simp only [Run.step_eq]
  have hstops : ∀ {r : Outcome Unit}, finalState r = { s with steps := s.steps + 1 } →
      c'.metered = true → s.steps ≤ c'.limits.maxSteps →
      c'.limits.maxSteps < (finalState r).steps →
      (c'.metered && decide (c'.limits.maxSteps < s.steps + 1)) = true := by
    intro r hfinal hmetered _ hlt
    rw [hfinal] at hlt
    rw [hmetered, Bool.true_and]
    exact decide_eq_true hlt
  -- The smaller budget may be spent, or neither is.
  by_cases hspent : (c.metered && decide (c.limits.maxSteps < s.steps + 1)) = true
  · simp only [hspent, if_true]
    refine ⟨Nat.le_succ _, Or.inl rfl, fun hmetered hle hlt => ?_⟩
    rw [if_pos (hstops rfl hmetered hle hlt)]
    exact rfl
  · simp only [hspent]
    refine ⟨Nat.le_succ _, Or.inr fun hafford => ?_, fun hmetered hle hlt => ?_⟩
    · have hmetered : (c'.metered && decide (c'.limits.maxSteps < s.steps + 1)) = false := by
        cases hc : c'.metered with
        | false => rfl
        | true =>
            have hle : s.steps + 1 ≤ c'.limits.maxSteps := hafford hc
            rw [Bool.true_and, decide_eq_false_iff_not]
            omega
      simp only [hmetered, Bool.false_eq_true, if_false]
    · rw [if_pos (hstops rfl hmetered hle hlt)]
      exact rfl

/-- Instructions take no steps. -/
theorem Follows.instruction (h : c.Covers c') (op : Instruction) (args : List Word) :
    Follows c' (instruction c op args) (instruction c' op args) := by
  rw [Run.instruction, Run.instruction, Instruction.execute_limits h.memory]
  refine (Follows.refl fun s => ?_).bind fun r => Follows.pure _
  simp only [Run.onMachine]
  cases op.execute c.limits args s.machine <;> rfl

/-- More rounds are followed by fewer. -/
theorem Follows.rounds {round round' : Run Bool} (h : Follows c' round round') :
    ∀ {n n' : Nat}, n ≤ n' → Follows c' (rounds n round) (rounds n' round')
  | 0, _, _ => Follows.spent fun s => by
      rw [Run.rounds]
      rfl
  | n + 1, 0, hle => absurd hle (Nat.not_succ_le_zero n)
  | n + 1, n' + 1, hle => by
      rw [Run.rounds, Run.rounds]
      refine h.bind fun again => ?_
      cases again with
      | true => exact Follows.rounds h (Nat.le_of_succ_le_succ hle)
      | false => exact Follows.pure ()

/-- A routine follows itself if the calls do. -/
theorem Follows.routine (h : c.Covers c') {call call' : Caller}
    (hcall : ∀ fs f args, Follows c' (call fs f args) (call' fs f args)) :
    ∀ {α : Type} (m : Routine α), Follows c' (m.run c call) (m.run c' call')
  | _, .vars _ hm => Follows.onVariables hm
  | _, .step => Follows.step
  | _, .instruction op args => Follows.instruction h op args
  | _, .call fs f args => hcall fs f args
  | _, .loop m => (Follows.step.bind fun _ => Follows.routine h hcall m).rounds
      (Nat.succ_le_succ h.steps)
  | _, .bind m f => (Follows.routine h hcall m).bind fun a => Follows.routine h hcall (f a)

/-- Calls with a higher bound on their depth follow those with a lower one. -/
theorem FunctionDef.call_follows (h : c.Covers c') : ∀ {depth depth' : Nat}, depth ≤ depth' →
    ∀ fs f args, Follows c' (FunctionDef.call c depth fs f args)
      (FunctionDef.call c' depth' fs f args)
  | 0, _, _, _, _, _ => Follows.spent fun _ => rfl
  | depth + 1, 0, hle, _, _, _ => absurd hle (Nat.not_succ_le_zero depth)
  | depth + 1, depth' + 1, hle, fs, f, args => by
      rw [FunctionDef.call_eq_routine, FunctionDef.call_eq_routine, h.dialect]
      exact Follows.routine h (FunctionDef.call_follows h (Nat.le_of_succ_le_succ hle)) _

/-- A run of a program follows every run with lower bounds. -/
theorem Block.run_follows (h : c.Covers c') (b : Block) :
    Follows c' (b.runProgram c) (b.runProgram c') := by
  rw [Block.runProgram_eq_routine, Block.runProgram_eq_routine, h.dialect]
  exact Follows.routine h (FunctionDef.call_follows h h.steps) _

/-- A metered run that does not use up its budget is a run without one, and within it. -/
theorem Block.run_unmetered (d : Dialect) (limits : Limits) (b : Block) {s : RunState}
    (hs : s.steps ≤ limits.maxSteps) (h : ¬Spent (b.runProgram ⟨d, limits, true⟩ s)) :
    b.runProgram ⟨d, limits, false⟩ s = b.runProgram ⟨d, limits, true⟩ s ∧
      (finalState (b.runProgram ⟨d, limits, false⟩ s)).steps ≤ limits.maxSteps := by
  have hcovers : ∀ metered metered',
      RunContext.Covers ⟨d, limits, metered⟩ ⟨d, limits, metered'⟩ :=
    fun _ _ => ⟨rfl, rfl, Nat.le_refl _⟩
  have hleads := fun metered metered' => Block.run_follows (hcovers metered metered') b s
  refine ⟨(hleads true false).same.resolve_left h nofun, Nat.not_lt.mp fun hover => ?_⟩
  exact h ((hleads false true).stops rfl hs hover)

/-- A run without a meter that does not reach its bounds is a metered run in every
    budget that covers its steps. -/
theorem Block.run_metered (d : Dialect) (limits : Limits) (b : Block) {s : RunState}
    (h : ¬Spent (b.runProgram ⟨d, limits, false⟩ s)) {n : Nat} (hn : limits.maxSteps ≤ n)
    (hsteps : (finalState (b.runProgram ⟨d, limits, false⟩ s)).steps ≤ n) :
    b.runProgram ⟨d, { limits with maxSteps := n }, true⟩ s
      = b.runProgram ⟨d, limits, false⟩ s := by
  have hcovers : RunContext.Covers ⟨d, limits, false⟩ ⟨d, { limits with maxSteps := n }, true⟩ :=
    ⟨rfl, rfl, hn⟩
  exact (Block.run_follows hcovers b s).same.resolve_left h fun _ => hsteps

end Code

/-- The result of a program, by how its run ends. -/
def Outcome.result {α : Type} : Outcome α → Except RunFault RunResult
  | .ok _ s => .ok ⟨s.machine, none⟩
  | .error (.ended t) s => .ok ⟨s.machine, some t⟩
  | .error (.failed why) _ => .error why

/-- The result is that of the program. -/
theorem interpret_eq_result (d : Dialect) (limits : Limits) (calldata : List UInt8)
    (code : Block) : interpret d limits calldata code
      = Outcome.result (code.runProgram ⟨d, limits, true⟩ ⟨.initial calldata, 0, []⟩) := by
  simp only [interpret, Block.runProgram]
  rcases code.run _ _ [] _ with ⟨flow, s⟩ | ⟨_ | _, s⟩ <;> rfl

/-- A run uses up its budget if its result says so. -/
theorem not_spent_of_result {α : Type} {r : Outcome α}
    (h : ∀ state, Outcome.result r ≠ .ok ⟨state, some .stepLimit⟩) : ¬Spent r := by
  cases r with
  | ok _ _ => exact id
  | error halt s =>
      rintro rfl
      exact h s.machine rfl

end YulToolchain
