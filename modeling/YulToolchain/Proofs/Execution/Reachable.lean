import YulToolchain.Proofs.Execution.Derivation
import YulToolchain.Proofs.Execution.Operation
import YulToolchain.Proofs.Static.Analyzed
import Mathlib.Tactic.Common

/-!
# States of the Machine in a Run

What is true of the machine at every moment of every run.

The events of a run follow on one another. The machine before the first one is that
before the run, each other one finds the machine as the one before has left it, and the
last one leaves it as it is behind the run. So the states that a run goes through are
the first one and those that the events leave behind, and there is nothing to the run
but its events. All of them are orderly, and each one is an advance over all those
before it, since that is what instructions do.

Where memory can not have all the words below its limit, one thing is missing. The size
of the last word of all addresses is not a number of 64 bits, so memory does not grow,
and a range that was checked may still not be within it (`last_word_is_not_reserved`).

## Main definitions

* `RunEvent.before`, `RunEvent.after`: The machine before and after an event.
* `Connected`: The events between two states follow on one another.
* `passed`: The states of the machine that events pass through.

## Theorems

* `Routine.Runs.connected`: The events of a run follow on one another.
* `Connected.advances`: Each state is an advance over those before it.
* `passed_states_are_orderly`: What is true of the machine in all runs of a program.
* `last_word_is_not_reserved`: A range that is not within memory.
-/

namespace YulToolchain

namespace RunEvent

/-- The machine before an event. -/
def before : RunEvent → MachineState
  | begun s => s
  | executed s _ _ => s

/-- The machine after an event. -/
def after (limits : Limits) : RunEvent → MachineState
  | begun s => s
  | executed s op args => finalMachine (op.execute limits args s)

/-- Every event advances the machine. -/
theorem advances (limits : Limits) (e : RunEvent) :
    e.before.Advances limits (e.after limits) := by
  cases e with
  | begun s => exact .refl s
  | executed s op args => exact op.execute_advances limits args s

end RunEvent

/-- Events follow on one another, from a state of the machine to another one. -/
def Connected (limits : Limits) : MachineState → List RunEvent → MachineState → Prop
  | s, [], t => t = s
  | s, e :: es, t => e.before = s ∧ Connected limits (e.after limits) es t

/-- The states of the machine that events pass through, from a first one on. -/
def passed (limits : Limits) (s : MachineState) (es : List RunEvent) : List MachineState :=
  s :: es.map (·.after limits)

namespace Connected

variable {limits : Limits}

/-- Connected events one after the other. -/
theorem append : ∀ {es es' : List RunEvent} {s t u : MachineState}, Connected limits s es t →
    Connected limits t es' u → Connected limits s (es ++ es') u
  | [], _, _, _, _, h, h' => by
      cases h
      exact h'
  | _ :: _, _, _, _, _, h, h' => ⟨h.1, h.2.append h'⟩

/-- Each state is an advance over those before it. -/
theorem advances : ∀ {es : List RunEvent} {s t : MachineState}, Connected limits s es t →
    (passed limits s es).Pairwise (MachineState.Advances limits)
  | [], s, _, _ => List.pairwise_singleton _ s
  | e :: es, s, t, h => by
      have hrest : (passed limits (e.after limits) es).Pairwise (MachineState.Advances limits) :=
        h.2.advances
      have hstep : s.Advances limits (e.after limits) := h.1 ▸ e.advances limits
      rw [passed, List.map_cons]
      refine List.Pairwise.cons (fun u hu => ?_) hrest
      -- A later state is an advance over the next one.
      rcases List.mem_cons.mp hu with rfl | hlater
      · exact hstep
      · exact hstep.trans ((List.pairwise_cons.mp hrest).1 u hlater)

end Connected

theorem Run.OnVariables.machine {α : Type} {m : Run α} (h : m.OnVariables) (s : RunState) :
    (finalState (m s)).machine = s.machine := by
  rcases h s with ⟨a, env, hs⟩ | ⟨why, -, env, hs⟩ <;> rw [hs] <;> rfl

theorem Run.step_machine (c : RunContext) (s : RunState) :
    (finalState (Run.step c s)).machine = s.machine := by
  rw [Run.step_eq]
  split <;> rfl

/-- An instruction changes the machine as it is executed. -/
theorem Run.instruction_machine (c : RunContext) (op : Instruction) (args : List Word)
    (s : RunState) : (finalState (Run.instruction c op args s)).machine
      = finalMachine (op.execute c.limits args s.machine) := by
  simp only [Run.instruction, Run.onMachine, Bind.bind, EStateM.bind]
  cases op.execute c.limits args s.machine <;> rfl

/-- The events of a run follow on one another and lead from the machine before it to the machine
    behind it. -/
theorem Routine.Runs.connected {c : RunContext} {α : Type} {m : Routine α} {s : RunState}
    {es : List RunEvent} {r : Outcome α} (h : m.Runs c s es r) :
    Connected c.limits s.machine es (finalState r).machine := by
  -- By induction on the run.
  induction h with
  | vars m h s => exact h.machine s
  | step s =>
      have hmachine := Run.step_machine c s
      rw [Routine.stepEvents]
      -- The machine is the same before and after, whether the step is allowed or not.
      cases hstep : Run.step c s with
      | ok a t =>
          rw [hstep] at hmachine
          exact ⟨rfl, hmachine⟩
      | error halt t =>
          rw [hstep] at hmachine
          exact hmachine
  | instruction op args s => exact ⟨rfl, Run.instruction_machine c op args s⟩
  | call body ih => exact ih
  | loop rounds ih => exact ih
  | andThen first next ihfirst ihnext => exact ihfirst.append ihnext
  | halts first ih => exact ih

/-- In every run of a program, the states of the machine between the events have the call data
    of the program, memory in whole words and within its limit, and no zeros in storage. From
    one to the next, memory and trace only grow. No instruction on the way accesses a range that
    is not within memory, provided that memory can have all the words below its limit. -/
theorem passed_states_are_orderly {c : RunContext} {code : Block} {calldata : List UInt8}
    {es : List RunEvent} {r : Outcome Flow}
    (h : (code.routine c.dialect []).Runs c ⟨.initial calldata, 0, []⟩ es r) :
    Connected c.limits (.initial calldata) es (finalState r).machine ∧
    (∀ s ∈ passed c.limits (.initial calldata) es, s.calldata = calldata ∧
      wordSize ∣ s.memory.size ∧ s.memory.size ≤ wholeWords c.limits.maxMemory ∧
      ∀ entry ∈ s.storage.entries, entry.2 ≠ 0) ∧
    (passed c.limits (.initial calldata) es).Pairwise (fun s t =>
      s.memory.size ≤ t.memory.size ∧ s.trace.toList <+: t.trace.toList) ∧
    (c.limits.MemoryFits → ∀ s op args, RunEvent.executed s op args ∈ es → ∀ last size t,
      op.execute c.limits args s ≠ .error (.failed (.outsideMemory last size)) t) := by
  have hconnected := h.connected
  have hadvances := hconnected.advances
  have horderly : (MachineState.initial calldata).Orderly c.limits := .initial calldata
  -- All states passed advance from the initial one.
  refine ⟨hconnected, fun s hs => ?_, hadvances.imp fun hst => ⟨hst.memory, hst.trace⟩,
    fun hfits s op args _ last size t h => ?_⟩
  · have hfirst : (MachineState.initial calldata).Advances c.limits s := by
      rcases List.mem_cons.mp hs with rfl | hlater
      · exact .refl _
      · exact (List.pairwise_cons.mp hadvances).1 s hlater
    have hs := hfirst.orderly horderly
    exact ⟨hfirst.calldata, hs.whole, hs.bounded, hs.storage⟩
  -- Such a fault breaks off, which nothing does where memory fits.
  · have hreported : RunFault.breaksOff (.outsideMemory last size) = false :=
      Instruction.execute_contained hfits h
    exact absurd hreported Bool.noConfusion

/-- A loop in which memory grows and storage is written and erased. -/
theorem passed_states_are_orderly_in_loop :
    ∃ code scopes, parseBlock .strictAssembly
        "{ for { let i := 0 } lt(i, 3) { i := add(i, 1) }
          { mstore(mul(i, 20), i) sstore(1, and(i, 1)) log0(i, 2) } }"
          = .ok code ∧
      analyze .strictAssembly code = .ok scopes ∧
      (match interpret .strictAssembly ⟨100, 90⟩ [7] code with
        | .ok r => r.state.memory.size = 96 ∧ r.state.storage.entries = [] ∧ r.state.trace.size = 3
        | .error _ => False) ∧
      ∃ es r, (code.routine .strictAssembly []).Runs ⟨.strictAssembly, ⟨100, 90⟩, true⟩
          ⟨.initial [7], 0, []⟩ es r ∧
        interpret .strictAssembly ⟨100, 90⟩ [7] code = r.result ∧
        (∀ s ∈ passed ⟨100, 90⟩ (.initial [7]) es, s.calldata = [7] ∧
          wordSize ∣ s.memory.size ∧ s.memory.size ≤ 96 ∧
          ∀ entry ∈ s.storage.entries, entry.2 ≠ 0) ∧
        (passed ⟨100, 90⟩ (.initial [7]) es).Pairwise (fun s t =>
          s.memory.size ≤ t.memory.size ∧ s.trace.toList <+: t.trace.toList) ∧
        ∀ s op args, RunEvent.executed s op args ∈ es → ∀ last size t,
          op.execute ⟨100, 90⟩ args s ≠ .error (.failed (.outsideMemory last size)) t := by
  -- The run is evaluated for its final state, and the theorem tells of the states passed.
  refine exists_of_accepted? (fun code => match interpret .strictAssembly ⟨100, 90⟩ [7] code with
    | .ok r => decide (r.state.memory.size = 96 ∧ r.state.storage.entries = [] ∧
        r.state.trace.size = 3)
    | .error _ => false) (by decide +kernel) fun code scopes _ _ htest => ⟨?_, ?_⟩
  · cases hr : interpret .strictAssembly ⟨100, 90⟩ [7] code with
    | error why =>
        rw [hr] at htest
        exact Bool.false_ne_true htest
    | ok r =>
        rw [hr] at htest
        exact of_decide_eq_true htest
  · rcases code.yields_runProgram .strictAssembly ⟨100, 90⟩ (.initial [7]) with ⟨es, hes⟩
    have horderly := passed_states_are_orderly hes
    exact ⟨es, _, hes, interpret_eq_result .strictAssembly ⟨100, 90⟩ [7] code, horderly.2.1,
      horderly.2.2.1, horderly.2.2.2 (by decide)⟩

/-- The last byte of all may be touched, but memory does not grow to cover it. -/
theorem last_word_is_not_reserved :
    ∃ code scopes, parseBlock .strictAssembly "{ pop(keccak256(0, 0xffffffffffffffff)) }"
        = .ok code ∧
      analyze .strictAssembly code = .ok scopes ∧
      interpret .strictAssembly ⟨100, 2 ^ 64 - 1⟩ [] code
        = .error (.outsideMemory (2 ^ 64 - 1) 0) := by
  exact exists_of_accepted? (fun code => decide
    ((interpret .strictAssembly ⟨100, 2 ^ 64 - 1⟩ [] code).map (fun _ => ())
      = .error (.outsideMemory (2 ^ 64 - 1) 0))) (by decide +kernel)
    fun _ _ _ _ htest => eq_error_of_map (of_decide_eq_true htest)

end YulToolchain
