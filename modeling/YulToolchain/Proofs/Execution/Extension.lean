import YulToolchain.Proofs.Execution.Metering
import YulToolchain.Proofs.Execution.Operation
import YulToolchain.Proofs.Static.Analyzed
import Mathlib.Tactic.Common

/-!
# Runs in Larger Budgets

A larger budget never changes what a run has done.

A run that does not use up its budget is the same in every larger one. A run that does
use it up goes on from there in a larger budget, and whatever it records comes after what
it had recorded before. The second part can not be said of outcomes alone, since it says
what happens between two of them. It takes that no computation ever takes back anything
it recorded, and that is true because it is true of instructions.

## Main definitions

* `Advancing`: Whatever happens lets the machine advance.
* `Continues`: A computation goes on where another one is out of steps.

## Theorems

* `Routine.run_advancing`: The machine advances in every run of a routine.
* `Routine.run_continues`: A run continues every run of the same routine with fewer steps.
* `interpret_extends`: Larger budgets keep results, and traces grow.
-/

namespace YulToolchain

/-- However a computation ends, the machine has advanced. -/
def Advancing {α : Type} (limits : Limits) (m : Run α) : Prop :=
  ∀ s : RunState, s.machine.Advances limits (finalState (m s)).machine

namespace Advancing

variable {α β : Type} {limits : Limits} {m : Run α} {f : α → Run β}

/-- A computation that leaves the machine alone. -/
theorem still (h : ∀ s, (finalState (m s)).machine = s.machine) : Advancing limits m :=
  fun s => (h s).symm ▸ .refl s.machine

theorem pure (a : α) : Advancing limits (Pure.pure a : Run α) := still fun _ => rfl

theorem onVariables (h : m.OnVariables) : Advancing limits m := by
  refine still fun s => ?_
  rcases h s with ⟨a, env, hs⟩ | ⟨why, -, env, hs⟩ <;> rw [hs] <;> rfl

/-- Steps of both parts. -/
theorem bind (hm : Advancing limits m) (hf : ∀ a, Advancing limits (f a)) :
    Advancing limits (m >>= f) := by
  intro s
  have hs := hm s
  simp only [Bind.bind, EStateM.bind]
  cases hr : m s with
  | ok a t =>
      rw [hr] at hs
      exact hs.trans (hf a t)
  | error halt t =>
      rw [hr] at hs
      exact hs

theorem step (c : RunContext) : Advancing limits (Run.step c) := by
  refine still fun s => ?_
  rw [Run.step_eq]
  split <;> rfl

/-- An instruction adds to the trace. -/
theorem instruction (c : RunContext) (op : Instruction) (args : List Word) :
    Advancing c.limits (Run.instruction c op args) := by
  refine bind (fun s => ?_) fun r => pure _
  have hs := op.execute_advances c.limits args s.machine
  simp only [Run.onMachine]
  cases hr : op.execute c.limits args s.machine with
  | ok r t =>
      rw [hr] at hs
      exact hs
  | error halt t =>
      rw [hr] at hs
      exact hs

/-- Rounds advance if one does. -/
theorem rounds {round : Run Bool} (h : Advancing limits round) :
    ∀ n : Nat, Advancing limits (Run.rounds n round) := by
  intro n
  induction n with
  | zero => exact still fun _ => rfl
  | succ n ih =>
      rw [Run.rounds]
      refine h.bind fun again => ?_
      cases again with
      | true => exact ih
      | false => exact pure ()

end Advancing

section Runs

variable {c : RunContext}

/-- The machine advances in every run of a routine, if it does in calls. -/
theorem Routine.run_advancing {call : Caller}
    (hcall : ∀ fs f args, Advancing c.limits (call fs f args)) :
    ∀ {α : Type} (m : Routine α), Advancing c.limits (m.run c call)
  | _, .vars _ hm => Advancing.onVariables hm
  | _, .step => Advancing.step c
  | _, .instruction op args => Advancing.instruction c op args
  | _, .call fs f args => hcall fs f args
  | _, .loop round =>
      ((Advancing.step c).bind fun _ => Routine.run_advancing hcall round).rounds
        (c.limits.maxSteps + 1)
  | _, .bind m f => (Routine.run_advancing hcall m).bind fun a => Routine.run_advancing hcall (f a)

/-- Calls advance, however deep they may go. -/
theorem FunctionDef.call_advancing : ∀ (depth : Nat) (fs : FunctionScopes) (f : FunctionDef)
    (args : List Word), Advancing c.limits (FunctionDef.call c depth fs f args)
  | 0, _, _, _ => Advancing.still fun _ => rfl
  | depth + 1, fs, f, args => by
      rw [FunctionDef.call_eq_routine]
      exact Routine.run_advancing (FunctionDef.call_advancing depth) _

end Runs

/-- What is recorded in a state. -/
def RunState.recorded (s : RunState) : List TraceEvent := s.machine.trace.toList

/-- From every state, a second computation does the same as a first one, or the first one is
    out of steps and the second one goes on recording. -/
def Continues {α : Type} (m m' : Run α) : Prop := ∀ s, m' s = m s ∨
  Spent (m s) ∧ (finalState (m s)).recorded <+: (finalState (m' s)).recorded

namespace Continues

variable {α β : Type} {limits : Limits} {m m' : Run α} {f f' : α → Run β}

theorem refl (m : Run α) : Continues m m := fun _ => Or.inl rfl

/-- A computation that is out of steps at once is continued by every advancing one. -/
theorem spent {t : Run α} (h : ∀ s, t s = .error (.ended .stepLimit) s) (hm : Advancing limits m) :
    Continues t m := by
  intro s
  rw [h]
  exact Or.inr ⟨rfl, (hm s).trace⟩

/-- A run continues another one part by part. -/
theorem bind (hm : Continues m m') (hf : ∀ a, Continues (f a) (f' a))
    (hadvancing : ∀ a, Advancing limits (f' a)) : Continues (m >>= f) (m' >>= f') := by
  intro s
  simp only [Bind.bind, EStateM.bind]
  -- Either the first part is the same in both, or it has spent the smaller budget.
  rcases hm s with hsame | ⟨hspent, hprefix⟩
  · rw [hsame]
    cases m s with
    | ok a t => exact hf a t
    | error halt t => exact Or.inl rfl
  · -- The first one is out of steps here, whatever comes next in it.
    cases hr : m s with
    | ok a t =>
        rw [hr] at hspent
        exact hspent.elim
    | error halt t =>
        rw [hr] at hspent hprefix
        cases hr' : m' s with
        | error halt' t' =>
            rw [hr'] at hprefix
            exact Or.inr ⟨hspent, hprefix⟩
        | ok a t' =>
            rw [hr'] at hprefix
            exact Or.inr ⟨hspent, hprefix.trans (hadvancing a t').trace⟩

/-- A step within the smaller budget is one within the larger. -/
theorem step {c c' : RunContext} (h : c.Covers c') (hmetered : c'.metered = c.metered) :
    Continues (Run.step c) (Run.step c') := by
  intro s
  have hsteps := h.steps
  rw [Run.step_eq, Run.step_eq, hmetered]
  by_cases hover : (c.metered && decide (c.limits.maxSteps < s.steps + 1)) = true
  · rw [if_pos hover]
    refine Or.inr ⟨rfl, ?_⟩
    split <;> exact List.prefix_refl _
  · have hunder : ¬(c.metered && decide (c'.limits.maxSteps < s.steps + 1)) = true := by
      rw [Bool.and_eq_true, decide_eq_true_iff] at hover ⊢
      exact fun h => hover ⟨h.1, by omega⟩
    rw [if_neg hover, if_neg hunder]
    exact Or.inl rfl

/-- Instructions do not depend on the budget for steps. -/
theorem instruction {c c' : RunContext} (h : c.Covers c') (op : Instruction) (args : List Word) :
    Continues (Run.instruction c op args) (Run.instruction c' op args) := by
  rw [Run.instruction, Run.instruction, Instruction.execute_limits h.memory]
  exact refl _

/-- More rounds continue fewer. -/
theorem rounds {round round' : Run Bool} (h : Continues round round')
    (hadvancing : Advancing limits round') :
    ∀ {n n' : Nat}, n ≤ n' → Continues (Run.rounds n round) (Run.rounds n' round')
  | 0, n', _ => spent (fun _ => rfl) (hadvancing.rounds n')
  | n + 1, 0, hle => absurd hle (Nat.not_succ_le_zero n)
  | n + 1, n' + 1, hle => by
      rw [Run.rounds, Run.rounds]
      have hrest : ∀ again : Bool,
          Advancing limits (if again = true then Run.rounds n' round' else Pure.pure ()) := by
        intro again
        cases again with
        | true => exact hadvancing.rounds n'
        | false => exact Advancing.pure ()
      refine h.bind (fun again => ?_) hrest
      cases again with
      | true => exact rounds h hadvancing (Nat.le_of_succ_le_succ hle)
      | false => exact refl _

end Continues

section Runs

variable {c c' : RunContext}

/-- A run continues every run of the same routine with fewer steps, if the calls do. -/
theorem Routine.run_continues (h : c.Covers c') (hmetered : c'.metered = c.metered)
    {call call' : Caller} (hcall : ∀ fs f args, Continues (call fs f args) (call' fs f args))
    (hadvancing : ∀ fs f args, Advancing c'.limits (call' fs f args)) :
    ∀ {α : Type} (m : Routine α), Continues (m.run c call) (m.run c' call')
  | _, .vars m _ => Continues.refl m
  | _, .step => Continues.step h hmetered
  | _, .instruction op args => Continues.instruction h op args
  | _, .call fs f args => hcall fs f args
  | _, .loop round => by
      have hround := Routine.run_advancing hadvancing round
      exact ((Continues.step h hmetered).bind
        (fun _ => Routine.run_continues h hmetered hcall hadvancing round) fun _ => hround).rounds
        ((Advancing.step c').bind fun _ => hround) (Nat.succ_le_succ h.steps)
  | _, .bind m f => (Routine.run_continues h hmetered hcall hadvancing m).bind
      (fun a => Routine.run_continues h hmetered hcall hadvancing (f a))
      fun a => Routine.run_advancing hadvancing (f a)

/-- Calls with a higher bound on their depth continue those with a lower one. -/
theorem FunctionDef.call_continues (h : c.Covers c') (hmetered : c'.metered = c.metered) :
    ∀ {depth depth' : Nat}, depth ≤ depth' → ∀ fs f args,
      Continues (FunctionDef.call c depth fs f args) (FunctionDef.call c' depth' fs f args)
  | 0, depth', _, fs, f, args =>
      Continues.spent (fun _ => rfl) (FunctionDef.call_advancing depth' fs f args)
  | depth + 1, 0, hle, _, _, _ => absurd hle (Nat.not_succ_le_zero depth)
  | depth + 1, depth' + 1, hle, fs, f, args => by
      rw [FunctionDef.call_eq_routine, FunctionDef.call_eq_routine, h.dialect]
      exact Routine.run_continues h hmetered
        (FunctionDef.call_continues h hmetered (Nat.le_of_succ_le_succ hle))
        (FunctionDef.call_advancing depth') _

/-- A program with more steps continues it with fewer. -/
theorem Block.run_continues (h : c.Covers c') (hmetered : c'.metered = c.metered) (b : Block) :
    Continues (b.runProgram c) (b.runProgram c') := by
  rw [Block.runProgram_eq_routine, Block.runProgram_eq_routine, h.dialect]
  exact Routine.run_continues h hmetered (FunctionDef.call_continues h hmetered h.steps)
    (FunctionDef.call_advancing _) _

end Runs

/-- A run that does not use up its budget has the same result in every larger budget. One that
    does has recorded a prefix of what any completed run in a larger budget records. -/
theorem interpret_extends (d : Dialect) (code : Block) (calldata : List UInt8) (maxMemory : Nat)
    {n m : Nat} (h : n ≤ m) :
    ((∀ state, interpret d ⟨n, maxMemory⟩ calldata code ≠ .ok ⟨state, some .stepLimit⟩) →
      interpret d ⟨m, maxMemory⟩ calldata code = interpret d ⟨n, maxMemory⟩ calldata code) ∧
    ∀ state r, interpret d ⟨n, maxMemory⟩ calldata code = .ok ⟨state, some .stepLimit⟩ →
      interpret d ⟨m, maxMemory⟩ calldata code = .ok r →
      state.trace.toList <+: r.state.trace.toList := by
  -- The larger budget covers the smaller one.
  have hcovers : RunContext.Covers ⟨d, ⟨n, maxMemory⟩, true⟩ ⟨d, ⟨m, maxMemory⟩, true⟩ :=
    ⟨rfl, rfl, h⟩
  have hcontinues := Block.run_continues hcovers rfl code ⟨.initial calldata, 0, []⟩
  simp only [interpret_eq_result]
  refine ⟨fun hended => ?_, fun state r hspent hr => ?_⟩
  · rcases hcontinues with hsame | ⟨hspent, _⟩
    · rw [hsame]
    · exact absurd hspent (not_spent_of_result hended)
  -- The state of a result is the final one.
  · have hfinal : ∀ {r : Outcome Flow} {res : RunResult}, r.result = .ok res →
        res.state = (finalState r).machine := by
      intro r res hres
      rcases r with ⟨flow, s⟩ | ⟨_ | _, s⟩ <;> cases hres <;> rfl
    have hprefix : (finalState (code.runProgram ⟨d, ⟨n, maxMemory⟩, true⟩
        ⟨.initial calldata, 0, []⟩)).recorded
          <+: (finalState (code.runProgram ⟨d, ⟨m, maxMemory⟩, true⟩
            ⟨.initial calldata, 0, []⟩)).recorded := by
      -- What was recorded with fewer steps is recorded first.
      rcases hcontinues with hsame | ⟨_, hprefix⟩
      · simp only [hsame, List.prefix_rfl]
      · exact hprefix
    have hstate : state = _ := hfinal hspent
    rw [hstate, hfinal hr]
    exact hprefix

/-- A function that records something and calls itself, in a loop. With ten steps it is stopped
    in the middle of a call. -/
theorem interpret_extends_recursive :
    ∃ code scopes, parseBlock .strictAssembly
        "{ function f(n) { log1(0, n, n) if n { f(sub(n, 1)) } }
          for { let i := 2 } i { i := sub(i, 1) } { f(i) } }"
          = .ok code ∧
      analyze .strictAssembly code = .ok scopes ∧
      (∃ state r, interpret .strictAssembly ⟨10, 100⟩ [] code = .ok ⟨state, some .stepLimit⟩ ∧
        interpret .strictAssembly ⟨30, 100⟩ [] code = .ok r ∧
        state.trace.size = 2 ∧ r.state.trace.size = 5 ∧
        state.trace.toList <+: r.state.trace.toList) ∧
      (∀ state, interpret .strictAssembly ⟨30, 100⟩ [] code ≠ .ok ⟨state, some .stepLimit⟩) ∧
      interpret .strictAssembly ⟨40, 100⟩ [] code
        = interpret .strictAssembly ⟨30, 100⟩ [] code := by
  refine exists_of_accepted? (fun code =>
    (match interpret .strictAssembly ⟨10, 100⟩ [] code with
      | .ok r => decide (r.termination = some .stepLimit ∧ r.state.trace.size = 2)
      | .error _ => false) &&
    match interpret .strictAssembly ⟨30, 100⟩ [] code with
      | .ok r => decide (r.termination = none ∧ r.state.trace.size = 5)
      | .error _ => false) (by decide +kernel) fun code scopes _ _ htest => ?_
  -- Three runs of the program are evaluated.
  rw [Bool.and_eq_true] at htest
  cases hshort : interpret .strictAssembly ⟨10, 100⟩ [] code with
  | error why =>
      rw [hshort] at htest
      exact absurd htest.1 Bool.false_ne_true
  | ok short =>
      cases hlong : interpret .strictAssembly ⟨30, 100⟩ [] code with
      | error why =>
          rw [hlong] at htest
          exact absurd htest.2 Bool.false_ne_true
      | ok r =>
          rw [hshort, hlong] at htest
          rcases short with ⟨state, termination⟩
          simp only [decide_eq_true_eq] at htest
          rcases htest with ⟨⟨rfl, hsize⟩, hended, hsize'⟩
          have hlimit : ∀ state, interpret .strictAssembly ⟨30, 100⟩ [] code
              ≠ .ok ⟨state, some .stepLimit⟩ := by
            intro state h
            rw [hlong] at h
            cases h
            exact absurd hended (Option.some_ne_none _)
          -- The theorem gives the prefix, and the equality of the longer runs.
          refine ⟨⟨state, r, rfl, rfl, hsize, hsize', ?_⟩, hlong ▸ hlimit, ?_⟩
          · exact (interpret_extends .strictAssembly code [] 100 (by decide)).2 state r hshort hlong
          · rw [← hlong]
            exact (interpret_extends .strictAssembly code [] 100 (by decide)).1 hlimit

end YulToolchain
