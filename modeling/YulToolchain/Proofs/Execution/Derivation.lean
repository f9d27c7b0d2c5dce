import YulToolchain.Proofs.Execution.Metering
import YulToolchain.Proofs.Execution.Operation
import YulToolchain.Proofs.Static.Analyzed
import Mathlib.Tactic.Common

/-!
# Runs without Bounds on Calls and Loops

The interpreter always comes to an end, and its bounds on the depth of calls and on the
rounds of a loop are not what ends it.

`Routine.Runs` says what running a routine means with no such bounds. A call runs the
routine of the function, and a loop runs its first round and then, if there is to be
another one, itself. A run is a finite derivation of that, so a routine that goes on
forever has none. It also says what happened on the way: which statements and rounds
have begun, and which instructions were executed, and in which state of the machine.

Between two calls of which one is made by the other there is always a step, since a
function has a body and the body is made of statements. A routine that makes calls only
after a step is `Guarded`, and those of blocks are. So it takes no more depth than there
are steps left. The rounds of a loop begin with a step as well.

There are limits for which all this is of no use. If memory may be touched where it can
not be had, the interpreter breaks off (`unavailable_memory_breaks_off`), and a counter
that may go up to its greatest number never goes beyond it.

## Main definitions

* `RunEvent`: What happens in a run.
* `Routine.Runs`: A routine has a run.
* `Routine.Guarded`: A routine makes calls only after a step.
* `Routine.Yields`: A routine has a run with an outcome.

## Theorems

* `Routine.Runs.unique`: A routine has at most one run from a state.
* `Routine.Runs.within`: A run begins no more statements and rounds than there are steps.
* `Routine.Runs.steps_le`: The counter goes one beyond the budget at most.
* `Routine.Runs.contained`: The interpreter does not break off in a run, if memory fits.
* `Block.routine_guarded`: A block makes calls only after a step.
* `Routine.yields_run`, `Routine.yields_call`: What the interpreter does is a run.
* `Block.yields_runProgram`: So is what it does with a program.
* `interpret_terminates`: Every program has a run, and it is that of the interpreter.
* `unavailable_memory_breaks_off`: A program without a result.
-/

namespace YulToolchain

/-- What happens in a run. -/
inductive RunEvent where
  /-- A statement or a round of a loop begins. -/
  | begun (s : MachineState)
  /-- An instruction is executed. -/
  | executed (s : MachineState) (op : Instruction) (args : List Word)

/-- Whether a statement or a round of a loop begins. -/
def RunEvent.isBegun : RunEvent → Bool
  | begun _ => true
  | executed _ _ _ => false

namespace Routine

/-- The first round of a loop and then, if there is another one, the loop. -/
def unrolled (round : Routine Bool) : Routine Unit :=
  .bind (.bind .step fun _ => round) fun again => if again then .loop round else pure ()

/-- What happens when a step is counted: something begins, unless the budget is used up. -/
def stepEvents (c : RunContext) (s : RunState) : List RunEvent :=
  match Run.step c s with
  | .ok _ _ => [.begun s.machine]
  | .error _ _ => []

/-- From a state, a routine has a run with an outcome in which some things happen. -/
inductive Runs (c : RunContext) :
    {α : Type} → Routine α → RunState → List RunEvent → Outcome α → Prop where
  | vars {α : Type} (m : Run α) (h : m.OnVariables) (s : RunState) :
      Runs c (.vars m h) s [] (m s)
  | step (s : RunState) : Runs c .step s (stepEvents c s) (Run.step c s)
  | instruction (op : Instruction) (args : List Word) (s : RunState) :
      Runs c (.instruction op args) s [.executed s.machine op args] (Run.instruction c op args s)
  | call {fs : FunctionScopes} {f : FunctionDef} {args : List Word} {s : RunState}
      {es : List RunEvent} {r : Outcome (List Word)}
      (body : Runs c (f.routine c.dialect fs args) s es r) : Runs c (.call fs f args) s es r
  | loop {round : Routine Bool} {s : RunState} {es : List RunEvent} {r : Outcome Unit}
      (rounds : Runs c (unrolled round) s es r) : Runs c (.loop round) s es r
  | andThen {α β : Type} {m : Routine α} {f : α → Routine β} {s t : RunState} {a : α}
      {es es' : List RunEvent} {r : Outcome β} (first : Runs c m s es (.ok a t))
      (next : Runs c (f a) t es' r) : Runs c (.bind m f) s (es ++ es') r
  | halts {α β : Type} {m : Routine α} {f : α → Routine β} {s t : RunState} {halt : Halt}
      {es : List RunEvent} (first : Runs c m s es (.error halt t)) :
      Runs c (.bind m f) s es (.error halt t)

variable {c : RunContext}

/-- What a run of a routine is made of. -/
def Unfolds (c : RunContext) :
    {α : Type} → Routine α → RunState → List RunEvent → Outcome α → Prop
  | _, .vars m _, s, es, r => es = [] ∧ r = m s
  | _, .step, s, es, r => es = stepEvents c s ∧ r = Run.step c s
  | _, .instruction op args, s, es, r =>
    es = [.executed s.machine op args] ∧ r = Run.instruction c op args s
  | _, .call fs f args, s, es, r => Runs c (f.routine c.dialect fs args) s es r
  | _, .loop round, s, es, r => Runs c (unrolled round) s es r
  | _, .bind m f, s, es, r =>
    (∃ a t es₁ es₂, Runs c m s es₁ (.ok a t) ∧ Runs c (f a) t es₂ r ∧ es = es₁ ++ es₂) ∨
      ∃ halt t, Runs c m s es (.error halt t) ∧ r = .error halt t

-- Stated for every routine at once, since the type of the values can not be told apart.
/-- A run can be taken apart at its first step. -/
theorem Runs.unfolds {α : Type} {m : Routine α} {s : RunState} {es : List RunEvent}
    {r : Outcome α} (h : Runs c m s es r) : m.Unfolds c s es r := by
  cases h with
  | vars m h s => exact ⟨rfl, rfl⟩
  | step s => exact ⟨rfl, rfl⟩
  | instruction op args s => exact ⟨rfl, rfl⟩
  | call body => exact body
  | loop rounds => exact rounds
  | andThen first next => exact Or.inl ⟨_, _, _, _, first, next, rfl⟩
  | halts first => exact Or.inr ⟨_, _, first, rfl⟩

/-- From a state, a routine has at most one run. -/
theorem Runs.unique {α : Type} {m : Routine α} {s : RunState} {es : List RunEvent}
    {r : Outcome α} (h : Runs c m s es r) :
    -- By induction on one of the runs; the other one is taken apart.
    ∀ {es' : List RunEvent} {r' : Outcome α}, Runs c m s es' r' → es' = es ∧ r' = r := by
  induction h with
  | vars m h s => exact fun h' => h'.unfolds
  | step s => exact fun h' => h'.unfolds
  | instruction op args s => exact fun h' => h'.unfolds
  | call body ih => exact fun h' => ih h'.unfolds
  | loop rounds ih => exact fun h' => ih h'.unfolds
  | andThen first next ihfirst ihnext =>
      intro es' r' h'
      -- Both end the first part alike.
      rcases h'.unfolds with ⟨a, t, es₁, es₂, hfirst, hnext, rfl⟩ | ⟨halt, t, hfirst, -⟩
      · rcases ihfirst hfirst with ⟨rfl, hvalue⟩
        cases hvalue
        rcases ihnext hnext with ⟨rfl, rfl⟩
        exact ⟨rfl, rfl⟩
      · exact absurd (ihfirst hfirst).2 nofun
  | halts first ih =>
      intro es' r' h'
      rcases h'.unfolds with ⟨a, t, es₁, es₂, hfirst, -, -⟩ | ⟨halt, t, hfirst, rfl⟩
      · exact absurd (ih hfirst).2 nofun
      · rcases ih hfirst with ⟨rfl, hhalt⟩
        cases hhalt
        exact ⟨rfl, rfl⟩

end Routine

section Steps

variable {c : RunContext}

/-- Within the budget a step counts, beyond it the run ends. -/
theorem Run.step_cases (hc : c.metered = true) (s : RunState) :
    (s.steps < c.limits.maxSteps ∧ Run.step c s = .ok () { s with steps := s.steps + 1 }) ∨
      c.limits.maxSteps ≤ s.steps ∧
        Run.step c s = .error (.ended .stepLimit) { s with steps := s.steps + 1 } := by
  simp only [Run.step_eq, hc, Bool.true_and, decide_eq_true_eq]
  rcases Nat.lt_or_ge s.steps c.limits.maxSteps with hlt | hge
  · rw [if_neg (by omega)]
    exact Or.inl ⟨hlt, rfl⟩
  · rw [if_pos (by omega)]
    exact Or.inr ⟨hge, rfl⟩

theorem Run.instruction_steps (op : Instruction) (args : List Word) (s : RunState) :
    (finalState (Run.instruction c op args s)).steps = s.steps := by
  simp only [Run.instruction, Run.onMachine, Bind.bind, EStateM.bind]
  cases op.execute c.limits args s.machine <;> rfl

theorem Run.OnVariables.steps {α : Type} {m : Run α} (h : m.OnVariables) (s : RunState) :
    (finalState (m s)).steps = s.steps := by
  rcases h s with ⟨a, env, hs⟩ | ⟨why, -, env, hs⟩ <;> rw [hs] <;> rfl

/-- A metered run begins no more statements and rounds than there are steps left. If it has a
    value, it has made one step for each. -/
theorem Routine.Runs.within (hc : c.metered = true) {α : Type} {m : Routine α} {s : RunState}
    {es : List RunEvent} {r : Outcome α} (h : m.Runs c s es r)
    (hs : s.steps ≤ c.limits.maxSteps) :
    s.steps + es.countP RunEvent.isBegun ≤ c.limits.maxSteps ∧
      ∀ a t, r = .ok a t → t.steps = s.steps + es.countP RunEvent.isBegun := by
  induction h with
  -- No event, and no step.
  | vars m h s =>
      refine ⟨hs, fun a t hr => ?_⟩
      rw [← h.steps s, hr]
      rfl
  | step s =>
      -- The step is within the budget, or it is the one that is refused.
      rcases Run.step_cases hc s with ⟨hlt, hstep⟩ | ⟨hge, hstep⟩
      · rw [Routine.stepEvents, hstep]
        refine ⟨hlt, fun a t hr => ?_⟩
        cases hr
        rfl
      · rw [Routine.stepEvents, hstep]
        exact ⟨hs, nofun⟩
  | instruction op args s =>
      refine ⟨hs, fun a t hr => ?_⟩
      rw [← Run.instruction_steps op args s, hr]
      rfl
  | call body ih => exact ih hs
  | loop rounds ih => exact ih hs
  | andThen first next ihfirst ihnext =>
      -- The second part has what the first one left of the budget.
      rcases ihfirst hs with ⟨hbudget, hsteps⟩
      have ht := hsteps _ _ rfl
      rcases ihnext (by omega) with ⟨hbudget', hsteps'⟩
      rw [List.countP_append]
      refine ⟨by omega, fun a u hr => ?_⟩
      rw [hsteps' a u hr]
      omega
  | halts first ih => exact ⟨(ih hs).1, nofun⟩

/-- The counter of a metered run goes one beyond the budget at most. -/
theorem Routine.Runs.steps_le (hc : c.metered = true) {α : Type} {m : Routine α} {s : RunState}
    {es : List RunEvent} {r : Outcome α} (h : m.Runs c s es r)
    (hs : s.steps ≤ c.limits.maxSteps) : (finalState r).steps ≤ c.limits.maxSteps + 1 := by
  induction h with
  | vars m h s =>
      rw [h.steps s]
      omega
  | step s =>
      rcases Run.step_cases hc s with ⟨hlt, hstep⟩ | ⟨-, hstep⟩
      · rw [hstep]
        exact Nat.le_succ_of_le hlt
      · rw [hstep]
        exact Nat.succ_le_succ hs
  | instruction op args s =>
      rw [Run.instruction_steps]
      omega
  | call body ih => exact ih hs
  | loop rounds ih => exact ih hs
  | andThen first next ihfirst ihnext =>
      -- What comes next starts within the budget, since the first part has a value.
      rcases first.within hc hs with ⟨hbudget, hsteps⟩
      have ht := hsteps _ _ rfl
      exact ihnext (by omega)
  | halts first ih => exact ih hs

end Steps

section Memory

variable {c : RunContext}

/-- The interpreter does not break off in a run, if memory fits. -/
theorem Routine.Runs.contained (hfits : c.limits.MemoryFits) {α : Type} {m : Routine α}
    {s : RunState} {es : List RunEvent} {r : Outcome α} (h : m.Runs c s es r) :
    ∀ halt t, r = .error halt t → halt.breaksOff = false := by
  induction h with
  -- Changing variables fails with faults that are reported.
  | vars m h s =>
      intro halt t hr
      rcases h s with ⟨a, env, hs⟩ | ⟨why, hwhy, env, hs⟩
      · exact absurd (hs.symm.trans hr) (by rintro ⟨⟩)
      · cases hs.symm.trans hr
        exact hwhy
  | step s =>
      intro halt t hr
      rw [Run.step_eq] at hr
      split at hr
      · cases hr
        rfl
      · exact absurd hr (by rintro ⟨⟩)
  | instruction op args s =>
      intro halt t hr
      simp only [Run.instruction, Run.onMachine, Bind.bind, EStateM.bind] at hr
      cases hop : op.execute c.limits args s.machine with
      -- An instruction halts as the machine does.
      | ok value machine =>
          rw [hop] at hr
          exact absurd hr (by rintro ⟨⟩)
      | error halt' machine =>
          rw [hop] at hr
          cases hr
          exact Instruction.execute_contained hfits hop
  | call body ih => exact ih
  | loop rounds ih => exact ih
  | andThen first next ihfirst ihnext => exact ihnext
  | halts first ih =>
      rintro halt t ⟨⟩
      exact ih _ _ rfl

/-- What a run reports are faults in which the interpreter does not break off. -/
theorem Routine.Runs.result_contained (hfits : c.limits.MemoryFits) {α : Type} {m : Routine α}
    {s : RunState} {es : List RunEvent} {r : Outcome α} (h : m.Runs c s es r) {why : RunFault}
    (hr : r.result = .error why) : why.breaksOff = false := by
  rcases r with ⟨a, t⟩ | ⟨_ | fault, t⟩
  · exact absurd hr nofun
  · exact absurd hr nofun
  · cases hr
    exact h.contained hfits _ _ rfl

end Memory

namespace Routine

/-- A routine is the counting of a step. -/
inductive IsStep : {α : Type} → Routine α → Prop where
  | step : IsStep .step

/-- A routine makes calls only after a step. -/
def Guarded : {α : Type} → Routine α → Prop
  | _, .vars _ _ => True
  | _, .step => True
  | _, .instruction _ _ => True
  | _, .call _ _ _ => False
  | _, .loop _ => True
  | _, .bind m f => m.IsStep ∨ m.Guarded ∧ ∀ a, (f a).Guarded

theorem Guarded.andThen {α β : Type} {m : Routine α} {f : α → Routine β} (hm : m.Guarded)
    (hf : ∀ a, (f a).Guarded) : (m >>= f).Guarded := Or.inr ⟨hm, hf⟩

/-- Whatever comes after a step. -/
theorem guarded_step {β : Type} (f : Unit → Routine β) : (step >>= f).Guarded :=
  Or.inl .step

theorem Guarded.inScope {α : Type} {m : Routine α} (h : m.Guarded) : (inScope m).Guarded :=
  .andThen trivial fun _ => .andThen h fun _ => .andThen trivial fun _ => trivial

end Routine

/-- A statement begins with a step. -/
theorem Stmt.routine_guarded (d : Dialect) (fs : FunctionScopes) (s : Stmt) :
    (s.routine d fs).Guarded := by
  cases s with
  | loop line pre test post body =>
      rcases pre with ⟨start, pre⟩
      rw [Stmt.routine]
      exact Routine.guarded_step _
  | _ =>
      rw [Stmt.routine]
      exact Routine.guarded_step _

/-- Statements are guarded in a row. -/
theorem Stmt.routineSeq_guarded (d : Dialect) (fs : FunctionScopes) : ∀ stmts : List Stmt,
    (Stmt.routineSeq d fs stmts).Guarded
  | [] => by
      rw [Stmt.routineSeq]
      exact trivial
  | s :: rest => by
      rw [Stmt.routineSeq]
      refine .andThen (s.routine_guarded d fs) fun flow => ?_
      cases flow with
      | next => exact Stmt.routineSeq_guarded d fs rest
      | brk => exact trivial
      | cont => exact trivial

/-- A block makes calls only after a step. -/
theorem Block.routine_guarded (d : Dialect) (fs : FunctionScopes) (b : Block) :
    (b.routine d fs).Guarded := by
  rcases b with ⟨line, stmts⟩
  rw [Block.routine]
  exact (Stmt.routineSeq_guarded d _ stmts).inScope

/-- Between a call and the calls that it makes there is a step. -/
theorem FunctionDef.routine_guarded (d : Dialect) (fs : FunctionScopes) (f : FunctionDef)
    (args : List Word) : (f.routine d fs args).Guarded :=
  .andThen trivial fun _ => .andThen (f.body.routine_guarded d fs) fun _ =>
    .andThen trivial fun _ => trivial

namespace Routine

variable {c : RunContext}

/-- From a state, a routine has a run with an outcome. -/
def Yields {α : Type} (c : RunContext) (m : Routine α) (s : RunState) (r : Outcome α) : Prop :=
  ∃ es, m.Runs c s es r

/-- A run goes on after a value and ends at a halt. -/
theorem Yields.bind {α β : Type} {m : Routine α} {f : α → Routine β} {m' : Run α}
    {f' : α → Run β} {s : RunState} (hm : m.Yields c s (m' s))
    (hf : ∀ a t, m.Yields c s (.ok a t) → (f a).Yields c t (f' a t)) :
    (Routine.bind m f).Yields c s ((m' >>= f') s) := by
  simp only [Bind.bind, EStateM.bind]
  rcases hm with ⟨es, hes⟩
  cases hr : m' s with
  | ok a t =>
      rw [hr] at hes
      rcases hf a t ⟨es, hes⟩ with ⟨es', hes'⟩
      exact ⟨es ++ es', .andThen hes hes'⟩
  | error halt t =>
      rw [hr] at hes
      exact ⟨es, .halts hes⟩

/-- A value is reached without a step being taken back, and within the budget. -/
theorem Yields.steps (hc : c.metered = true) {α : Type} {m : Routine α} {s t : RunState} {a : α}
    (h : m.Yields c s (.ok a t)) (hs : s.steps ≤ c.limits.maxSteps) :
    s.steps ≤ t.steps ∧ t.steps ≤ c.limits.maxSteps := by
  rcases h with ⟨es, hes⟩
  rcases hes.within hc hs with ⟨hbudget, hsteps⟩
  have ht := hsteps a t rfl
  omega

/-- Counting a step leads to a state with one more step, if there is one. -/
theorem Yields.step_eq (hc : c.metered = true) {s t : RunState} {a : Unit}
    (h : Yields c .step s (.ok a t)) : s.steps < c.limits.maxSteps ∧ t.steps = s.steps + 1 := by
  rcases h with ⟨es, hes⟩
  have hr := hes.unfolds.2
  rcases Run.step_cases hc s with ⟨hlt, hstep⟩ | ⟨-, hstep⟩
  · rw [hstep] at hr
    cases hr
    exact ⟨hlt, rfl⟩
  · rw [hstep] at hr
    exact absurd hr nofun

/-- What comes after a step has a value in a state with more steps. -/
theorem Yields.after_step (hc : c.metered = true) {α : Type} {m : Unit → Routine α}
    {s t : RunState} {a : α} (h : (Routine.bind .step m).Yields c s (.ok a t)) :
    s.steps < t.steps ∧ t.steps ≤ c.limits.maxSteps := by
  rcases h with ⟨es, hes⟩
  rcases hes.unfolds with ⟨a, u, es₁, es₂, hstep, hnext, -⟩ | ⟨halt, u, -, herror⟩
  · have hu := Yields.step_eq hc ⟨es₁, hstep⟩
    have ht := Yields.steps hc ⟨es₂, hnext⟩ (by omega)
    omega
  · exact absurd herror nofun

/-- The rounds of a loop are a run of it, if they may be more than there are steps left. -/
theorem yields_rounds (hc : c.metered = true) {depth : Nat} {round : Routine Bool}
    {round' : Run Bool} (hround : ∀ s, s.steps ≤ c.limits.maxSteps →
      c.limits.maxSteps < s.steps + depth → round.Yields c s (round' s)) :
    ∀ (n : Nat) (s : RunState), s.steps ≤ c.limits.maxSteps →
      c.limits.maxSteps < s.steps + n → c.limits.maxSteps ≤ s.steps + depth →
      (loop round).Yields c s (Run.rounds n (Run.step c >>= fun _ => round') s)
  | 0, s, hs, hn, _ => absurd hs (Nat.not_le.mpr hn)
  | n + 1, s, hs, hn, hdepth => by
      -- Every round takes a step, so there is one step less for the others.
      have hfirst : (Routine.bind .step fun _ => round).Yields c s
          ((Run.step c >>= fun _ => round') s) := by
        refine Yields.bind ⟨_, .step s⟩ fun _ t ht => ?_
        have hsteps := ht.step_eq hc
        exact hround t (by omega) (by omega)
      have hunrolled : (unrolled round).Yields c s
          (Run.rounds (n + 1) (Run.step c >>= fun _ => round') s) := by
        refine hfirst.bind fun again t ht => ?_
        have hsteps := ht.after_step hc
        cases again with
        -- Another round with the steps that are left.
        | true => exact yields_rounds hc hround n t (by omega) (by omega) (by omega)
        | false => exact ⟨[], .vars (Pure.pure ()) _ t⟩
      rcases hunrolled with ⟨es, hes⟩
      exact ⟨es, .loop hes⟩

/-- What the interpreter does is a run, if calls may be deeper than there are steps left and
    what they do is a run. A routine that makes calls only after a step needs one level less. -/
theorem yields_run (hc : c.metered = true) {depth : Nat} {call : Caller}
    (hcall : ∀ fs f args s, s.steps ≤ c.limits.maxSteps → c.limits.maxSteps < s.steps + depth →
      (Routine.call fs f args).Yields c s (call fs f args s)) :
    ∀ {α : Type} (m : Routine α) (s : RunState), s.steps ≤ c.limits.maxSteps →
      c.limits.maxSteps ≤ s.steps + depth → m.Guarded ∨ c.limits.maxSteps < s.steps + depth →
      m.Yields c s (m.run c call s) := by
  intro α m
  induction m with
  | vars m h => exact fun s _ _ _ => ⟨[], .vars m h s⟩
  | step => exact fun s _ _ _ => ⟨_, .step s⟩
  | instruction op args => exact fun s _ _ _ => ⟨_, .instruction op args s⟩
  | call fs f args => exact fun s hs _ hdeep => hcall fs f args s hs (hdeep.resolve_left id)
  | loop round ih =>
      intro s hs hdepth _
      have hround : ∀ t : RunState, t.steps ≤ c.limits.maxSteps →
          c.limits.maxSteps < t.steps + depth → round.Yields c t (round.run c call t) :=
        fun t ht hdeep => ih t ht (Nat.le_of_lt hdeep) (Or.inr hdeep)
      exact yields_rounds hc hround _ s hs (by omega) hdepth
  | bind m f ihm ihf =>
      intro s hs hdepth hdeep
      have hfirst : m.Guarded ∨ c.limits.maxSteps < s.steps + depth := by
        refine hdeep.imp_left fun hguarded => ?_
        rcases hguarded with ⟨⟨⟩⟩ | ⟨hm, -⟩
        · exact trivial
        · exact hm
      refine Yields.bind (ihm s hs hdepth hfirst) fun a t ht => ?_
      have hsteps := ht.steps hc hs
      refine ihf a t hsteps.2 (by omega) ?_
      -- A step that was made on the way is worth a level of calls.
      rcases hdeep with (⟨⟨⟩⟩ | ⟨-, hf⟩) | hdeep
      · have hstep := ht.step_eq hc
        exact Or.inr (by omega)
      · exact Or.inl (hf a)
      · exact Or.inr (by omega)

/-- A call is a run, if calls may be deeper than there are steps left. -/
theorem yields_call (hc : c.metered = true) : ∀ (depth : Nat) (fs : FunctionScopes)
    (f : FunctionDef) (args : List Word) (s : RunState), s.steps ≤ c.limits.maxSteps →
      c.limits.maxSteps < s.steps + depth →
      (Routine.call fs f args).Yields c s (FunctionDef.call c depth fs f args s)
  | 0, _, _, _, _, hs, hdeep => absurd hs (Nat.not_le.mpr hdeep)
  | depth + 1, fs, f, args, s, hs, hdeep => by
      rw [FunctionDef.call_eq_routine]
      rcases yields_run hc (yields_call hc depth) (f.routine c.dialect fs args) s hs (by omega)
        (Or.inl (f.routine_guarded c.dialect fs args)) with ⟨es, hes⟩
      exact ⟨es, .call hes⟩

end Routine

/-- What the interpreter does with a program is a run of it. -/
theorem Block.yields_runProgram (d : Dialect) (limits : Limits) (code : Block)
    (machine : MachineState) : (code.routine d []).Yields ⟨d, limits, true⟩ ⟨machine, 0, []⟩
      (code.runProgram ⟨d, limits, true⟩ ⟨machine, 0, []⟩) := by
  rw [Block.runProgram_eq_routine]
  -- There is a step before the first call, so there is a level for every call.
  have hdepth : limits.maxSteps ≤ 0 + limits.maxSteps := Nat.le_of_eq (Nat.zero_add _).symm
  exact Routine.yields_run (c := ⟨d, limits, true⟩) rfl
    (Routine.yields_call rfl limits.maxSteps) (code.routine d []) ⟨machine, 0, []⟩
    (Nat.zero_le _) hdepth (Or.inl (code.routine_guarded d []))

/-- The interpreter does not break off in a program, if memory fits. -/
theorem interpret_contained (d : Dialect) {limits : Limits} (hfits : limits.MemoryFits)
    (calldata : List UInt8) (code : Block) {why : RunFault}
    (h : interpret d limits calldata code = .error why) : why.breaksOff = false := by
  rcases code.yields_runProgram d limits (.initial calldata) with ⟨es, hes⟩
  rw [interpret_eq_result] at h
  exact Routine.Runs.result_contained (c := ⟨d, limits, true⟩) hfits hes h

/-- Every program has exactly one run, and the interpreter returns its result, provided that
    memory can have all the words below its limit: it does not break off. No more statements and
    rounds of loops are begun in it than the budget has steps, and the counter of the steps stays
    in its range, provided that it can exceed the budget. -/
theorem interpret_terminates (d : Dialect) {limits : Limits} (hfits : limits.MemoryFits)
    (hsteps : limits.maxSteps + 1 < sizeRange) (calldata : List UInt8) (code : Block) :
    ∃ es r,
      (code.routine d []).Runs ⟨d, limits, true⟩ ⟨.initial calldata, 0, []⟩ es r ∧
      interpret d limits calldata code = r.result ∧
      (∀ why, r.result = .error why → why.breaksOff = false) ∧
      es.countP RunEvent.isBegun ≤ limits.maxSteps ∧
      (finalState r).steps < sizeRange ∧
      ∀ es' r', (code.routine d []).Runs ⟨d, limits, true⟩ ⟨.initial calldata, 0, []⟩ es' r' →
        es' = es ∧ r' = r := by
  rcases code.yields_runProgram d limits (.initial calldata) with ⟨es, hes⟩
  have hwithin := (hes.within rfl (Nat.zero_le _)).1
  rw [Nat.zero_add] at hwithin
  have hcounter := hes.steps_le rfl (Nat.zero_le _)
  exact ⟨es, _, hes, interpret_eq_result d limits calldata code,
    fun why => Routine.Runs.result_contained (c := ⟨d, limits, true⟩) hfits hes, hwithin,
    Nat.lt_of_le_of_lt hcounter hsteps, fun es' r' h => hes.unique h⟩

/-- A function that calls itself in the condition of an endless loop. -/
theorem interpret_terminates_recursive :
    ∃ code scopes, parseBlock .strictAssembly
        "{ function f(n) -> r { for {} f(add(n, r)) {} { r := f(r) } } for {} 1 {} { pop(f(1)) } }"
          = .ok code ∧
      analyze .strictAssembly code = .ok scopes ∧
      (interpret .strictAssembly ⟨20, 64⟩ [] code).map (·.termination) = .ok (some .stepLimit) ∧
      ∃ es r, (code.routine .strictAssembly []).Runs ⟨.strictAssembly, ⟨20, 64⟩, true⟩
          ⟨.initial [], 0, []⟩ es r ∧
        interpret .strictAssembly ⟨20, 64⟩ [] code = r.result ∧
        es.countP RunEvent.isBegun ≤ 20 := by
  refine exists_of_accepted? (fun code => decide
    ((interpret .strictAssembly ⟨20, 64⟩ [] code).map (·.termination) = .ok (some .stepLimit)))
    (by decide +kernel) fun code _ _ _ htest => ⟨of_decide_eq_true htest, ?_⟩
  have hlimits : Limits.MemoryFits ⟨20, 64⟩ := by decide
  rcases interpret_terminates .strictAssembly hlimits (by decide) [] code
    with ⟨es, r, hes, hr, -, hbegun, -, -⟩
  exact ⟨es, r, hes, hr, hbegun⟩

/-- A limit beyond what memory can have. The interpreter breaks off in an access below it. -/
theorem unavailable_memory_breaks_off :
    ∃ code scopes, parseBlock .strictAssembly "{ pop(keccak256(0, 0x7fffffffffffffff)) }"
        = .ok code ∧
      analyze .strictAssembly code = .ok scopes ∧
      ∃ why, interpret .strictAssembly ⟨100, 2 ^ 63 - 1⟩ [] code = .error why ∧
        why.breaksOff = true := by
  refine exists_of_accepted? (fun code => decide
    ((interpret .strictAssembly ⟨100, 2 ^ 63 - 1⟩ [] code).map (fun _ => ())
      = .error (.tooMuchMemory (2 ^ 63)))) (by decide +kernel)
    fun code _ _ _ htest => ⟨.tooMuchMemory (2 ^ 63), ?_, rfl⟩
  exact eq_error_of_map (of_decide_eq_true htest)

end YulToolchain
