import YulToolchain.Execution.Interpreter

/-!
# Outcomes of Runs

How the outcome of a computation follows from those of its parts.

A computation of the interpreter either ends with a value in a state, or halts in
a state. Two things are said about outcomes. `Ends` is about one outcome: it is a
value with a property, or one of the halts that well-formed code may come to.
`Both` is about two outcomes: they are values that are related, or the same halt
in states that are related. Each has a rule for sequencing, and proofs about the
interpreter follow its text with these rules.

Everything is said of the outcome from one state and not of the computation, so
that what holds afterwards can refer to the state before.

## Main definitions

* `Halt.Allowed`: The halts that well-formed code may come to.
* `Ends`: An outcome is a value with a property, or an allowed halt.
* `Both`: Two outcomes are related values, or the same halt.
* `SameMachine`: Two states have the same machine.

## Theorems

* `Ends.bind`, `Both.bind`: Sequencing.
* `Both.left`, `Both.right`: What is known of one of two outcomes.
* `Run.step_eq`: Counting a step.
* `Ends.rounds`, `Both.rounds`: An invariant of the rounds of a loop.
-/

namespace YulToolchain

/-- The outcome of a computation from a state. -/
abbrev Outcome (α : Type) := EStateM.Result Halt RunState α

/-- The halts that well-formed code may come to: the ends that are results,
    memory that is out of range or can not be had, and the one instruction that
    asks for its own position. -/
def Halt.Allowed : Halt → Prop
  | .ended _ => True
  | .failed (.outOfRange _) => True
  | .failed (.notInterpretable op) => op = .pc
  | .failed why => why.breaksOff = true

/-- An outcome is a value with a property, or an allowed halt. -/
def Ends {α : Type} (r : Outcome α) (Q : α → RunState → Prop) : Prop :=
  match r with
  | .ok a s => Q a s
  | .error halt _ => halt.Allowed

/-- Two outcomes are related values, or the same halt in related states. -/
def Both {α β : Type} (H : RunState → RunState → Prop) (r : Outcome α) (r' : Outcome β)
    (Q : α → RunState → β → RunState → Prop) : Prop :=
  match r, r' with
  | .ok a s, .ok b s' => Q a s b s'
  | .error halt s, .error halt' s' => halt = halt' ∧ H s s'
  | _, _ => False

/-- Two states have the same machine. -/
abbrev SameMachine (s s' : RunState) : Prop := s.machine = s'.machine

section Rules

variable {α β γ δ : Type} {P P' : α → RunState → Prop} {Q : β → RunState → Prop}

theorem Ends.ok {a : α} {s : RunState} (h : P a s) : Ends (.ok a s) P := h

theorem Ends.pure {a : α} {s : RunState} (h : P a s) : Ends ((pure a : Run α) s) P := h

theorem Ends.mono {r : Outcome α} (h : Ends r P) (hP : ∀ a s, P a s → P' a s) : Ends r P' := by
  cases r with
  | ok a s => exact hP a s h
  | error halt s => exact h

/-- Two things hold at once. -/
theorem Ends.and {r : Outcome α} (h : Ends r P) (h' : Ends r P') :
    Ends r fun a s => P a s ∧ P' a s := by
  cases r with
  | ok a s => exact ⟨h, h'⟩
  | error halt s => exact h

/-- What holds of the first part is given to the second. -/
theorem Ends.bind {m : Run α} {f : α → Run β} {s : RunState} (hm : Ends (m s) P)
    (hf : ∀ a t, P a t → Ends (f a t) Q) : Ends ((m >>= f) s) Q := by
  simp only [Bind.bind, EStateM.bind]
  cases hr : m s with
  | ok a t =>
      rw [hr] at hm
      exact hf a t hm
  | error halt t =>
      rw [hr] at hm
      exact hm

variable {H H' : RunState → RunState → Prop} {R : α → RunState → β → RunState → Prop}
  {R' : γ → RunState → δ → RunState → Prop}

/-- Less may be told of both runs. -/
theorem Both.mono {r : Outcome α} {r' : Outcome β} {S : α → RunState → β → RunState → Prop}
    (h : Both H r r' R) (hR : ∀ a s b s', R a s b s' → S a s b s') : Both H r r' S := by
  cases r <;> cases r'
  · exact hR _ _ _ _ h
  · exact h
  · exact h
  · exact h

/-- Less is asked of the states of halts. -/
theorem Both.mono_halt {r : Outcome α} {r' : Outcome β} (h : Both H r r' R)
    (hH : ∀ s s', H s s' → H' s s') : Both H' r r' R := by
  cases r <;> cases r'
  · exact h
  · exact h
  · exact h
  · exact ⟨h.1, hH _ _ h.2⟩

/-- Both runs get through their first parts, or neither does. -/
theorem Both.bind {m : Run α} {f : α → Run γ} {m' : Run β} {f' : β → Run δ} {s s' : RunState}
    (hm : Both H (m s) (m' s') R)
    (hf : ∀ a t b t', R a t b t' → Both H (f a t) (f' b t') R') :
    Both H ((m >>= f) s) ((m' >>= f') s') R' := by
  simp only [Bind.bind, EStateM.bind]
  cases hr : m s <;> cases hr' : m' s' <;> rw [hr, hr'] at hm
  · exact hf _ _ _ _ hm
  · exact False.elim hm
  · exact False.elim hm
  · exact hm

/-- What is known of the first outcome. -/
theorem Both.left {r : Outcome α} {r' : Outcome β} (h : Both H r r' R) (hP : Ends r P) :
    Both H r r' fun a s b s' => R a s b s' ∧ P a s := by
  cases r <;> cases r'
  · exact ⟨h, hP⟩
  · exact h
  · exact h
  · exact h

/-- What is known of the second outcome. -/
theorem Both.right {r : Outcome α} {r' : Outcome β} (h : Both H r r' R) (hQ : Ends r' Q) :
    Both H r r' fun a s b s' => R a s b s' ∧ Q b s' := by
  cases r <;> cases r'
  · exact ⟨h, hQ⟩
  · exact h
  · exact h
  · exact h

end Rules

open Run

theorem Run.get_eq (s : RunState) : (get : Run RunState) s = .ok s s := rfl

theorem Run.modifyEnv_eq (f : Environment → Environment) (s : RunState) :
    modifyEnv f s = .ok () { s with env := f s.env } := rfl

/-- Counting a step halts the run if the budget is used up. -/
theorem Run.step_eq (c : RunContext) (s : RunState) : step c s =
    if (c.metered && decide (c.limits.maxSteps < s.steps + 1)) = true then
      .error (.ended .stepLimit) { s with steps := s.steps + 1 }
    else .ok () { s with steps := s.steps + 1 } := by
  show (if (c.metered && decide (c.limits.maxSteps < s.steps + 1)) = true then outOfSteps
    else pure () : Run Unit) { s with steps := s.steps + 1 } = _
  split <;> rfl

theorem step_free {c : RunContext} (hc : c.metered = false) (s : RunState) :
    step c s = .ok () { s with steps := s.steps + 1 } := by
  simp only [Run.step_eq, hc, Bool.false_and, Bool.false_eq_true, if_false]

theorem Run.variableValue_some {line : Nat} {x : String} {w : Word} {s : RunState}
    (h : s.env.get? x = some w) : variableValue line x s = .ok w s := by
  simp only [variableValue, Bind.bind, EStateM.bind, Run.get_eq, h]
  rfl

theorem Run.variableValue_none {line : Nat} {x : String} {s : RunState} (h : s.env.get? x = none) :
    variableValue line x s = .error (.failed (.unknownVariable x line)) s := by
  simp only [variableValue, Bind.bind, EStateM.bind, Run.get_eq, h]
  rfl

theorem Run.assign_some {x : String} {w : Word} {s : RunState} {env : Environment}
    (h : s.env.assign? x w = some env) : assign x w s = .ok () { s with env } := by
  simp only [assign, Bind.bind, EStateM.bind, Run.get_eq, h]
  rfl

theorem Run.assign_none {x : String} {w : Word} {s : RunState} (h : s.env.assign? x w = none) :
    assign x w s = .error (.failed (.unknownTarget x)) s := by
  simp only [assign, Bind.bind, EStateM.bind, Run.get_eq, h]
  rfl

/-- A step changes the counter only. -/
theorem Ends.step {c : RunContext} {s : RunState} :
    Ends (step c s) fun _ t => t = { s with steps := s.steps + 1 } := by
  rw [Run.step_eq]
  split
  · exact trivial
  · exact rfl

/-- What each round of a loop keeps holds behind the loop. -/
theorem Ends.rounds {I : RunState → Prop} {P : RunState → Prop} {round : Run Bool}
    (hround : ∀ s, I s → Ends (round s) fun again t => if again then I t else P t) :
    ∀ (fuel : Nat) (s : RunState), I s → Ends (Run.rounds fuel round s) fun _ t => P t
  | 0, s, _ => by
      rw [Run.rounds]
      exact trivial
  | fuel + 1, s, h => by
      rw [Run.rounds]
      refine (hround s h).bind fun again t ht => ?_
      cases again with
      | true => exact Ends.rounds hround fuel t ht
      | false => exact ht

/-- What each round of two loops keeps holds behind the loops. -/
theorem Both.rounds {H I P : RunState → RunState → Prop} {round round' : Run Bool}
    (hround : ∀ s s', I s s' → Both H (round s) (round' s') fun again t again' t' =>
      again = again' ∧ if again then I t t' else P t t')
    (hI : ∀ s s', I s s' → H s s') : ∀ (fuel : Nat) (s s' : RunState), I s s' →
      Both H (Run.rounds fuel round s) (Run.rounds fuel round' s') fun _ t _ t' => P t t'
  | 0, s, s', h => by
      rw [Run.rounds, Run.rounds]
      exact ⟨rfl, hI s s' h⟩
  | fuel + 1, s, s', h => by
      rw [Run.rounds, Run.rounds]
      refine (hround s s' h).bind ?_
      rintro again t again' t' ⟨rfl, ht⟩
      cases again with
      | true => exact Both.rounds hround hI fuel t t' ht
      | false => exact ht

end YulToolchain
