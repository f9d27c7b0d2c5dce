import YulToolchain.Effects
import YulToolchain.Proofs.Execution.Soundness

/-!
# Movable Expressions

A movable expression has a value that depends on nothing but the variables it
reads and the data the program was called with. It can therefore be evaluated
anywhere these are the same, and as often as one likes.

The value is stated as a list of words that evaluation gives in every state that
agrees with a given one on the variables in question. No other part of the state
has a say, and neither do the functions in sight: a movable expression calls
none.

## Theorems

* `Expr.Yields.reads_visible`: The variables an expression reads are in sight.
* `Expr.Yields.movable_congr`: A movable expression is well formed wherever the
  variables it reads are in sight.
* `Expr.movable_value`: The value of a movable expression where the variables it
  reads have values. There is at most one.
* `Expr.run_movable`: Evaluating a movable expression somewhere else.
-/

namespace YulToolchain

section WellFormed

variable {d : Dialect} {v v' : Sight}

/-- Texts read nothing. -/
theorem Expr.readsAll_textual : ∀ {es : List Expr}, (∀ e ∈ es, e.Textual) → Expr.readsAll es = []
  | [], _ => by rw [Expr.readsAll]
  | e :: rest, h => by
      have he := h e List.mem_cons_self
      cases e with
      | literal l =>
          rw [Expr.readsAll, Expr.reads, List.nil_append]
          exact Expr.readsAll_textual fun e' he' => h e' (List.mem_cons_of_mem _ he')
      | _ => exact False.elim he

mutual

/-- The variables that a well-formed expression reads are in sight. -/
theorem Expr.Yields.reads_visible : ∀ {e : Expr} {n : Nat}, e.Yields d v n →
    ∀ x ∈ e.reads, x ∈ v.visible
  | .literal _, _, _, x, hx => by
      rw [Expr.reads] at hx
      exact absurd hx List.not_mem_nil
  | .ident _ y, _, h, x, hx => by
      rw [Expr.Yields] at h
      rw [Expr.reads, List.mem_singleton] at hx
      exact hx ▸ h.1
  | .instr _ _ args, _, h, x, hx => by
      rw [Expr.Yields] at h
      rw [Expr.reads] at hx
      exact Expr.YieldOnes.reads_visible h.2.2.2 x hx
  | .call _ name args, _, h, x, hx => by
      simp only [Expr.Yields] at h
      rw [Expr.reads] at hx
      rcases hb : d.builtin? name with _ | b
      · simp only [hb] at h
        rcases h with ⟨_, _, _, _, hargs⟩
        exact Expr.YieldOnes.reads_visible hargs x hx
      · simp only [hb] at h
        rcases h with ⟨_, _, hargs⟩
        -- Literal arguments read nothing at all.
        split at hargs
        · rw [Expr.readsAll_textual hargs] at hx
          exact absurd hx List.not_mem_nil
        · exact Expr.YieldOnes.reads_visible hargs x hx

/-- Arguments that yield one value each read visible names only. -/
theorem Expr.YieldOnes.reads_visible : ∀ {es : List Expr}, Expr.YieldOnes d v es →
    ∀ x ∈ Expr.readsAll es, x ∈ v.visible
  | [], _, x, hx => by
      rw [Expr.readsAll] at hx
      exact absurd hx List.not_mem_nil
  | e :: rest, h, x, hx => by
      rw [Expr.YieldOnes] at h
      rw [Expr.readsAll] at hx
      rcases List.mem_append.mp hx with hx | hx
      · exact Expr.Yields.reads_visible h.1 x hx
      · exact Expr.YieldOnes.reads_visible h.2 x hx

end

mutual

/-- Of what is in sight, only the variables it reads matter for a movable
    expression. -/
theorem Expr.Yields.movable_congr : ∀ {e : Expr} {n : Nat}, e.movable d = true →
    e.Yields d v n → (∀ x ∈ e.reads, x ∈ v'.visible) → e.Yields d v' n
  | .literal _, _, _, h, _ => by
      rw [Expr.Yields] at h ⊢
      exact h
  | .ident _ y, _, _, h, hx => by
      rw [Expr.Yields] at h ⊢
      exact ⟨hx y (by rw [Expr.reads]; exact List.mem_singleton_self y), h.2⟩
  | .instr _ _ args, _, hm, h, hx => by
      rw [Expr.movable, Bool.and_eq_true] at hm
      rw [Expr.reads] at hx
      rw [Expr.Yields] at h ⊢
      exact ⟨h.1, h.2.1, h.2.2.1, Expr.YieldOnes.movable_congr hm.2 h.2.2.2 hx⟩
  | .call _ name args, _, hm, h, hx => by
      rw [Expr.movable, Bool.and_eq_true] at hm
      rw [Expr.reads] at hx
      simp only [Expr.Yields] at h ⊢
      -- A movable call is one of a builtin, and so no function is looked up.
      rcases hb : d.builtin? name with _ | b
      · rw [hb] at hm
        exact absurd hm.1 Bool.noConfusion
      · simp only [hb] at h ⊢
        refine ⟨h.1, h.2.1, ?_⟩
        split
        · rename_i hlit
          simpa only [hlit, if_true] using h.2.2
        · rename_i hlit
          rw [if_neg hlit] at h
          exact Expr.YieldOnes.movable_congr hm.2 h.2.2 hx

/-- Where movable arguments yield values depends on their names only. -/
theorem Expr.YieldOnes.movable_congr : ∀ {es : List Expr}, Expr.movableAll d es = true →
    Expr.YieldOnes d v es → (∀ x ∈ Expr.readsAll es, x ∈ v'.visible) → Expr.YieldOnes d v' es
  | [], _, _, _ => by rw [Expr.YieldOnes]; trivial
  | e :: rest, hm, h, hx => by
      rw [Expr.movableAll, Bool.and_eq_true] at hm
      rw [Expr.readsAll] at hx
      rw [Expr.YieldOnes] at h ⊢
      exact ⟨Expr.Yields.movable_congr hm.1 h.1 fun x hx' => hx x (List.mem_append_left _ hx'),
        Expr.YieldOnes.movable_congr hm.2 h.2 fun x hx' => hx x (List.mem_append_right _ hx')⟩

end

end WellFormed

section Meaning

variable {c : RunContext} {v : Sight}

/-- A movable instruction has the same values in all states with the same call
    data. -/
theorem Run.instruction_movable {op : Instruction} {args : List Word}
    (hmovable : op.movable = true) (hstack : op.isStackManipulation = false)
    (hargs : args.length = op.args) (calldata : List UInt8) :
    ∃ ws : List Word, ws.length = op.returns ∧ ws.length ≤ 1 ∧
      ∀ s : RunState, s.machine.calldata = calldata → Run.instruction c op args s = .ok ws s := by
  rcases op.execute_movable c.limits hmovable hstack hargs calldata with ⟨r, hr, hexecute⟩
  refine ⟨r.toList, hr, ?_, fun s hs => ?_⟩
  · cases r
    · exact Nat.zero_le 1
    · exact Nat.le_refl 1
  · simp only [Run.instruction, Run.onMachine, Bind.bind, EStateM.bind, hexecute s.machine hs]
    rfl

-- A list that is run from its last member on: the values of the rest are there
-- before those of the first.
theorem Expr.runArgs_cons {call : Caller} {fs : FunctionScopes} {e : Expr} {rest : List Expr}
    {w : Word} {ws : List Word} {s : RunState}
    (hrest : Expr.runArgs c call fs rest s = .ok ws s) (he : e.run c call fs s = .ok [w] s) :
    Expr.runArgs c call fs (e :: rest) s = .ok (w :: ws) s := by
  simp only [Expr.runArgs, Bind.bind, EStateM.bind, hrest, he]
  rfl

mutual

/-- The value of a movable expression is the same wherever the variables it reads
    have the same values and the call data is the same. -/
theorem Expr.movable_value : ∀ {e : Expr} {n : Nat} {s : RunState}, e.movable c.dialect = true →
    e.Yields c.dialect v n → (∀ x ∈ e.reads, ∃ w, s.env.get? x = some w) →
    ∃ ws : List Word, ws.length = n ∧ n ≤ 1 ∧ ∀ (call : Caller) (fs : FunctionScopes)
      (t : RunState), t.machine.calldata = s.machine.calldata →
      (∀ x ∈ e.reads, t.env.get? x = s.env.get? x) → e.run c call fs t = .ok ws t
  | .literal l, n, s, _, h, _ => by
      rw [Expr.Yields] at h
      rcases h with ⟨⟨w, hw⟩, rfl⟩
      exact ⟨[w], rfl, Nat.le_refl 1, fun call fs t _ _ => Expr.run_literal hw⟩
  | .ident line x, n, s, _, h, henv => by
      rw [Expr.Yields] at h
      rcases h with ⟨hx, rfl⟩
      rcases henv x (by rw [Expr.reads]; exact List.mem_singleton_self x) with ⟨w, hw⟩
      refine ⟨[w], rfl, Nat.le_refl 1, fun call fs t _ hreads => ?_⟩
      have ht : t.env.get? x = some w := by
        rw [hreads x (by rw [Expr.reads]; exact List.mem_singleton_self x), hw]
      exact Expr.run_ident ht
  | .instr _ op args, n, s, hm, h, henv => by
      rw [Expr.movable, Bool.and_eq_true] at hm
      rw [Expr.Yields] at h
      rw [Expr.reads] at henv
      rcases h with ⟨hstack, hlength, rfl, hargs⟩
      -- The values of the arguments are fixed first; the instruction then depends on them alone.
      rcases Expr.movableAll_value hm.2 hargs henv with ⟨vs, hvs, hrun⟩
      rcases Run.instruction_movable (c := c) hm.1 hstack (hvs.trans hlength)
        s.machine.calldata with
        ⟨ws, hws, hone, hexecute⟩
      refine ⟨ws, hws, hws ▸ hone, fun call fs t hdata hreads => ?_⟩
      rw [Expr.reads] at hreads
      simp only [Expr.run, Bind.bind, EStateM.bind, hrun call fs t hdata hreads,
        hexecute t hdata]
  | .call line name args, n, s, hm, h, henv => by
      rw [Expr.movable, Bool.and_eq_true] at hm
      simp only [Expr.Yields] at h
      rw [Expr.reads] at henv
      simp only [Expr.run, Expr.reads]
      rcases hb : c.dialect.builtin? name with _ | b
      · rw [hb] at hm
        exact absurd hm.1 Bool.noConfusion
      · rw [hb] at hm
        simp only [hb] at h ⊢
        rcases h with ⟨hlength, rfl, hargs⟩
        -- A builtin is an instruction, a question about an object, or has no code.
        rcases Dialect.builtin?_cases hb with ⟨b', hproper, rfl | rfl⟩
        · rcases hproper with ⟨op, hstack, rfl⟩ | rfl | rfl | rfl
          · rcases Expr.movableAll_value hm.2 hargs henv with ⟨vs, hvs, hrun⟩
            rcases Run.instruction_movable (c := c) hm.1 hstack (hvs.trans hlength)
              s.machine.calldata with ⟨ws, hws, hone, hexecute⟩
            refine ⟨ws, hws, ?_, fun call fs t hdata hreads => ?_⟩
            · exact (hws ▸ hone :)
            · simp only [Builtin.ofInstruction, Bind.bind, EStateM.bind,
                hrun call fs t hdata hreads, hexecute t hdata]
          · rcases Run.objectQuery_means hlength hargs "datasize" with ⟨w, hw⟩
            exact ⟨[w], rfl, Nat.le_refl 1, fun _ _ t _ _ => hw line t⟩
          · rcases Run.objectQuery_means hlength hargs "dataoffset" with ⟨w, hw⟩
            exact ⟨[w], rfl, Nat.le_refl 1, fun _ _ t _ _ => hw line t⟩
          · exact absurd hm.1 Bool.noConfusion
        -- A builtin without code answers with zeros, and has one value at most.
        · refine ⟨List.replicate b'.returns 0, List.length_replicate, ?_, fun _ _ _ _ _ => rfl⟩
          rcases hproper with ⟨op, hstack, rfl⟩ | rfl | rfl | rfl
          · have hzeros : (List.replicate op.args (0 : Word)).length = op.args :=
              List.length_replicate
            rcases Run.instruction_movable (c := c) hm.1 hstack hzeros s.machine.calldata with
              ⟨ws, hws, hone, _⟩
            exact (hws ▸ hone :)
          · exact Nat.le_refl 1
          · exact Nat.le_refl 1
          · exact absurd hm.1 Bool.noConfusion

/-- Movable arguments have fixed values. -/
theorem Expr.movableAll_value : ∀ {es : List Expr} {s : RunState},
    Expr.movableAll c.dialect es = true → Expr.YieldOnes c.dialect v es →
    (∀ x ∈ Expr.readsAll es, ∃ w, s.env.get? x = some w) →
    ∃ ws : List Word, ws.length = es.length ∧ ∀ (call : Caller) (fs : FunctionScopes)
      (t : RunState), t.machine.calldata = s.machine.calldata →
      (∀ x ∈ Expr.readsAll es, t.env.get? x = s.env.get? x) →
        Expr.runArgs c call fs es t = .ok ws t
  | [], _, _, _, _ => ⟨[], rfl, fun _ _ _ _ _ => by rw [Expr.runArgs]; rfl⟩
  | e :: rest, s, hm, h, henv => by
      rw [Expr.movableAll, Bool.and_eq_true] at hm
      rw [Expr.YieldOnes] at h
      rw [Expr.readsAll] at henv
      rcases Expr.movableAll_value hm.2 h.2 fun x hx => henv x (List.mem_append_right _ hx) with
        ⟨ws, hws, hrest⟩
      rcases Expr.movable_value hm.1 h.1 fun x hx => henv x (List.mem_append_left _ hx) with
        ⟨ones, hones, _, hfirst⟩
      -- Each argument has exactly one value.
      match ones, hones with
      | [w], _ =>
          refine ⟨w :: ws, by rw [List.length_cons, List.length_cons, hws],
            fun call fs t hdata hreads => ?_⟩
          rw [Expr.readsAll] at hreads
          exact Expr.runArgs_cons
            (hrest call fs t hdata fun x hx => hreads x (List.mem_append_right _ hx))
            (hfirst call fs t hdata fun x hx => hreads x (List.mem_append_left _ hx))

end

/-- In particular it has a value where all variables in sight have one. -/
theorem Expr.movable_means {e : Expr} {n : Nat} {s : RunState}
    (hmovable : e.movable c.dialect = true)
    (hyields : e.Yields c.dialect v n) (henv : Environment.Holds v.vars s.env) :
    ∃ ws : List Word, ws.length = n ∧ n ≤ 1 ∧ ∀ (call : Caller) (fs : FunctionScopes)
      (t : RunState), t.machine.calldata = s.machine.calldata →
      (∀ x ∈ e.reads, t.env.get? x = s.env.get? x) → e.run c call fs t = .ok ws t :=
  Expr.movable_value hmovable hyields fun x hx => henv.get?_some (hyields.reads_visible x hx)

/-- A movable expression has the same values in two states with the same call data
    and the same values of the variables that it reads. -/
theorem Expr.run_movable {e : Expr} {n : Nat} {s t : RunState} {ws : List Word} {call₀ : Caller}
    {fs₀ : FunctionScopes} (hmovable : e.movable c.dialect = true)
    (hyields : e.Yields c.dialect v n) (henv : Environment.Holds v.vars s.env)
    (hrun : e.run c call₀ fs₀ s = .ok ws s)
    (hdata : t.machine.calldata = s.machine.calldata)
    (hreads : ∀ x ∈ e.reads, t.env.get? x = s.env.get? x) (call : Caller) (fs : FunctionScopes) :
    e.run c call fs t = .ok ws t := by
  rcases Expr.movable_means hmovable hyields henv with ⟨ws', _, _, hmeans⟩
  have hhere := hmeans call₀ fs₀ s rfl fun _ _ => rfl
  rw [hrun] at hhere
  rw [hmeans call fs t hdata hreads, (EStateM.Result.ok.inj hhere).1]

end Meaning

end YulToolchain
