import YulToolchain.Proofs.Pass.Twins

/-!
# Evaluation in the Old and in the New Code

Expressions have the same values on both sides.

Two states agree if their machines are the same and so are the variables in sight in
the old code. The new code may have further variables, which no expression of the
old code reads. Both runs are free of a budget, but if the new code is to take no more
steps, then the old code is ahead of it by some number of steps all the time. That number
is arbitrary: it is what a step in hand was worth further out.

That calls agree is assumed here, and proved from what is shown about the bodies of
functions.

## Main definitions

* `Level`: Two states have the same machine, and the old code is ahead by some steps.
* `Same`: Two states have the same machine and the same values of some variables.
* `Agree`: Two states agree at places of the old and of the new code.
* `Caller.Agrees`: Calls of counterparts agree.
* `Evaluated`: What holds after an expression was evaluated on both sides.

## Theorems

* `Expr.run_agree`: An expression has the same values on both sides.
* `Expr.Becomes.agree`: So has what it becomes.
-/

namespace YulToolchain

open Sight

/-- Two states have the same machine, and the old code has made some steps more than the
    new one, unless that may make as many as it likes. -/
structure Level (r : Liberty) (lead : Nat) (s s' : RunState) : Prop where
  machine : s'.machine = s.machine
  ahead : r ≠ .free → s'.steps + lead ≤ s.steps

/-- Two states have the same machine and the same values of some variables. -/
structure Same (r : Liberty) (lead : Nat) (names : List String) (s s' : RunState) : Prop
    extends Level r lead s s' where
  vars : ∀ x ∈ names, s'.env.get? x = s.env.get? x

/-- Two states agree at places of the old and of the new code. -/
structure Agree (r : Liberty) (lead : Nat) (v v' : Sight) (s s' : RunState) : Prop
    extends Same r lead v.visible s s' where
  holds : Environment.Holds v.vars s.env
  holds' : Environment.Holds v'.vars s'.env

section States

variable {r : Liberty} {lead lead' : Nat} {names names' : List String} {v v' : Sight}
  {s s' : RunState}

theorem Level.fewer (h : Level r lead s s') (hle : r ≠ .free → lead' ≤ lead) :
    Level r lead' s s' :=
  ⟨h.machine, fun hr => Nat.le_trans (Nat.add_le_add_left (hle hr) _) (h.ahead hr)⟩

theorem Same.mono (h : Same r lead names s s') (hnames : names' ⊆ names) :
    Same r lead names' s s' :=
  ⟨h.toLevel, fun x hx => h.vars x (hnames hx)⟩

theorem Same.fewer (h : Same r lead names s s') (hle : r ≠ .free → lead' ≤ lead) :
    Same r lead' names s s' :=
  ⟨h.toLevel.fewer hle, h.vars⟩

theorem Agree.fewer (h : Agree r lead v v' s s') (hle : r ≠ .free → lead' ≤ lead) :
    Agree r lead' v v' s s' :=
  ⟨h.toSame.fewer hle, h.holds, h.holds'⟩

/-- Both sides enter a block. -/
theorem Agree.enter (h : Agree r lead v v' s s') (stmts out : List Stmt) :
    Agree r lead (v.enter stmts) (v'.enter out) { s with env := .empty :: s.env }
      { s' with env := .empty :: s'.env } :=
  ⟨⟨⟨h.machine, h.ahead⟩, h.vars⟩, h.holds.enter stmts, h.holds'.enter out⟩

end States

/-- Calls of functions and of their counterparts agree. -/
def Caller.Agrees (c : RunContext) (U : String → Prop) (r : Liberty) (call : Caller) : Prop :=
  ∀ (fs fs' : FunctionScopes) (name : String) (f f' : FunctionDef) (args : List Word)
    (lead : Nat) (s s' : RunState), fs.Fit c.dialect → (fs.flatten.map (·.name)).Nodup →
    fs'.Fit c.dialect → (fs'.flatten.map (·.name)).Nodup → fs.Matched c U r fs' →
    fs.find? name = some f → fs'.find? name = some f' → args.length = f.params.length →
    Level r lead s s' →
      Both (Level r lead) (call fs f args s) (call fs' f' args s') fun values t values' t' =>
        values' = values ∧ Level r lead t t'

/-- What holds after an expression was evaluated on both sides. -/
structure Evaluated (r : Liberty) (lead n : Nat) (s s' : RunState) (ws : List Word) (t : RunState)
    (ws' : List Word) (t' : RunState) : Prop where
  values : ws' = ws
  length : ws.length = n
  level : Level r lead t t'
  steady : Steady s t
  steady' : Steady s' t'

section Values

variable {r : Liberty} {lead n m : Nat} {s s' t t' u u' : RunState}
  {values values' ws ws' : List Word}

/-- Evaluated expressions leave the states in agreement. -/
theorem Agree.evaluated {v v' : Sight} (h : Agree r lead v v' s s')
    (ht : Evaluated r lead n s s' values t values' t') : Agree r lead v v' t t' := by
  refine ⟨⟨ht.level, fun x hx => ?_⟩, ht.steady.holds h.holds, ht.steady'.holds h.holds'⟩
  rw [ht.steady.env, ht.steady'.env]
  exact h.vars x hx

theorem Evaluated.trans (h : Evaluated r lead n s s' values t values' t')
    (h' : Evaluated r lead m t t' ws u ws' u') : Evaluated r lead m s s' ws u ws' u' :=
  ⟨h'.values, h'.length, h'.level, h.steady.trans h'.steady, h.steady'.trans h'.steady'⟩

end Values

section Code

variable {c : RunContext} {U : String → Prop} {r : Liberty} {lead : Nat} {call : Caller}
  {v v' : Sight} {names : List String}

/-- An instruction does the same in both states. -/
theorem Both.instruction {op : Instruction} {args : List Word} {s s' : RunState}
    (hstack : op.isStackManipulation = false) (hargs : args.length = op.args)
    (hlevel : Level r lead s s') :
    Both (Level r lead) (Run.instruction c op args s) (Run.instruction c op args s')
      (Evaluated r lead op.returns s s') := by
  have hboth : Both (Level r lead) (Run.instruction c op args s) (Run.instruction c op args s')
      fun values t values' t' => values' = values ∧ Level r lead t t' := by
    simp only [Run.instruction, Run.onMachine, Bind.bind, EStateM.bind, hlevel.machine]
    cases op.execute c.limits args s.machine with
    | ok result machine => exact ⟨rfl, rfl, hlevel.ahead⟩
    | error halt machine => exact ⟨rfl, rfl, hlevel.ahead⟩
  refine ((hboth.left (Ends.instruction hstack hargs)).right
    (Ends.instruction hstack hargs)).mono ?_
  rintro values t values' t' ⟨⟨⟨hvalues, hlevel⟩, hlength, hst⟩, _, hst'⟩
  exact ⟨hvalues, hlength, hlevel, hst, hst'⟩

mutual

/-- An expression of the old code has the same values in the new code. -/
theorem Expr.run_agree (hcall : call.Sound c.dialect) (hagrees : call.Agrees c U r)
    (ht : Twins c U r v v' names) : ∀ {e : Expr} {n : Nat} {s s' : RunState},
    e.Yields c.dialect v n → Agree r lead v v' s s' →
      Both (Level r lead) (e.run c call v.functions s) (e.run c call v'.functions s')
        (Evaluated r lead n s s')
  | .literal l, n, s, s', h, hs => by
      rw [Expr.Yields] at h
      rcases h with ⟨⟨w, hw⟩, rfl⟩
      rw [Expr.run_literal hw, Expr.run_literal hw]
      exact ⟨rfl, rfl, hs.toLevel, .refl s, .refl s'⟩
  | .ident line x, n, s, s', h, hs => by
      rw [Expr.Yields] at h
      rcases h with ⟨hx, rfl⟩
      rcases hs.holds.get?_some hx with ⟨w, hw⟩
      rw [Expr.run_ident hw, Expr.run_ident ((hs.vars x hx).trans hw)]
      exact ⟨rfl, rfl, hs.toLevel, .refl s, .refl s'⟩
  | .instr _ op args, n, s, s', h, hs => by
      rw [Expr.Yields] at h
      rcases h with ⟨hstack, hlength, rfl, hargs⟩
      rw [Expr.run, Expr.run]
      refine (Expr.runArgs_agree hcall hagrees ht hargs hs).bind
        fun values t values' t' hvalues => ?_
      obtain rfl := hvalues.values
      exact (Both.instruction hstack (hvalues.length.trans hlength) hvalues.level).mono
        fun _ _ _ _ hresult => hvalues.trans hresult
  | .call line name args, n, s, s', h, hs => by
      simp only [Expr.Yields] at h
      rw [Expr.run, Expr.run]
      rcases hb : c.dialect.builtin? name with _ | b
      · simp only [hb] at h ⊢
        rcases h with ⟨f, hf, hlength, rfl, hargs⟩
        -- The other run finds the counterpart of the callee, which has the same header.
        rcases ht.matched name f hf with ⟨f', hf', hcounter⟩
        have hparams : f'.params = f.params := congrArg (·.2.1) hcounter.header
        have hreturns : f'.returns = f.returns := congrArg (·.2.2) hcounter.header
        simp only [hf, hf']
        refine (Expr.runArgs_agree hcall hagrees ht hargs hs).bind
          fun values t values' t' hvalues => ?_
        obtain rfl := hvalues.values
        have hcount := hvalues.length.trans hlength
        rw [if_pos hcount, if_pos (hparams ▸ hcount)]
        -- The bodies agree by what is assumed of calls, and both are sound.
        refine (((hagrees v.functions v'.functions name f f' values' lead t t' ht.fit
          ht.distinct.functionNames_nodup ht.fit' ht.distinct'.functionNames_nodup ht.matched hf hf'
          hcount hvalues.level).left
            (hcall v.functions name f values' t ht.fit ht.distinct.functionNames_nodup hf
              hcount)).right
            (hcall v'.functions name f' values' t' ht.fit' ht.distinct'.functionNames_nodup hf'
              (hparams ▸ hcount))).mono ?_
        rintro ws u ws' u' ⟨⟨⟨hws, hlevel⟩, hn, hst⟩, _, hst'⟩
        exact hvalues.trans ⟨hws, hn, hlevel, hst, hst'⟩
      · simp only [hb] at h ⊢
        rcases h with ⟨hlength, rfl, hargs⟩
        -- A builtin is an instruction, a question about an object, or has no code.
        rcases Dialect.builtin?_cases hb with ⟨b', hproper, rfl | rfl⟩
        · rcases hproper with ⟨op, hstack, rfl⟩ | rfl | rfl | rfl
          · refine (Expr.runArgs_agree hcall hagrees ht hargs hs).bind
              fun values t values' t' hvalues => ?_
            obtain rfl := hvalues.values
            exact (Both.instruction hstack (hvalues.length.trans hlength) hvalues.level).mono
              fun _ _ _ _ hresult => hvalues.trans hresult
          · rcases Run.objectQuery_means hlength hargs "datasize" with ⟨w, hw⟩
            refine (congrArg₂ (Both (Level r lead) · · _) (hw line s) (hw line s')).mpr ?_
            exact ⟨rfl, rfl, hs.toLevel, .refl s, .refl s'⟩
          · rcases Run.objectQuery_means hlength hargs "dataoffset" with ⟨w, hw⟩
            refine (congrArg₂ (Both (Level r lead) · · _) (hw line s) (hw line s')).mpr ?_
            exact ⟨rfl, rfl, hs.toLevel, .refl s, .refl s'⟩
          · refine (Expr.runArgs_agree hcall hagrees ht hargs hs).bind
              fun values t values' t' hvalues => ?_
            obtain rfl := hvalues.values
            have hstack : Instruction.codecopy.isStackManipulation = false := rfl
            exact (Both.instruction hstack (hvalues.length.trans hlength) hvalues.level).mono
              fun _ _ _ _ hresult => hvalues.trans hresult
        · exact ⟨rfl, List.length_replicate, hs.toLevel, .refl s, .refl s'⟩

/-- Arguments evaluate to the same, from the last to the first. -/
theorem Expr.runArgs_agree (hcall : call.Sound c.dialect) (hagrees : call.Agrees c U r)
    (ht : Twins c U r v v' names) : ∀ {es : List Expr} {s s' : RunState},
    Expr.YieldOnes c.dialect v es → Agree r lead v v' s s' →
      Both (Level r lead) (Expr.runArgs c call v.functions es s)
        (Expr.runArgs c call v'.functions es s')
        (Evaluated r lead es.length s s')
  | [], s, s', _, hs => by
      rw [Expr.runArgs, Expr.runArgs]
      exact ⟨rfl, rfl, hs.toLevel, .refl s, .refl s'⟩
  | e :: rest, s, s', h, hs => by
      rw [Expr.YieldOnes] at h
      rw [Expr.runArgs, Expr.runArgs]
      refine (Expr.runArgs_agree hcall hagrees ht h.2 hs).bind fun values t values' t' hvalues => ?_
      obtain rfl := hvalues.values
      refine (Expr.run_agree hcall hagrees ht h.1 (hs.evaluated hvalues)).bind
        fun ones u ones' u' hones => ?_
      obtain rfl := hones.values
      -- Each argument is one value.
      refine (Both.single hones.length).bind ?_
      rintro w _ _ _ ⟨_, rfl, rfl, rfl⟩
      refine ⟨rfl, ?_, hones.level, hvalues.steady.trans hones.steady,
        hvalues.steady'.trans hones.steady'⟩
      rw [List.length_cons, List.length_cons, hvalues.length]

end

/-- What an expression becomes has the values that the expression had. -/
theorem Expr.Becomes.agree (hcall : call.Sound c.dialect) (hagrees : call.Agrees c U r)
    (ht : Twins c U r v v' names) {k : Known} {e e' : Expr} {n : Nat} {s s' : RunState}
    (h : e.Becomes c k e') (hyields : e.Yields c.dialect v n) (hs : Agree r lead v v' s s')
    (hk : k.Valid c v' s') :
    Both (Level r lead) (e.run c call v.functions s) (e'.run c call v'.functions s')
      (Evaluated r lead n s s') := by
  have hyields' := hyields.widen ht.visible ht.functions
  rw [h.run hcall ht.distinct' ht.fit' hyields' hs.holds' hk]
  exact Expr.run_agree hcall hagrees ht hyields hs

/-- Where a single value is needed, both sides have the same one. -/
theorem Expr.Becomes.agree_single (hcall : call.Sound c.dialect) (hagrees : call.Agrees c U r)
    (ht : Twins c U r v v' names) {k : Known} {e e' : Expr} {s s' : RunState}
    (h : e.Becomes c k e') (hyields : e.Yields c.dialect v 1) (hs : Agree r lead v v' s s')
    (hk : k.Valid c v' s') :
    Both (Level r lead) (e.runSingle c call v.functions s) (e'.runSingle c call v'.functions s')
      fun w t w' t' => Evaluated r lead 1 s s' [w] t [w'] t' := by
  rw [Expr.runSingle, Expr.runSingle]
  refine (h.agree hcall hagrees ht hyields hs hk).bind fun values t values' t' hvalues => ?_
  obtain rfl := hvalues.values
  refine (Both.single hvalues.length).mono ?_
  rintro w _ _ _ ⟨rfl, rfl, rfl, rfl⟩
  exact hvalues

end Code

end YulToolchain
