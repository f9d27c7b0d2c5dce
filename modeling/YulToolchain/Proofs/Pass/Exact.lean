import YulToolchain.Proofs.Execution.Metering
import YulToolchain.Proofs.Pass.Twins

/-!
# Code With Replaced Expressions

Code that keeps all its statements and gets other expressions takes the same steps as
before.

When no statement is replaced by others, nothing is gained by comparing the runs of the
old and of the new code only where they meet: they are equal, from the first step to the last,
steps counted and whatever the budget. So the results below are equations between
computations, at all states in which the variables are in order and the known values
hold.

The recursion is over the code; a call is taken as given there, and the circle is closed by
induction on the depth of calls. What carries over from a statement to the next one is
that the variables are in order and that what is known in the new code holds. Both are
known from the run of the new code alone.

## Main definitions

* `Caller.Repeats`: Calls of counterparts do the same.

## Theorems

* `Block.Becomes.repeats`: New code does what the old code did, step by step.
* `FunctionDef.call_repeats`: So do calls.
* `Block.Becomes.interpret_eq`: So do programs.
-/

namespace YulToolchain

open Sight Run

/-- Calls of functions and of their counterparts do the same. -/
def Caller.Repeats (c : RunContext) (U : String → Prop) (call : Caller) : Prop :=
  ∀ (fs fs' : FunctionScopes) (name : String) (f f' : FunctionDef) (args : List Word),
    fs.Fit c.dialect → (fs.flatten.map (·.name)).Nodup →
    fs'.Fit c.dialect → (fs'.flatten.map (·.name)).Nodup → fs.Matched c U .exact fs' →
    fs.find? name = some f → fs'.find? name = some f' → args.length = f.params.length →
      call fs' f' args = call fs f args

/-- Two sequences do the same if their first parts do, and the rest does after everything that the
    first part of the new one can end in. -/
theorem Run.bind_repeats {α β : Type} {m m' : Run α} {f f' : α → Run β} {s : RunState}
    {P : α → RunState → Prop} (hm : m' s = m s) (hends : Ends (m' s) P)
    (hf : ∀ a t, P a t → f' a t = f a t) : (m' >>= f') s = (m >>= f) s := by
  refine bind_congr hm fun a t ht => hf a t ?_
  rw [hm, ht] at hends
  exact hends

/-- Behind a step of the counter the same is repeated. -/
theorem Run.step_repeats {α : Type} {c : RunContext} {m m' : Run α} {s : RunState}
    (h : ∀ t, Steady s t → m' t = m t) :
    (step c >>= fun _ => m') s = (step c >>= fun _ => m) s := by
  refine bind_repeats rfl Ends.step fun _ t ht => h t ?_
  subst ht
  exact ⟨rfl, rfl⟩

/-- In a scope of its own the same is repeated. -/
theorem Run.inScope_repeats {α : Type} {m m' : Run α} {s : RunState}
    (h : m' { s with env := .empty :: s.env } = m { s with env := .empty :: s.env }) :
    inScope m' s = inScope m s :=
  bind_congr (m := modifyEnv (.empty :: ·)) rfl fun _ _ ht => by
    obtain ⟨-, rfl⟩ := EStateM.Result.ok.inj ht
    exact bind_congr h fun _ _ _ => rfl

/-- Rounds do the same as long as an invariant holds, which they keep. -/
theorem Run.rounds_congr {I : RunState → Prop} {round round' : Run Bool}
    (hround : ∀ s, I s → round' s = round s)
    (hkeeps : ∀ s, I s → Ends (round' s) fun _ t => I t) :
    ∀ (fuel : Nat) (s : RunState), I s → rounds fuel round' s = rounds fuel round s
  | 0, _, _ => rfl
  | fuel + 1, s, hs => by
      rw [rounds, rounds]
      refine bind_congr (hround s hs) fun again t ht => ?_
      have hinvariant := hkeeps s hs
      rw [hround s hs, ht] at hinvariant
      cases again with
      | false => rfl
      | true => exact Run.rounds_congr hround hkeeps fuel t hinvariant

section Code

variable {c : RunContext} {U : String → Prop} {call : Caller} {v v' : Sight}
  {names : List String}

mutual

/-- An expression does the same with the functions of the new code in sight. -/
theorem Expr.run_repeats (hrepeats : call.Repeats c U) (ht : Twins c U .exact v v' names) :
    ∀ {e : Expr} {n : Nat}, e.Yields c.dialect v n →
      e.run c call v'.functions = e.run c call v.functions
  | .literal _, _, _ => rfl
  | .ident _ _, _, _ => rfl
  | .instr _ op args, n, h => by
      rw [Expr.Yields] at h
      rw [Expr.run, Expr.run, Expr.runArgs_repeats hrepeats ht h.2.2.2]
  | .call line name args, n, h => by
      simp only [Expr.Yields] at h
      rw [Expr.run, Expr.run]
      cases hb : c.dialect.builtin? name with
      | none =>
          simp only [hb] at h ⊢
          rcases h with ⟨f, hf, _, _, hargs⟩
          -- The callee has a counterpart with the same header.
          rcases ht.matched name f hf with ⟨f', hf', hcounter⟩
          have hname : f'.name = f.name := congrArg (·.1) hcounter.header
          have hparams : f'.params = f.params := congrArg (·.2.1) hcounter.header
          simp only [hf, hf', hname, hparams, Expr.runArgs_repeats hrepeats ht hargs]
          congr 1
          funext values
          by_cases hlength : values.length = f.params.length
          · rw [if_pos hlength, if_pos hlength]
            -- Its body repeats by what is assumed of calls.
            exact hrepeats v.functions v'.functions name f f' values ht.fit
              ht.distinct.functionNames_nodup ht.fit' ht.distinct'.functionNames_nodup ht.matched
              hf hf' hlength
          · rw [if_neg hlength, if_neg hlength]
      | some b =>
          simp only [hb] at h ⊢
          rcases Dialect.builtin?_cases hb with ⟨b', hproper, rfl | rfl⟩
          · rcases hproper with ⟨op, _, rfl⟩ | rfl | rfl | rfl
            · exact congrArg (· >>= _) (Expr.runArgs_repeats hrepeats ht h.2.2)
            · rfl
            · rfl
            · exact congrArg (· >>= _) (Expr.runArgs_repeats hrepeats ht h.2.2)
          · rfl

/-- Arguments run the same. -/
theorem Expr.runArgs_repeats (hrepeats : call.Repeats c U) (ht : Twins c U .exact v v' names) :
    ∀ {es : List Expr}, Expr.YieldOnes c.dialect v es →
      Expr.runArgs c call v'.functions es = Expr.runArgs c call v.functions es
  | [], _ => rfl
  | e :: rest, h => by
      rw [Expr.YieldOnes] at h
      rw [Expr.runArgs, Expr.runArgs, Expr.runArgs_repeats hrepeats ht h.2,
        Expr.run_repeats hrepeats ht h.1]

end

variable {k : Known} {s : RunState} {inLoop : Bool}

/-- What an expression becomes does what the expression did. -/
theorem Expr.Becomes.repeats (hcall : call.Sound c.dialect) (hrepeats : call.Repeats c U)
    (ht : Twins c U .exact v v' names) {e e' : Expr} {n : Nat} (h : e.Becomes c k e')
    (hyields : e.Yields c.dialect v n) (henv : Environment.Holds v'.vars s.env)
    (hk : k.Valid c v' s) : e'.run c call v'.functions s = e.run c call v.functions s := by
  rw [h.run hcall ht.distinct' ht.fit' (hyields.widen ht.visible ht.functions) henv hk,
    Expr.run_repeats hrepeats ht hyields]

/-- The number of values is the same, so it does not matter that a failure to find a single one
    names the line of the expression. -/
theorem Expr.Becomes.repeats_single (hcall : call.Sound c.dialect) (hrepeats : call.Repeats c U)
    (ht : Twins c U .exact v v' names) {e e' : Expr} (h : e.Becomes c k e')
    (hyields : e.Yields c.dialect v 1) (henv : Environment.Holds v'.vars s.env)
    (hk : k.Valid c v' s) :
    e'.runSingle c call v'.functions s = e.runSingle c call v.functions s := by
  have hrun := h.repeats hcall hrepeats ht hyields henv hk
  have hyields' := h.yields (hk.fits henv) (hyields.widen ht.visible ht.functions)
  have hone := Expr.run_sound hcall ht.distinct' ht.fit' hyields' henv
  rw [Expr.runSingle, Expr.runSingle]
  refine bind_congr hrun fun values t hvalues => ?_
  rw [hrun, hvalues] at hone
  rcases List.length_eq_one_iff.mp hone.1 with ⟨w, rfl⟩
  rfl

/-- Rounds of a loop do what those of another one did, if the parts do, and nothing is known
    of what the parts assign to. -/
theorem Run.rounds_repeats (hcall : call.Sound c.dialect) (hv : v'.Distinct)
    (hfit : v'.functions.Fit c.dialect) {test test' : Expr} {post body post' body' : Block}
    (htest' : test'.Yields c.dialect v' 1) (hbody' : body'.Fits c.dialect v' true)
    (hpost' : post'.Fits c.dialect v' false)
    (hsteady : k.Sub (k.forget (body'.assigned ++ post'.assigned)))
    (htest : ∀ t, Environment.Holds v'.vars t.env → k.Valid c v' t →
      test'.runSingle c call v'.functions t = test.runSingle c call v.functions t)
    (hbody : ∀ t, Environment.Holds v'.vars t.env → k.Valid c v' t →
      body'.run c call v'.functions t = body.run c call v.functions t)
    (hpost : ∀ t, Environment.Holds v'.vars t.env → k.Valid c v' t →
      post'.run c call v'.functions t = post.run c call v.functions t)
    (fuel : Nat) (henv : Environment.Holds v'.vars s.env) (hk : k.Valid c v' s) :
    rounds fuel (round c (test'.runSingle c call v'.functions) (body'.run c call v'.functions)
        (post'.run c call v'.functions)) s
      = rounds fuel (round c (test.runSingle c call v.functions) (body.run c call v.functions)
        (post.run c call v.functions)) s := by
  -- What is known at the head stays valid, since names assigned in the loop are forgotten there.
  have hvalid : ∀ {names : List String} {t u : RunState}, names ⊆ body'.assigned ++ post'.assigned →
      Environment.Holds v'.vars t.env → k.Valid c v' t → Keeps v'.visible names t u →
        k.Valid c v' u := fun hnames henv hk hkeeps =>
    (hk.keeps henv (hkeeps.mono hnames) (List.Subset.refl _)).sub hsteady
  -- The invariant of the rounds: the scopes are in place and what is known at the head is valid.
  refine Run.rounds_congr (I := fun t => Environment.Holds v'.vars t.env ∧ k.Valid c v' t)
    ?_ ?_ fuel s ⟨henv, hk⟩
  -- One round: the test, the body, and the post part unless the body leaves.
  · rintro t ⟨henv, hk⟩
    refine step_repeats fun t₁ ht₁ => ?_
    have henv₁ := ht₁.holds henv
    have hk₁ := hk.steady henv ht₁
    refine bind_repeats (htest t₁ henv₁ hk₁)
      (Expr.runSingle_sound hcall hv hfit htest' henv₁) fun value t₂ ht₂ => ?_
    have henv₂ := ht₂.holds henv₁
    have hk₂ := hk₁.steady henv₁ ht₂
    split
    · rfl
    · refine bind_repeats (hbody t₂ henv₂ hk₂) (Block.run_sound hcall hv hfit hbody' henv₂)
        fun flow t₃ ht₃ => ?_
      have hk₃ := hvalid (List.subset_append_left _ _) henv₂ hk₂ ht₃.keeps
      cases flow with
      | brk => rfl
      | next => exact bind_congr (hpost t₃ ht₃.holds hk₃) fun _ _ _ => rfl
      | cont => exact bind_congr (hpost t₃ ht₃.holds hk₃) fun _ _ _ => rfl
  -- The invariant is kept.
  · rintro t ⟨henv, hk⟩
    refine (Ends.round (fun t henv => Expr.runSingle_sound hcall hv hfit htest' henv)
      (fun t henv => Block.run_sound hcall hv hfit hbody' henv)
      (fun t henv => Block.run_sound hcall hv hfit hpost' henv) t henv).mono fun _ u hu => ?_
    exact ⟨hu.holds, hvalid (List.Subset.refl _) henv hk hu.keeps⟩

mutual

/-- A block does what the block did from which it came. -/
theorem Block.Becomes.repeats (hcall : call.Sound c.dialect) (hrepeats : call.Repeats c U) :
    ∀ {b b' : Block} {v v' : Sight} {inLoop : Bool} {k : Known} {s : RunState},
    b.Becomes (.running c U .exact) k b' → Twins c U .exact v v' b'.declared →
    b.Fits c.dialect v inLoop → b'.Fits c.dialect v' inLoop →
    Environment.Holds v'.vars s.env → k.Valid c v' s →
      b'.run c call v'.functions s = b.run c call v.functions s
  | ⟨_, stmts⟩, ⟨line, out⟩, v, v', inLoop, k, s, h, ht, hfits, hfits', henv, hk => by
      rw [Block.Becomes] at h
      rcases h with ⟨_, k₁, hk₁, h⟩
      rw [Block.Fits] at hfits hfits'
      have ht₁ : Twins c U .exact v v' ((⟨line, out⟩ : Block).declared ++ []) := by
        rw [List.append_nil]
        exact ht
      have htwins := (ht₁.enter h.correspond hfits.1 hfits.2 hfits'.1 hfits'.2).left
      rw [Block.run, Block.run]
      exact inScope_repeats (Stmt.BecomesSeq.repeats hcall hrepeats h htwins (List.cons_ne_nil _ _)
        (List.cons_ne_nil _ _) hfits.2 hfits'.2 (henv.enter out) ((hk.sub hk₁).enter henv out))
termination_by structural code => code

/-- Rewritten statements repeat the statements. -/
theorem Stmt.BecomesSeq.repeats (hcall : call.Sound c.dialect) (hrepeats : call.Repeats c U) :
    ∀ {stmts out : List Stmt} {v v' : Sight} {inLoop : Bool} {k : Known} {s : RunState},
    Stmt.BecomesSeq (.running c U .exact) k stmts out →
      Twins c U .exact v v' (Stmt.pendingSeq out) →
    v.vars ≠ [] → v'.vars ≠ [] → Stmt.FitsSeq c.dialect v inLoop stmts →
    Stmt.FitsSeq c.dialect v' inLoop out → Environment.Holds v'.vars s.env → k.Valid c v' s →
      Stmt.runSeq c call v'.functions out s = Stmt.runSeq c call v.functions stmts s
  | [], out, v, v', inLoop, k, s, h, _, _, _, _, _, _, _ => by
      rw [Stmt.becomesSeq_nil.mp h, Stmt.runSeq, Stmt.runSeq]
  | s₁ :: rest, out, v, v', inLoop, k, s, h, ht, hne, hne', hfits, hfits', henv, hk => by
      rcases Stmt.becomesSeq_cons.mp h with ⟨first, more, k₁, rfl, hs, hk₁, hmore⟩
      have hbecomes := hs
      rcases hs with ⟨s₁', hs, rfl⟩ | ⟨hreshapes, _⟩
      · rw [Stmt.FitsSeq] at hfits
        rw [List.singleton_append, Stmt.FitsSeq] at hfits'
        rw [Stmt.pendingSeq_append] at ht
        have hpending : Twins c U .exact v v' s₁'.pending := by
          -- The names of the first statement are pending first, then those of the others.
          simpa only [Stmt.pendingSeq_cons, Stmt.pendingSeq_nil, List.append_nil] using ht.left
        have hafter := ht.after hbecomes hfits.1 (Stmt.fitsSeq_singleton.mpr hfits'.1) hne hne'
        rw [List.singleton_append, Stmt.runSeq, Stmt.runSeq]
        -- Both do the same first step; from there on the induction goes on.
        refine bind_repeats
          (Stmt.Alike.repeats hcall hrepeats hs hpending hne hne' hfits.1 hfits'.1 henv hk)
          ((Stmt.run_sound hcall ht.distinct' ht.fit' hfits'.1 henv).and
            (Stmt.run_flow hcall hne' ht.distinct' ht.fit' hfits'.1 henv hk)) ?_
        rintro flow t ⟨hreached, hknown⟩
        cases flow with
        | next =>
            have hrest := Stmt.BecomesSeq.repeats hcall hrepeats hmore hafter
              (vars_after_ne hne s₁) (vars_after_ne hne' s₁') hfits.2 hfits'.2 hreached.holds
              ((hknown rfl).sub hk₁)
            rw [functions_after, afterSeq_cons, afterSeq_nil, functions_after] at hrest
            exact hrest
        | brk => rfl
        | cont => rfl
      -- In this mode no statement gives way.
      · exact absurd rfl hreshapes
termination_by structural code => code

/-- A rewritten statement repeats the statement. -/
theorem Stmt.Alike.repeats (hcall : call.Sound c.dialect) (hrepeats : call.Repeats c U) :
    ∀ {s₁ s₁' : Stmt} {v v' : Sight} {inLoop : Bool} {k : Known} {s : RunState},
    s₁.Alike (.running c U .exact) k s₁' → Twins c U .exact v v' s₁'.pending →
    v.vars ≠ [] → v'.vars ≠ [] → s₁.Fits c.dialect v inLoop →
    s₁'.Fits c.dialect v' inLoop → Environment.Holds v'.vars s.env → k.Valid c v' s →
      s₁'.run c call v'.functions s = s₁.run c call v.functions s
  | .expr _ e, s₁', v, v', inLoop, k, s, h, ht, _, _, hfits, _, henv, hk => by
      rw [Stmt.Alike] at h
      rcases h with ⟨e', rfl, he⟩
      rw [Stmt.Fits] at hfits
      rw [Stmt.run, Stmt.run]
      refine step_repeats fun t hst => ?_
      exact bind_congr (he.repeats hcall hrepeats ht hfits (hst.holds henv) (hk.steady henv hst))
        fun _ _ _ => rfl
  | .assign _ targets value, s₁', v, v', inLoop, k, s, h, ht, _, _, hfits, _, henv, hk => by
      rw [Stmt.Alike] at h
      rcases h with ⟨value', rfl, hvalue⟩
      rw [Stmt.Fits] at hfits
      rw [Stmt.run, Stmt.run]
      refine step_repeats fun t hst => ?_
      exact bind_congr
        (hvalue.repeats hcall hrepeats ht hfits.1 (hst.holds henv) (hk.steady henv hst))
        fun _ _ _ => rfl
  | .decl _ _ none, s₁', v, v', inLoop, k, s, h, _, _, _, _, _, _, _ => by
      rw [Stmt.Alike] at h
      rw [h, Stmt.run, Stmt.run]
  | .decl _ vars (some value), s₁', v, v', inLoop, k, s, h, ht, _, _, hfits, _, henv, hk => by
      rw [Stmt.Alike] at h
      rcases h with ⟨value', rfl, hvalue⟩
      rw [Stmt.Fits] at hfits
      rw [Stmt.run, Stmt.run]
      refine step_repeats fun t hst => ?_
      exact bind_congr
        (hvalue.repeats hcall hrepeats ht (hfits.1 value rfl) (hst.holds henv)
          (hk.steady henv hst)) fun _ _ _ => rfl
  | .func _ _ _ _ _, s₁', v, v', inLoop, k, s, h, _, _, _, _, _, _, _ => by
      rw [Stmt.Alike] at h
      rcases h with ⟨_, rfl, _⟩
      rw [Stmt.run, Stmt.run]
  | .cond _ test body, s₁', v, v', inLoop, k, s, h, ht, _, _, hfits, hfits', henv, hk => by
      rw [Stmt.Alike] at h
      rcases h with ⟨test', body', rfl, htest, hbody⟩
      rw [Stmt.Fits] at hfits hfits'
      rw [Stmt.run, Stmt.run]
      refine step_repeats fun t hst => ?_
      have henv' := hst.holds henv
      -- What is known stays valid behind the step of the counter.
      have hk' := hk.steady henv hst
      refine bind_repeats (htest.repeats_single hcall hrepeats ht hfits.1 henv' hk')
        (Expr.runSingle_sound hcall ht.distinct' ht.fit' hfits'.1 henv') fun value u hu => ?_
      split
      · rfl
      · exact Block.Becomes.repeats hcall hrepeats hbody ht hfits.2 hfits'.2 (hu.holds henv')
          (hk'.steady henv' hu)
  | .switch _ subject cases, s₁', v, v', inLoop, k, s, h, ht, _, _, hfits, hfits', henv, hk => by
      rw [Stmt.Alike] at h
      rcases h with ⟨subject', cases', rfl, hsubject, hcases⟩
      rw [Stmt.Fits] at hfits hfits'
      rw [Stmt.run, Stmt.run]
      refine step_repeats fun t hst => ?_
      have henv' := hst.holds henv
      have hk' := hk.steady henv hst
      refine bind_repeats (hsubject.repeats_single hcall hrepeats ht hfits.1 henv' hk')
        (Expr.runSingle_sound hcall ht.distinct' ht.fit' hfits'.1 henv') fun value u hu => ?_
      exact Case.AlikeSeq.repeats hcall hrepeats value hcases ht hfits.2 hfits'.2 (hu.holds henv')
        (hk'.steady henv' hu)
  | .loop _ ⟨preLine, pre⟩ test post body, s₁', v, v', inLoop, k, s, h, ht, hne, hne', hfits,
      hfits', henv, hk => by
      rw [Stmt.Alike] at h
      rcases h with ⟨pre', test', post', body', rfl, hpre, htest, hpost, hbody⟩
      -- Both loops fit, and so do their parts.
      rcases Stmt.Fits.loop_parts ht.distinct ht.fit hfits with
        ⟨_, _, _, htestFits, hbodyFits, hpostFits⟩
      rcases Stmt.Fits.loop_parts ht.distinct' ht.fit' hfits' with
        ⟨⟨hin, hfin, hpreFits'⟩, hout, hfout, htestFits', hbodyFits', hpostFits'⟩
      rw [Stmt.Fits] at hfits hfits'
      have hnames := ht.fewer fun x => Nat.le_of_eq (Stmt.pending_loop _ _ _ _ _ _ x).symm
      -- The init parts open scopes with matching functions.
      have henter := hnames.enter hpre.correspond hfits.1 hfits.2.1 hfits'.1 hfits'.2.1
      have hafter := henter.afterSeq hpre hfits.2.1 hpreFits' (List.cons_ne_nil _ _)
        (List.cons_ne_nil _ _)
      rw [Stmt.run, Stmt.run]
      refine step_repeats fun t hst => ?_
      have henv' := (hst.holds henv).enter pre'
      have hk' := (hk.steady henv hst).enter (hst.holds henv) pre'
      refine bind_congr (inScope_repeats ?_) fun _ _ _ => rfl
      refine bind_repeats
        (Stmt.BecomesSeq.repeats hcall hrepeats hpre henter.left (List.cons_ne_nil _ _)
          (List.cons_ne_nil _ _) hfits.2.1 hpreFits' henv' hk')
        ((Stmt.runSeq_sound hcall hin hfin hpreFits' henv').and
          (Stmt.runSeq_flow hcall (List.cons_ne_nil _ _) hin hfin hpreFits' henv' hk')) ?_
      rintro flow u ⟨hreached, hknown⟩
      -- Nothing leaves the init part of a loop that fits.
      obtain rfl : flow = .next := by
        by_contra hflow
        exact absurd (hreached.leaves hflow) Bool.false_ne_true
      -- Behind the init part, what the loop assigns is forgotten for the rounds.
      have hhead : (k.atHead c.dialect pre' post' body').Valid c
          ((v'.enter pre').afterSeq pre') u :=
        (hknown rfl).sub (Known.forget_sub _ _)
      have hrounds := Run.rounds_repeats (v := (v.enter pre).afterSeq pre) hcall hout hfout
        htestFits' hbodyFits' hpostFits' (Known.sub_forget_forget _ _)
        (fun _ henv hk => htest.repeats_single hcall hrepeats hafter htestFits henv hk)
        (fun _ henv hk =>
          Block.Becomes.repeats hcall hrepeats hbody hafter.left hbodyFits hbodyFits' henv hk)
        (fun _ henv hk =>
          Block.Becomes.repeats hcall hrepeats hpost hafter.right hpostFits hpostFits' henv hk)
        (c.limits.maxSteps + 1) hreached.holds hhead
      rw [functions_afterSeq, functions_afterSeq] at hrounds
      exact hrounds
  | .brk _, s₁', v, v', inLoop, k, s, h, _, _, _, _, _, _, _ => by
      rw [Stmt.Alike] at h
      rw [h, Stmt.run, Stmt.run]
  | .cont _, s₁', v, v', inLoop, k, s, h, _, _, _, _, _, _, _ => by
      rw [Stmt.Alike] at h
      rw [h, Stmt.run, Stmt.run]
  | .block b, s₁', v, v', inLoop, k, s, h, ht, _, _, hfits, hfits', henv, hk => by
      rw [Stmt.Alike] at h
      rcases h with ⟨b', rfl, hb⟩
      rw [Stmt.Fits] at hfits hfits'
      rw [Stmt.run, Stmt.run]
      refine step_repeats fun t hst => ?_
      exact Block.Becomes.repeats hcall hrepeats hb ht hfits hfits' (hst.holds henv)
        (hk.steady henv hst)
  | .label _ _, _, _, _, _, _, _, _, _, _, _, hfits, _, _, _ => by
      rw [Stmt.Fits] at hfits
      exact False.elim hfits
  | .stackAssign _ _, _, _, _, _, _, _, _, _, _, _, hfits, _, _, _ => by
      rw [Stmt.Fits] at hfits
      exact False.elim hfits
termination_by structural code => code

/-- Rewritten cases repeat the cases. -/
theorem Case.AlikeSeq.repeats (hcall : call.Sound c.dialect) (hrepeats : call.Repeats c U)
    (value : Word) : ∀ {cases cases' : List Case} {v v' : Sight} {inLoop : Bool}
    {seen : List Word} {k : Known} {s : RunState},
    Case.AlikeSeq (.running c U .exact) k cases cases' →
    Twins c U .exact v v' ((Case.allStmtsSeq cases').flatMap Stmt.declaresHere) →
    Case.FitsSeq c.dialect v inLoop seen cases → Case.FitsSeq c.dialect v' inLoop seen cases' →
    Environment.Holds v'.vars s.env → k.Valid c v' s →
      Case.runSeq c call v'.functions value cases' s = Case.runSeq c call v.functions value cases s
  | [], cases', v, v', inLoop, seen, k, s, h, _, _, _, _, _ => by
      rw [Case.AlikeSeq] at h
      rw [h, Case.runSeq, Case.runSeq]
  | ⟨_, none, body⟩ :: rest, cases', v, v', inLoop, seen, k, s, h, ht, hfits, hfits', henv, hk => by
      rw [Case.AlikeSeq] at h
      rcases h with ⟨body', rest', rfl, hbody, _⟩
      rw [Case.FitsSeq] at hfits hfits'
      simp only [Case.allStmtsSeq, List.flatMap_append] at ht
      rw [Case.runSeq, Case.runSeq]
      exact Block.Becomes.repeats hcall hrepeats hbody ht.left hfits.1 hfits'.1 henv hk
  | ⟨_, some l, body⟩ :: rest, cases', v, v', inLoop, seen, k, s, h, ht, hfits, hfits', henv,
      hk => by
      rw [Case.AlikeSeq] at h
      rcases h with ⟨body', rest', rfl, hbody, hrest⟩
      rw [Case.FitsSeq] at hfits hfits'
      rcases hfits with ⟨w, hw, _, hbodyFits, hrestFits⟩
      rcases hfits' with ⟨w', hw', _, hbodyFits', hrestFits'⟩
      -- The value of the case is the same on both sides.
      obtain rfl := Except.ok.inj (hw.symm.trans hw')
      simp only [Case.allStmtsSeq, List.flatMap_append] at ht
      rw [Case.runSeq, Case.runSeq]
      refine bind_repeats rfl (Ends.literal hw) ?_
      rintro u t ⟨rfl, rfl⟩
      -- The case is taken, or the others are tried.
      split
      · exact Block.Becomes.repeats hcall hrepeats hbody ht.left hbodyFits hbodyFits' henv hk
      · exact Case.AlikeSeq.repeats hcall hrepeats value hrest ht.right hrestFits hrestFits' henv hk
termination_by structural code => code

end

end Code

/-- Calls do the same, however deep they go. -/
theorem FunctionDef.call_repeats (c : RunContext) (U : String → Prop) :
    ∀ depth, Caller.Repeats c U (FunctionDef.call c depth) := by
  intro depth
  induction depth with
  | zero => exact fun _ _ _ _ _ _ _ _ _ _ _ _ _ _ => rfl
  | succ depth ih =>
      intro fs fs' name f f' args hfit hnodup hfit' hnodup' hmatched hf hf' hargs
      rcases hmatched name f hf with ⟨f'', hf'', hcounter⟩
      obtain rfl := Option.some.inj (hf'.symm.trans hf'')
      rcases hcounter.twins hfit hnodup hfit' hnodup' hmatched with
        ⟨hidden, hidden', ht, hfits, hfits'⟩
      have hname : f'.name = f.name := congrArg (·.1) hcounter.header
      have hparams : f'.params = f.params := congrArg (·.2.1) hcounter.header
      have hreturns : f'.returns = f.returns := congrArg (·.2.2) hcounter.header
      have hframe : f'.frame args = f.frame args := by
        simp only [FunctionDef.frame, hparams, hreturns]
      have hresults : Run.results f' = Run.results f := by
        funext env
        simp only [Run.results, hname, hreturns]
      -- What the bodies see of the functions in sight are those around their definitions.
      have hlexical := FunctionDef.call_lexical c depth
      have hbody := Block.run_lexical hlexical ht.distinct ht.fit
        (FunctionScopes.site_within hnodup name)
        hfits
      have hbody' := Block.run_lexical hlexical ht.distinct' ht.fit'
        (FunctionScopes.site_within hnodup' name)
        hfits'
      have hholds := f.frame_holds hargs
      rw [FunctionDef.call, FunctionDef.call, hframe, hresults, hbody, hbody']
      funext s
      refine bind_repeats (P := fun _ t => Environment.Holds [f.names] t.env) rfl hholds
        fun _ t ht' => ?_
      exact bind_congr (hcounter.body.repeats (FunctionDef.call_sound c depth) ih ht hfits hfits'
        ht' Known.valid_nothing)
        fun _ _ _ => rfl

/-- A program whose expressions were replaced has the same result within every budget. -/
theorem Block.Becomes.interpret_eq {d : Dialect} {limits : Limits} {b b' : Block}
    (h : b.Becomes (.running ⟨d, limits, true⟩ (fun _ => False) .exact) .nothing b')
    (hfits : b.Fits d .empty false) (calldata : List UInt8) :
    interpret d limits calldata b' = interpret d limits calldata b := by
  have ht : Twins ⟨d, limits, true⟩ (fun _ => False) .exact .empty .empty b'.declared :=
    .empty fun _ => False.elim
  have hfits' := h.fits hfits ht.toWidens (Known.fits_nothing _ _)
  have hrun := h.repeats (s := ⟨.initial calldata, 0, []⟩)
    (FunctionDef.call_sound ⟨d, limits, true⟩ limits.maxSteps) (FunctionDef.call_repeats _ _ _)
    ht hfits hfits' .nil Known.valid_nothing
  have hfunctions : Sight.empty.functions = [] := rfl
  rw [hfunctions] at hrun
  rw [interpret, interpret]
  simp only [hrun]

end YulToolchain
