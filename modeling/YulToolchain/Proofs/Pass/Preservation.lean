import YulToolchain.Proofs.Execution.Metering
import YulToolchain.Proofs.Pass.Loop

/-!
# What Code Becomes Does What the Code Did

The rules of the simulation, put together by recursion over the old code.

Every statement takes one step before anything else, and so does whatever takes its place,
unless nothing does. A statement that gives way to others has its step to spare, which pays
for a block around them or for the loop that comes behind its initialisation. So the new code
is never behind, except where a pass may spend steps of its own.

What a call does is assumed of the callees, and then proved by induction on the depth of
calls: the bodies of functions are code that became other code.

## Main definitions

* `Caller.Preserved`: What is assumed of calls on both sides.

## Theorems

* `Block.Becomes.performs`, `Stmt.BecomesSeq.simulates`: Blocks and statements.
* `FunctionDef.call_agrees`: Calls, however deep they go.
* `Block.Becomes.run_meets`: Whole programs.
-/

namespace YulToolchain

open Sight Run

/-- What is assumed of calls on both sides: they go well, depend on the functions in sight
    only, and agree. -/
structure Caller.Preserved (c : RunContext) (U : String → Prop) (r : Liberty) (call : Caller) :
    Prop where
  sound : call.Sound c.dialect
  lexical : call.Lexical c.dialect
  agrees : call.Agrees c U r

section Code

variable {c : RunContext} {U : String → Prop} {r : Liberty} {call : Caller}

/-- The scope of a loop is left with the variables of the loop and of its initialisation. -/
theorem Stmt.runLoop_closes (hcall : call.Sound c.dialect) {v : Sight} {inLoop : Bool}
    {line preLine : Nat} {pre : List Stmt} {test : Expr} {post body : Block} (hv : v.Distinct)
    (hfit : v.functions.Fit c.dialect)
    (hfits : (Stmt.loop line ⟨preLine, pre⟩ test post body).Fits c.dialect v inLoop)
    {s : RunState} (henv : Environment.Holds (v.enter pre).vars s.env) :
    Ends (Stmt.runLoop c call (v.enter pre).functions pre test post body s)
      fun _ t => Closes v t := by
  -- What the parts of the loop need to fit.
  rcases Stmt.Fits.loop_parts hv hfit hfits with
    ⟨⟨hin, hfin, hpre⟩, hout, hfout, htest, hbody, hpost⟩
  rw [Stmt.runLoop]
  refine (Stmt.runSeq_sound hcall hin hfin hpre henv).bind fun flow t hreached => ?_
  -- Nothing leaves the init part of a loop that fits.
  obtain rfl : flow = .next := by
    by_contra hflow
    exact absurd (hreached.leaves hflow) Bool.false_ne_true
  have hrounds := Stmt.rounds_sound hcall hout hfout htest hbody hpost (c.limits.maxSteps + 1)
    hreached.holds
  rw [functions_afterSeq] at hrounds
  exact hrounds.bind fun _ u hu => hu.holds.closes hout

/-- A declaration without a value takes as many steps as it has variables when it is split. -/
theorem Simulates.split (hc : c.metered = false) {v : Sight} {inLoop : Bool} {k : Known}
    {line : Nat} {vars : List TypedName} (hvars : v.vars ≠ []) (hr : r = .free) :
    Simulates c U r call 0 v inLoop k ((Stmt.decl line vars none).run c call v.functions)
      (v.declare (vars.map (·.name))) (Pass.initializeStmt (.decl line vars none)) := by
  intro lead v' s s' _ _ hne _ hs _
  have hlength : (List.replicate vars.length (0 : Word)).length = vars.length :=
    List.length_replicate
  have hdeclared := Both.declared (H := Level r lead) line hs hvars hne hlength
  rw [if_pos hlength] at hdeclared
  rw [Stmt.runSeq_split hc, Stmt.run]
  simp only [Bind.bind, EStateM.bind, step_free hc, Pure.pure, EStateM.pure, if_pos hlength]
  have hmeets : Meets r lead v (v.declare (vars.map (·.name))) _ _ _ _ := hdeclared
  have hlevel : ∀ {t t' : RunState} {names : List String} {n n' : Nat},
      Same r lead names t t' → Same r lead names { t with steps := n } { t' with steps := n' } :=
    fun h => ⟨⟨h.machine, fun hne => absurd hr hne⟩, h.vars⟩
  exact ⟨rfl, hlevel hmeets.same, fun _ => hlevel (hmeets.next rfl)⟩

mutual

/-- A block does what the block did from which it came. -/
theorem Block.Becomes.performs (hc : c.metered = false) (hcalls : call.Preserved c U r) :
    ∀ {b b' : Block} {v : Sight} {inLoop inLoop₀ : Bool} {k : Known},
    b.Becomes (.running c U r) k b' → v.Distinct → v.functions.Fit c.dialect →
    b.Fits c.dialect v inLoop₀ →
      Block.Performs c U r call v inLoop k (b.run c call v.functions) b'
  | ⟨_, stmts⟩, ⟨line, out⟩, v, inLoop, inLoop₀, k, h, hv, hfit, hfits => by
      rw [Block.Becomes] at h
      rcases h with ⟨_, k₁, hk₁, h⟩
      rw [Block.Fits] at hfits
      have hin := distinct_enter hv hfits.1
      have hfin := FunctionScopes.Fit.enter hv hfit hfits.1 hfits.2
      have hseq : Simulates c U r call 0 _ inLoop _ _ _ _ :=
        Stmt.BecomesSeq.simulates hc hcalls h hin hfin (List.cons_ne_nil _ _) hfits.2
      rw [Block.run]
      exact Block.performs_of_seq hcalls.sound h.correspond hfits.1 hfits.2
        (fun s henv => (Stmt.runSeq_sound hcalls.sound hin hfin hfits.2 henv).mono
          fun _ _ h => h.closes) (hseq.sub hk₁)
termination_by structural code => code

/-- So does what may stand for it, with a step to spare. -/
theorem Block.Becomes.opened (hc : c.metered = false) (hcalls : call.Preserved c U r) :
    ∀ {b b' : Block} {out : List Stmt} {v : Sight} {inLoop inLoop₀ : Bool} {k : Known},
    b.Becomes (.running c U r) k b' → b'.Opens U out → v.Distinct →
    v.functions.Fit c.dialect → b.Fits c.dialect v inLoop₀ →
      Simulates c U r call 1 v inLoop k (b.run c call v.functions) v out
  | ⟨_, stmts⟩, ⟨line, out⟩, result, v, inLoop, inLoop₀, k, h, hopens, hv, hfit, hfits => by
      rw [Block.Becomes] at h
      rcases h with ⟨_, k₁, hk₁, h⟩
      rw [Block.Fits] at hfits
      have hin := distinct_enter hv hfits.1
      have hfin := FunctionScopes.Fit.enter hv hfit hfits.1 hfits.2
      have hseq : Simulates c U r call 0 _ inLoop _ _ _ _ :=
        Stmt.BecomesSeq.simulates hc hcalls h hin hfin (List.cons_ne_nil _ _) hfits.2
      rw [Block.run]
      exact hopens.simulates hc hcalls.sound h.correspond hfits.1 hfits.2
        (fun s henv => (Stmt.runSeq_sound hcalls.sound hin hfin hfits.2 henv).mono
          fun _ _ h => h.closes) (hseq.sub hk₁)
termination_by structural code => code

/-- Statements do what those did from which they came. -/
theorem Stmt.BecomesSeq.simulates (hc : c.metered = false) (hcalls : call.Preserved c U r) :
    ∀ {stmts out : List Stmt} {v : Sight} {inLoop inLoop₀ : Bool} {k : Known},
    Stmt.BecomesSeq (.running c U r) k stmts out → v.Distinct → v.functions.Fit c.dialect →
    v.vars ≠ [] → Stmt.FitsSeq c.dialect v inLoop₀ stmts →
      Simulates c U r call 0 v inLoop k (Stmt.runSeq c call v.functions stmts)
        (v.afterSeq stmts) out
  | [], out, v, inLoop, inLoop₀, k, h, _, _, _, _ => by
      rw [Stmt.becomesSeq_nil.mp h, Stmt.runSeq]
      exact .nothing
  | s₁ :: rest, out, v, inLoop, inLoop₀, k, h, hv, hfit, hne, hfits => by
      rcases Stmt.becomesSeq_cons.mp h with ⟨first, more, k₁, rfl, hs, hk₁, hmore⟩
      rw [Stmt.FitsSeq] at hfits
      -- A statement keeps its form or gives way to others.
      have hfirst : Simulates c U r call 0 v inLoop k (s₁.run c call v.functions) (v.after s₁)
          first := by
        rcases hs with ⟨s₁', hs, rfl⟩ | ⟨_, hs⟩
        · exact Stmt.Alike.simulates hc hcalls hs hv hfit hne hfits.1
        · exact Stmt.GivesWay.simulates hc hcalls hs hv hfit hne hfits.1
      -- The others are looked at where the first one has been.
      have hrest : Simulates c U r call 0 _ inLoop _ _ _ _ :=
        Stmt.BecomesSeq.simulates hc hcalls hmore (Stmt.Fits.distinct_after hv hfits.1)
          (functions_after v s₁ ▸ hfit) (vars_after_ne hne s₁) hfits.2
      exact Simulates.cons hcalls.sound hs hv hfit hne hfits.1 hfirst hk₁ hrest
termination_by structural code => code

/-- A statement with other parts does what the statement did. -/
theorem Stmt.Alike.simulates (hc : c.metered = false) (hcalls : call.Preserved c U r) :
    ∀ {s₁ s₁' : Stmt} {v : Sight} {inLoop inLoop₀ : Bool} {k : Known},
    s₁.Alike (.running c U r) k s₁' → v.Distinct → v.functions.Fit c.dialect → v.vars ≠ [] →
    s₁.Fits c.dialect v inLoop₀ →
      Simulates c U r call 0 v inLoop k (s₁.run c call v.functions) (v.after s₁) [s₁']
  | .expr _ e, s₁', v, inLoop, inLoop₀, k, h, _, _, _, hfits => by
      rw [Stmt.Alike] at h
      rcases h with ⟨e', rfl, he⟩
      rw [Stmt.Fits] at hfits
      rw [Stmt.run]
      refine .stepped hc (fun _ => by rw [Stmt.run]) fun lead v' s s' ht _ _ hs hk => ?_
      -- The one step of each is taken; the expression has no value on either side.
      refine (he.agree hcalls.sound hcalls.agrees ht hfits hs hk).bind
        fun values t values' t' hvalues => ?_
      obtain rfl := hvalues.values
      obtain rfl := List.eq_nil_of_length_eq_zero hvalues.length
      exact Meets.here (hs.evaluated hvalues).toSame
  | .assign _ targets value, s₁', v, inLoop, inLoop₀, k, h, _, _, _, hfits => by
      rw [Stmt.Alike] at h
      rcases h with ⟨value', rfl, hvalue⟩
      rw [Stmt.Fits] at hfits
      rw [Stmt.run]
      refine .stepped hc (fun _ => by rw [Stmt.run]) fun lead v' s s' ht _ _ hs hk => ?_
      refine (hvalue.agree hcalls.sound hcalls.agrees ht hfits.1 hs hk).bind
        fun values t values' t' hvalues => ?_
      obtain rfl := hvalues.values
      rw [if_pos hvalues.length]
      -- Values of the same number go to targets that both sides see.
      refine (Both.assignAll (hs.evaluated hvalues) ht.visible fun p hp => ?_).bind
        fun _ _ _ _ hsame => Meets.here hsame
      rcases List.mem_map.mp (List.of_mem_zip hp).1 with ⟨target, htarget, hname⟩
      exact hname ▸ hfits.2 target htarget
  | .decl line vars none, s₁', v, inLoop, inLoop₀, k, h, _, _, hne, _ => by
      rw [Stmt.Alike] at h
      subst h
      rw [Stmt.run]
      refine .stepped hc (fun _ => by rw [Stmt.run]) fun lead v' s s' _ hne' _ hs _ => ?_
      -- Without a value both declare zeros.
      exact Both.declared _ hs hne hne' List.length_replicate
  | .decl line vars (some value), s₁', v, inLoop, inLoop₀, k, h, _, _, hne, hfits => by
      rw [Stmt.Alike] at h
      rcases h with ⟨value', rfl, hvalue⟩
      rw [Stmt.Fits] at hfits
      rw [Stmt.run]
      refine .stepped hc (fun _ => by rw [Stmt.run]) fun lead v' s s' ht hne' _ hs hk => ?_
      refine (hvalue.agree hcalls.sound hcalls.agrees ht (hfits.1 value rfl) hs hk).bind
        fun values t values' t' hvalues => ?_
      obtain rfl := hvalues.values
      exact Both.declared _ (hs.evaluated hvalues) hne hne' hvalues.length
  | .func _ _ _ _ _, s₁', v, inLoop, inLoop₀, k, h, _, _, _, _ => by
      rw [Stmt.Alike] at h
      rcases h with ⟨_, rfl, _⟩
      rw [Stmt.run]
      refine .stepped hc (fun _ => by rw [Stmt.run]) fun _ _ _ _ _ _ _ hs _ => ?_
      exact Meets.here hs.toSame
  | .cond _ test body, s₁', v, inLoop, inLoop₀, k, h, hv, hfit, _, hfits => by
      rw [Stmt.Alike] at h
      rcases h with ⟨test', body', rfl, htest, hbody⟩
      rw [Stmt.Fits] at hfits
      -- The body does the same wherever the functions match.
      have hperforms : Block.Performs c U r call v inLoop _ _ _ :=
        Block.Becomes.performs hc hcalls hbody hv hfit hfits.2
      rw [Stmt.run]
      refine .stepped hc (fun _ => by rw [Stmt.run]) fun lead v' s s' ht _ hfits' hs hk => ?_
      rw [Stmt.Fits] at hfits'
      refine (htest.agree_single hcalls.sound hcalls.agrees ht hfits.1 hs hk).bind
        fun w t w' t' hw => ?_
      obtain ⟨rfl, -⟩ := List.cons.inj hw.values
      have hs' := hs.evaluated hw
      -- The test has the same value, so that both enter the body or neither does.
      by_cases hzero : w' = 0
      · rw [if_pos hzero, if_pos hzero]
        exact Meets.here hs'.toSame
      · rw [if_neg hzero, if_neg hzero]
        exact hperforms lead v' t t' ht hfits'.2 hs' (hk.steady hs.holds' hw.steady')
  | .switch _ subject cases, s₁', v, inLoop, inLoop₀, k, h, hv, hfit, _, hfits => by
      rw [Stmt.Alike] at h
      rcases h with ⟨subject', cases', rfl, hsubject, hcases⟩
      rw [Stmt.Fits] at hfits
      rw [Stmt.run]
      refine .stepped hc (fun _ => by rw [Stmt.run]) fun lead v' s s' ht _ hfits' hs hk => ?_
      rw [Stmt.Fits] at hfits'
      refine (hsubject.agree_single hcalls.sound hcalls.agrees ht hfits.1 hs hk).bind
        fun w t w' t' hw => ?_
      obtain ⟨rfl, -⟩ := List.cons.inj hw.values
      -- The cases are tried with one subject.
      exact Case.AlikeSeq.meets hc hcalls w' hcases hv hfit hfits.2 ht hfits'.2
        (hs.evaluated hw) (hk.steady hs.holds' hw.steady')
  | .loop _ ⟨preLine, pre⟩ test post body, s₁', v, inLoop, inLoop₀, k, h, hv, hfit, _, hfits => by
      rw [Stmt.Alike] at h
      rcases h with ⟨pre', test', post', body', rfl, hpre, htest, hpost, hbody⟩
      rcases Stmt.Fits.loop_parts hv hfit hfits with
        ⟨⟨hin, hfin, hpreFits⟩, hout, hfout, htestFits, hbodyFits, hpostFits⟩
      rw [Stmt.Fits] at hfits
      -- The init part runs in a scope of its own, outside of any loop.
      have hinit : Simulates c U r call 0 _ false _ _ _ _ :=
        Stmt.BecomesSeq.simulates hc hcalls hpre hin hfin (List.cons_ne_nil _ _) hpreFits
      rw [Stmt.run_loop]
      -- The rounds start from what is known behind the init part, less what the loop assigns.
      exact .loop hc hcalls.sound hpre hfits.1 hpreFits hinit (Known.forget_sub _ _)
        (.of_parts hc hcalls.sound hcalls.agrees
          ⟨Known.sub_forget_forget _ _, htest, htestFits, hbodyFits, hpostFits,
            Block.Becomes.performs hc hcalls hbody hout hfout hbodyFits,
            Block.Becomes.performs hc hcalls hpost hout hfout hpostFits⟩)
  | .brk _, s₁', v, inLoop, inLoop₀, k, h, _, _, _, _ => by
      rw [Stmt.Alike] at h
      subst h
      rw [Stmt.run]
      refine .stepped hc (fun _ => by rw [Stmt.run]) fun _ _ _ _ _ _ _ hs _ => ?_
      exact Meets.here hs.toSame
  | .cont _, s₁', v, inLoop, inLoop₀, k, h, _, _, _, _ => by
      rw [Stmt.Alike] at h
      subst h
      rw [Stmt.run]
      refine .stepped hc (fun _ => by rw [Stmt.run]) fun _ _ _ _ _ _ _ hs _ => ?_
      exact Meets.here hs.toSame
  | .block b, s₁', v, inLoop, inLoop₀, k, h, hv, hfit, _, hfits => by
      rw [Stmt.Alike] at h
      rcases h with ⟨b', rfl, hb⟩
      rw [Stmt.Fits] at hfits
      have hperforms : Block.Performs c U r call v inLoop _ _ _ :=
        Block.Becomes.performs hc hcalls hb hv hfit hfits
      rw [Stmt.run]
      refine .stepped hc (fun _ => by rw [Stmt.run]) fun lead v' s s' ht _ hfits' hs hk => ?_
      rw [Stmt.Fits] at hfits'
      exact hperforms lead v' s s' ht hfits' hs hk
  | .label _ _, _, _, _, _, _, _, _, _, _, hfits => by
      rw [Stmt.Fits] at hfits
      exact False.elim hfits
  | .stackAssign _ _, _, _, _, _, _, _, _, _, _, hfits => by
      rw [Stmt.Fits] at hfits
      exact False.elim hfits
termination_by structural code => code

/-- What takes the place of a statement does what the statement did. -/
theorem Stmt.GivesWay.simulates (hc : c.metered = false) (hcalls : call.Preserved c U r) :
    ∀ {s₁ : Stmt} {out : List Stmt} {v : Sight} {inLoop inLoop₀ : Bool} {k : Known},
    s₁.GivesWay (.running c U r) k out → v.Distinct → v.functions.Fit c.dialect → v.vars ≠ [] →
    s₁.Fits c.dialect v inLoop₀ →
      Simulates c U r call 0 v inLoop k (s₁.run c call v.functions) (v.after s₁) out
  | .decl line vars none, out, v, inLoop, inLoop₀, k, h, _, _, hne, _ => by
      simp only [Stmt.GivesWay] at h
      -- A declaration without a value becomes one zero declaration for each name.
      rw [h.2]
      exact .split hc hne h.1
  | .cond _ test body, out, v, inLoop, inLoop₀, k, h, hv, hfit, _, hfits => by
      simp only [Stmt.GivesWay] at h
      rw [Stmt.Fits] at hfits
      rw [Stmt.run]
      refine .step hc ?_
      rcases h with ⟨htest, rfl⟩ | ⟨w, b', htest, hw, hbody, hopens⟩
      -- The test is known to be zero: nothing is left of the conditional.
      · refine .known htest hfits.1 ?_
        rw [if_pos rfl]
        exact .nothing
      -- The test is known to hold: the body opens in its place.
      · refine .known htest hfits.1 ?_
        rw [if_neg hw]
        exact Block.Becomes.opened hc hcalls hbody hopens hv hfit hfits.2
  | .switch _ subject cases, out, v, inLoop, inLoop₀, k, h, hv, hfit, _, hfits => by
      simp only [Stmt.GivesWay] at h
      rcases h with ⟨w, hsubject, hselected⟩
      rw [Stmt.Fits] at hfits
      rw [Stmt.run]
      -- The subject is known, and the selected case is left.
      exact .step hc (.known hsubject hfits.1
        (Case.Selected.simulates hc hcalls hselected hv hfit hfits.2))
  | .loop line ⟨preLine, pre⟩ test post body, out, v, inLoop, inLoop₀, k, h, hv, hfit, _,
      hfits => by
      have hloop := hfits
      rcases Stmt.Fits.loop_parts hv hfit hfits with
        ⟨⟨hin, hfin, hpreFits⟩, hout, hfout, htestFits, hbodyFits, hpostFits⟩
      rw [Stmt.Fits] at hfits
      have hcloses := fun s henv => Stmt.runLoop_closes hcalls.sound (s := s) hv hfit hloop henv
      simp only [Stmt.GivesWay] at h
      rw [Stmt.run_loop]
      rcases h with ⟨pre', k₁, htest, hreads, hk₁, hpre, hopens⟩ |
        ⟨pre', test', post', body', hpre, htest, hpost, hbody, h⟩
      · -- The loop is never entered, so its initialisation is all that it does.
        have hinit : Simulates c U r call 0 _ inLoop _ _ _ _ :=
          Stmt.BecomesSeq.simulates hc hcalls hpre hin hfin (List.cons_ne_nil _ _) hpreFits
        exact .step hc (hopens.simulates hc hcalls.sound hpre.correspond hfits.1 hpreFits hcloses
          (.never hc hcalls.sound hpreFits htestFits htest hreads (hinit.sub hk₁)))
      -- The loop stays, with its init part before it or its condition inside.
      · have hparts : LoopParts c U r call ((v.enter pre).afterSeq pre)
            (k.atHead c.dialect pre' post' body') test post body test' post' body' :=
          ⟨Known.sub_forget_forget _ _, htest, htestFits, hbodyFits, hpostFits,
            Block.Becomes.performs hc hcalls hbody hout hfout hbodyFits,
            Block.Becomes.performs hc hcalls hpost hout hfout hpostFits⟩
        -- The rounds of both loops do the same, whatever has become of the init part.
        have hcycles := Cycles.of_parts hc hcalls.sound hcalls.agrees hparts
        have hinit (inLoop : Bool) : Simulates c U r call 0 _ inLoop _ _ _ _ :=
          Stmt.BecomesSeq.simulates hc hcalls hpre hin hfin (List.cons_ne_nil _ _) hpreFits
        rcases h with ⟨hopens, hcosts⟩ | ⟨hr, rfl⟩
        · have hmoved : Simulates c U r call 1 _ inLoop k _ _
              (_ ++ [.loop line ⟨preLine, []⟩ test' post' body']) :=
            .hoisted hc hcalls.sound hpre (List.cons_ne_nil _ _) hpreFits (hinit inLoop)
              (Known.forget_sub _ _) hcycles
          have hcorr := hpre.correspond.append
            (s := .loop line ⟨preLine, []⟩ test' post' body') rfl
          -- Either steps are not counted, or the loop is spliced into a list and takes no more of
          -- them.
          rcases hcosts with hr | rfl
          · exact .step hc (hopens.simulates hc hcalls.sound hcorr hfits.1 hpreFits hcloses
              (hmoved.more fun hne => absurd hr hne))
          · exact .step hc (.spliced hcorr hfits.1 hpreFits hcloses hmoved)
        · rcases body' with ⟨bodyLine, stmts⟩
          exact .loop hc hcalls.sound hpre hfits.1 hpreFits (hinit false) (Known.forget_sub _ _)
            (.guarded hc hcalls.sound hcalls.lexical hcalls.agrees hr hparts)
  | .block b, out, v, inLoop, inLoop₀, k, h, hv, hfit, _, hfits => by
      simp only [Stmt.GivesWay] at h
      rcases h with ⟨b', hb, hbind, rfl⟩
      rw [Stmt.Fits] at hfits
      rw [Stmt.run]
      exact .step hc (Block.Becomes.opened hc hcalls hb (.inr ⟨hbind, rfl⟩) hv hfit hfits)
  | .expr _ _, _, _, _, _, _, h, _, _, _, _ => by simp only [Stmt.GivesWay] at h
  | .assign _ _ _, _, _, _, _, _, h, _, _, _, _ => by simp only [Stmt.GivesWay] at h
  | .decl _ _ (some _), _, _, _, _, _, h, _, _, _, _ => by simp only [Stmt.GivesWay] at h
  | .func _ _ _ _ _, _, _, _, _, _, h, _, _, _, _ => by simp only [Stmt.GivesWay] at h
  | .brk _, _, _, _, _, _, h, _, _, _, _ => by simp only [Stmt.GivesWay] at h
  | .cont _, _, _, _, _, _, h, _, _, _, _ => by simp only [Stmt.GivesWay] at h
  | .label _ _, _, _, _, _, _, h, _, _, _, _ => by simp only [Stmt.GivesWay] at h
  | .stackAssign _ _, _, _, _, _, _, h, _, _, _, _ => by simp only [Stmt.GivesWay] at h
termination_by structural code => code

/-- Cases with other bodies do what the cases did. -/
theorem Case.AlikeSeq.meets (hc : c.metered = false) (hcalls : call.Preserved c U r)
    (value : Word) : ∀ {cases cases' : List Case} {v v' : Sight} {inLoop inLoop₀ : Bool}
    {seen seen' : List Word} {k : Known} {lead : Nat} {s s' : RunState},
    Case.AlikeSeq (.running c U r) k cases cases' → v.Distinct → v.functions.Fit c.dialect →
    Case.FitsSeq c.dialect v inLoop₀ seen cases →
    Twins c U r v v' ((Case.allStmtsSeq cases').flatMap Stmt.declaresHere) →
    Case.FitsSeq c.dialect v' inLoop seen' cases' → Agree r lead v v' s s' → k.Valid c v' s' →
      Both (Level r lead) (Case.runSeq c call v.functions value cases s)
        (Case.runSeq c call v'.functions value cases' s') (Meets r lead v v)
  | [], cases', v, v', inLoop, inLoop₀, seen, seen', k, lead, s, s', h, _, _, _, _, _, hs, _ => by
      rw [Case.AlikeSeq] at h
      rw [h, Case.runSeq, Case.runSeq]
      exact Meets.here hs.toSame
  | ⟨_, none, body⟩ :: rest, cases', v, v', inLoop, inLoop₀, seen, seen', k, lead, s, s', h, hv,
      hfit, hfits, ht, hfits', hs, hk => by
      rw [Case.AlikeSeq] at h
      rcases h with ⟨body', rest', rfl, hbody, _⟩
      rw [Case.FitsSeq] at hfits hfits'
      simp only [Case.allStmtsSeq, List.flatMap_append] at ht
      rw [Case.runSeq, Case.runSeq]
      -- The default case is taken.
      exact Block.Becomes.performs hc hcalls hbody hv hfit hfits.1 lead v' s s' ht.left hfits'.1
        hs hk
  | ⟨_, some l, body⟩ :: rest, cases', v, v', inLoop, inLoop₀, seen, seen', k, lead, s, s', h, hv,
      hfit, hfits, ht, hfits', hs, hk => by
      rw [Case.AlikeSeq] at h
      rcases h with ⟨body', rest', rfl, hbody, hrest⟩
      rw [Case.FitsSeq] at hfits hfits'
      rcases hfits with ⟨w, hw, _, hbodyFits, hrestFits⟩
      rcases hfits' with ⟨w', hw', _, hbodyFits', hrestFits'⟩
      simp only [Case.allStmtsSeq, List.flatMap_append] at ht
      rw [Case.runSeq, Case.runSeq]
      simp only [Run.literal, hw, pure_bind]
      -- The value of the case decides, and it is the same on both sides.
      split
      · exact Block.Becomes.performs hc hcalls hbody hv hfit hbodyFits lead v' s s' ht.left
          hbodyFits' hs hk
      · exact Case.AlikeSeq.meets hc hcalls value hrest hv hfit hrestFits ht.right hrestFits' hs hk
termination_by structural code => code

/-- What takes the place of a switch on a value does what the case with that value did. -/
theorem Case.Selected.simulates (hc : c.metered = false) (hcalls : call.Preserved c U r)
    {w : Word} : ∀ {cases : List Case} {out : List Stmt} {v : Sight} {inLoop inLoop₀ : Bool}
    {seen : List Word} {k : Known}, Case.Selected (.running c U r) k w cases out →
    v.Distinct → v.functions.Fit c.dialect → Case.FitsSeq c.dialect v inLoop₀ seen cases →
      Simulates c U r call 1 v inLoop k (Case.runSeq c call v.functions w cases) v out
  | [], out, v, inLoop, inLoop₀, seen, k, h, _, _, _ => by
      rw [Case.Selected] at h
      rw [h, Case.runSeq]
      exact .nothing
  | ⟨_, none, body⟩ :: rest, out, v, inLoop, inLoop₀, seen, k, h, hv, hfit, hfits => by
      rw [Case.FitsSeq] at hfits
      rcases hfits with ⟨hbodyFits, rfl⟩
      -- The default case comes last, so no case before it was taken.
      rw [Case.Selected, List.any_nil, if_neg Bool.false_ne_true] at h
      rcases h with ⟨b', hbody, hopens⟩
      rw [Case.runSeq]
      exact Block.Becomes.opened hc hcalls hbody hopens hv hfit hbodyFits
  | ⟨_, some l, body⟩ :: rest, out, v, inLoop, inLoop₀, seen, k, h, hv, hfit, hfits => by
      rw [Case.FitsSeq] at hfits
      rcases hfits with ⟨w', hw', _, hbodyFits, hrestFits⟩
      simp only [Case.Selected, hw', Except.toOption, Option.some.injEq] at h
      rw [Case.runSeq]
      simp only [Run.literal, hw', pure_bind]
      -- This is the selected case.
      split
      · rename_i hw
        rw [if_pos hw] at h
        rcases h with ⟨b', hbody, hopens⟩
        exact Block.Becomes.opened hc hcalls hbody hopens hv hfit hbodyFits
      -- Another case is selected.
      · rename_i hw
        rw [if_neg hw] at h
        exact Case.Selected.simulates hc hcalls h hv hfit hrestFits
termination_by structural code => code

end

end Code

/-- Functions whose return variables have the same values return the same values. -/
theorem Both.results {H : RunState → RunState → Prop} {f : FunctionDef} {env env' : Environment}
    {s s' : RunState} (henv : Environment.Holds [f.names] env)
    (henv' : Environment.Holds [f.names] env')
    (hsame : ∀ x ∈ f.names, env'.get? x = env.get? x) :
    Both H (Run.results f env s) (Run.results f env' s') fun values t values' t' =>
      values' = values ∧ t = s ∧ t' = s' := by
  -- Both frames hold the result variables, with the same values.
  rcases Run.results_eq henv with ⟨values, hvalues, hrun⟩
  rcases Run.results_eq henv' with ⟨values', hvalues', hrun'⟩
  have hvalues'' : List.Forall₂ (fun x w => env.get? x.name = some w) f.returns values' := by
    refine hvalues'.imp fun x w hw => ?_
    have hmem := (henv'.isSome_get? x.name).mp (Option.isSome_of_eq_some hw)
    rw [List.flatten_singleton] at hmem
    rw [← hsame x.name hmem, hw]
  have hequal : values' = values :=
    List.right_unique_forall₂' (fun _ _ _ h h' => Option.some.inj (h.symm.trans h'))
      hvalues'' hvalues
  rw [hrun s, hrun' s']
  exact ⟨hequal, rfl, rfl⟩

/-- Calls of a function and of its counterpart agree, however deep they go. -/
theorem FunctionDef.call_agrees {c : RunContext} (hc : c.metered = false) (U : String → Prop)
    (r : Liberty) : ∀ depth, Caller.Agrees c U r (FunctionDef.call c depth) := by
  intro depth
  -- The induction is on the depth of calls. At zero both give up.
  induction depth with
  | zero => exact fun _ _ _ _ _ _ _ _ _ _ _ _ _ _ _ _ _ hlevel => ⟨rfl, hlevel⟩
  | succ depth ih =>
      intro fs fs' name f f' args lead s s' hfit hnodup hfit' hnodup' hmatched hf hf' hargs hlevel
      -- The callee has a counterpart, whose body is a rewriting of its own.
      rcases hmatched name f hf with ⟨f'', hf'', hcounter⟩
      obtain rfl := Option.some.inj (hf'.symm.trans hf'')
      rcases hcounter.twins hfit hnodup hfit' hnodup' hmatched with
        ⟨hidden, hidden', ht, hfits, hfits'⟩
      have hname : f'.name = f.name := congrArg (·.1) hcounter.header
      have hparams : f'.params = f.params := congrArg (·.2.1) hcounter.header
      have hreturns : f'.returns = f.returns := congrArg (·.2.2) hcounter.header
      have hframe : f'.frame args = f.frame args := by
        simp only [FunctionDef.frame, hparams, hreturns]
      have hcalls : Caller.Preserved c U r (FunctionDef.call c depth) :=
        ⟨FunctionDef.call_sound c depth, FunctionDef.call_lexical c depth, ih⟩
      -- What the bodies see of the functions in sight are those around their definitions.
      have hbody := Block.run_lexical hcalls.lexical ht.distinct ht.fit
        (FunctionScopes.site_within hnodup name) hfits
      have hbody' := Block.run_lexical hcalls.lexical ht.distinct' ht.fit'
        (FunctionScopes.site_within hnodup' name) hfits'
      have hholds := f.frame_holds hargs
      -- Both bodies start in a frame of parameters and results alone.
      have hs : Agree r lead ⟨fs.site name, [f.names], hidden⟩ ⟨fs'.site name, [f.names], hidden'⟩
          { s with env := [f.frame args] } { s' with env := [f.frame args] } :=
        ⟨⟨⟨hlevel.machine, hlevel.ahead⟩, fun _ _ => rfl⟩, hholds, hholds⟩
      -- The bodies perform the same by the induction on the depth.
      have hperforms : Block.Performs c U r (FunctionDef.call c depth) _ false .nothing _ _ :=
        hcounter.body.performs hc hcalls ht.distinct ht.fit hfits
      have hperforms := hperforms lead _ _ _ ht hfits' hs Known.valid_nothing
      have hresults : Run.results f' = Run.results f := by
        funext env
        simp only [Run.results, hname, hreturns]
      rw [FunctionDef.call, FunctionDef.call, hframe, hresults, hbody, hbody']
      refine Both.bind (R := fun env t env' t' =>
        (env = s.env ∧ t = { s with env := [f.frame args] }) ∧
        env' = s'.env ∧ t' = { s' with env := [f.frame args] }) ⟨⟨rfl, rfl⟩, rfl, rfl⟩ ?_
      rintro _ _ _ _ ⟨⟨rfl, rfl⟩, rfl, rfl⟩
      refine ((hperforms.left
        (Block.run_sound hcalls.sound ht.distinct ht.fit hfits hs.holds)).right
        (Block.run_sound hcalls.sound ht.distinct' ht.fit' hfits' hs.holds')).bind ?_
      rintro flow t flow' t' ⟨⟨hmeets, hleft⟩, hleft'⟩
      -- Behind the bodies the results have the same values.
      have hvars : ∀ x ∈ f.names, t'.env.get? x = t.env.get? x := fun x hx =>
        hmeets.same.vars x (List.mem_flatten.mpr ⟨f.names, List.mem_singleton_self _, hx⟩)
      refine Both.bind (R := fun env u env' u' => (env = t.env ∧ u = { t with env := s.env }) ∧
        env' = t'.env ∧ u' = { t' with env := s'.env }) ⟨⟨rfl, rfl⟩, rfl, rfl⟩ ?_
      rintro _ _ _ _ ⟨⟨rfl, rfl⟩, rfl, rfl⟩
      -- The frames of the callers come back.
      refine (Both.results hleft.holds hleft'.holds hvars).mono ?_
      rintro values _ values' _ ⟨hvalues, rfl, rfl⟩
      exact ⟨hvalues, hmeets.same.machine, hmeets.same.ahead⟩

/-- A program and what became of it, from the same start. -/
theorem Block.Becomes.run_meets {d : Dialect} {limits : Limits} {U : String → Prop} {r : Liberty}
    {b b' : Block} (h : b.Becomes (.running ⟨d, limits, false⟩ U r) .nothing b')
    (honce : ∀ x, U x → b'.declared.count x ≤ 1) (hfits : b.Fits d .empty false)
    (machine : MachineState) :
    Both (Level r 0) (b.runProgram ⟨d, limits, false⟩ ⟨machine, 0, []⟩)
      (b'.runProgram ⟨d, limits, false⟩ ⟨machine, 0, []⟩) fun _ t _ t' => Level r 0 t t' := by
  have ht : Twins ⟨d, limits, false⟩ U r .empty .empty b'.declared := .empty honce
  have hfits' := h.fits hfits ht.toWidens (Known.fits_nothing _ _)
  have hcalls : Caller.Preserved ⟨d, limits, false⟩ U r
      (FunctionDef.call ⟨d, limits, false⟩ limits.maxSteps) :=
    ⟨FunctionDef.call_sound _ _, FunctionDef.call_lexical _ _, FunctionDef.call_agrees rfl U r _⟩
  have hs : Agree r 0 .empty .empty ⟨machine, 0, []⟩ ⟨machine, 0, []⟩ :=
    ⟨⟨⟨rfl, fun _ => Nat.le_refl _⟩, fun _ _ => rfl⟩, .nil, .nil⟩
  have hperforms : Block.Performs ⟨d, limits, false⟩ U r _ .empty false .nothing _ b' :=
    h.performs rfl hcalls ht.distinct ht.fit hfits
  exact (hperforms 0 _ _ _ ht hfits' hs Known.valid_nothing).mono fun _ _ _ _ hmeets =>
    hmeets.same.toLevel

end YulToolchain
