import YulToolchain.Proofs.Pass.Agreement

/-!
# Runs of the Old and of the New Code

What a program becomes does what the program did.

Runs of the two are followed side by side. Both are free of a budget but have the same
bounds on rounds and calls, so they go the same way up to the end, be it a halt: a
statement of the old code and what it became meet again behind it, with the same
machine and the same values of the variables in sight. Unless the new code may take as
many steps as it likes, it also has taken no more of them than the old code.

`Simulates` says this of a computation of the old code and statements of the new
one, from all places and states that are alike. The computation need not be a run of
statements. When the initialisation of a loop is moved in front of it, the computation
is all that happens in the scope of the loop. Nor need both sides take their steps in the
same order: the old code may have taken some in advance, which the statements of the new
code then use up. These are the credit.

Each rule has a lemma that takes what is known about the parts as hypotheses. The
recursion over the code, which puts them together, is in `Pass.Preservation`.

## Main definitions

* `Meets`: Both sides have come to the same point.
* `Simulates`: Statements do what a computation does.
* `Block.Performs`: So does a block.

## Theorems

* `Simulates.step`, `Simulates.known`: What only the old code does.
* `Simulates.follow`: What is known behind both sides.
* `Block.Opens.simulates`: What may stand for a block does what the block did.
-/

namespace YulToolchain

open Sight Run

/-- Both sides have come to the same point behind some code. -/
structure Meets (r : Liberty) (lead : Nat) (v after : Sight) (flow : Flow) (t : RunState)
    (flow' : Flow) (t' : RunState) : Prop where
  flows : flow' = flow
  same : Same r lead v.visible t t'
  next : flow = .next → Same r lead after.visible t t'

theorem Meets.here {r : Liberty} {lead : Nat} {v : Sight} {flow : Flow} {t t' : RunState}
    (h : Same r lead v.visible t t') : Meets r lead v v flow t flow t' := ⟨rfl, h, fun _ => h⟩

section Scopes

variable {α β : Type} {H : RunState → RunState → Prop} {m : Run α} {s : RunState}
  {Q : α → RunState → β → RunState → Prop} {R : β → RunState → α → RunState → Prop}

/-- A scope on the left alone. -/
theorem Both.inScope_left {o : Outcome β}
    (h : Both H (m { s with env := .empty :: s.env }) o
      fun a t b t' => Q a { t with env := t.env.tail } b t') :
    Both H (Run.inScope m s) o Q := by
  simp only [Run.inScope, Run.modifyEnv_eq, Bind.bind, EStateM.bind]
  cases hm : m { s with env := .empty :: s.env } <;> rw [hm] at h <;> cases o <;> exact h

/-- A scope on the right alone. -/
theorem Both.inScope_right {o : Outcome β}
    (h : Both H o (m { s with env := .empty :: s.env })
      fun b t a t' => R b t a { t' with env := t'.env.tail }) :
    Both H o (Run.inScope m s) R := by
  simp only [Run.inScope, Run.modifyEnv_eq, Bind.bind, EStateM.bind]
  cases hm : m { s with env := .empty :: s.env } <;> rw [hm] at h <;> cases o <;> exact h

end Scopes

section Steps

variable {c : RunContext} {α β : Type} {H : RunState → RunState → Prop} {m : Run α}
  {m' : Run β} {r : Liberty} {lead : Nat} {v v' : Sight} {s s' : RunState} {k : Known}
  {Q : α → RunState → β → RunState → Prop}

/-- A step of the old code, which is ahead of the new one by one step more. -/
theorem Both.step_left (hc : c.metered = false) {o : Outcome β} (hs : Agree r lead v v' s s')
    (h : ∀ t, Agree r (lead + 1) v v' t s' → Both H (m t) o Q) :
    Both H ((Run.step c >>= fun _ => m) s) o Q := by
  simp only [Bind.bind, EStateM.bind, step_free hc]
  exact h _ ⟨⟨⟨hs.machine, fun hr => Nat.succ_le_succ (hs.ahead hr)⟩, hs.vars⟩, hs.holds,
    hs.holds'⟩

/-- A step of the new code. -/
theorem Both.step_right (hc : c.metered = false) {o : Outcome α}
    (hs : Agree r (lead + 1) v v' s s') (hk : k.Valid c v' s')
    (h : ∀ t', Agree r lead v v' s t' → k.Valid c v' t' → Both H o (m' t') Q) :
    Both H o ((Run.step c >>= fun _ => m') s') Q := by
  simp only [Bind.bind, EStateM.bind, step_free hc]
  refine h _ ⟨⟨⟨hs.machine, fun hr => ?_⟩, hs.vars⟩, hs.holds, hs.holds'⟩
    (hk.steady hs.holds' ⟨rfl, rfl⟩)
  have hahead := hs.ahead hr
  show s'.steps + 1 + lead ≤ s.steps
  omega

/-- Both sides take a step. -/
theorem Both.stepped (hc : c.metered = false) (hs : Agree r lead v v' s s')
    (hk : k.Valid c v' s')
    (h : ∀ t t', Agree r lead v v' t t' → k.Valid c v' t' → Both H (m t) (m' t') Q) :
    Both H ((Run.step c >>= fun _ => m) s) ((Run.step c >>= fun _ => m') s') Q :=
  Both.step_left hc hs fun t ht => Both.step_right hc ht hk fun t' ht' hk' => h t t' ht' hk'

end Steps

section Sequences

variable {c : RunContext} {call : Caller} {fs : FunctionScopes}

/-- Statements in a row run one behind the other. -/
theorem Stmt.runSeq_append (stmts rest : List Stmt) :
    Stmt.runSeq c call fs (stmts ++ rest) = Stmt.runSeq c call fs stmts >>= fun flow =>
      match flow with
      | .next => Stmt.runSeq c call fs rest
      | flow => pure flow := by
  induction stmts with
  | nil => simp only [List.nil_append, Stmt.runSeq, pure_bind]
  | cons s stmts ih =>
      simp only [List.cons_append, Stmt.runSeq, bind_assoc, ih]
      congr 1
      funext flow
      cases flow <;> simp only [pure_bind]

/-- A single statement runs as in a list. -/
theorem Stmt.runSeq_singleton (s : Stmt) :
    Stmt.runSeq c call fs [s] = s.run c call fs := by
  have hpure : (fun flow : Flow => (match flow with
      | .next => pure .next
      | flow => pure flow : Run Flow)) = pure := by
    funext flow
    cases flow <;> rfl
  simp only [Stmt.runSeq]
  exact (congrArg (s.run c call fs >>= ·) hpure).trans (bind_pure _)

end Sequences

section Points

variable {r : Liberty} {lead lead' : Nat} {v v' v₁ after : Sight} {flow flow' : Flow}
  {t t' : RunState}

theorem Meets.mono (h : Meets r lead v₁ after flow t flow' t') (hvisible : v.visible ⊆ v₁.visible) :
    Meets r lead v after flow t flow' t' := ⟨h.flows, h.same.mono hvisible, h.next⟩

/-- Closing the scopes of both sides leaves what was visible the same. -/
theorem Same.close (h : Same r lead v.visible t t')
    (hclose : Closes v t) (hclose' : Closes v' t') (hvisible : v.visible ⊆ v'.visible) :
    Same r lead v.visible { t with env := t.env.tail } { t' with env := t'.env.tail } := by
  refine ⟨⟨h.machine, h.ahead⟩, fun x hx => ?_⟩
  show Environment.get? x t'.env.tail = Environment.get? x t.env.tail
  rw [hclose.get?_tail hx, hclose'.get?_tail (hvisible hx)]
  exact h.vars x hx

/-- Closing a scope on the right leaves the visible names the same. -/
theorem Same.close_right (h : Same r lead v.visible t t') (hclose : Closes v' t')
    (hvisible : v.visible ⊆ v'.visible) :
    Same r lead v.visible t { t' with env := t'.env.tail } := by
  refine ⟨⟨h.machine, h.ahead⟩, fun x hx => ?_⟩
  show Environment.get? x t'.env.tail = Environment.get? x t.env
  rw [hclose.get?_tail (hvisible hx)]
  exact h.vars x hx

/-- Closing a scope on the left leaves the visible names the same. -/
theorem Same.close_left (h : Same r lead v.visible t t') (hclose : Closes v t) :
    Same r lead v.visible { t with env := t.env.tail } t' := by
  refine ⟨⟨h.machine, h.ahead⟩, fun x hx => ?_⟩
  show Environment.get? x t'.env = Environment.get? x t.env.tail
  rw [hclose.get?_tail hx]
  exact h.vars x hx

end Points

/-- Statements of the new code do what a computation of the old code does, from all
    places and states that are alike, if the old code has taken some steps in advance. -/
def Simulates (c : RunContext) (U : String → Prop) (r : Liberty) (call : Caller) (credit : Nat)
    (v : Sight) (inLoop : Bool) (k : Known) (m : Run Flow) (after : Sight) (out : List Stmt) :
    Prop :=
  ∀ (lead : Nat) (v' : Sight) (s s' : RunState), Twins c U r v v' (Stmt.pendingSeq out) →
    v'.Offers out → v'.vars ≠ [] → Stmt.FitsSeq c.dialect v' inLoop out →
    Agree r (lead + credit) v v' s s' → k.Valid c v' s' →
      Both (Level r lead) (m s) (Stmt.runSeq c call v'.functions out s') (Meets r lead v after)

/-- A block of the new code does what a computation of the old code does. -/
def Block.Performs (c : RunContext) (U : String → Prop) (r : Liberty) (call : Caller) (v : Sight)
    (inLoop : Bool) (k : Known) (m : Run Flow) (b : Block) : Prop :=
  ∀ (lead : Nat) (v' : Sight) (s s' : RunState), Twins c U r v v' b.declared →
    b.Fits c.dialect v' inLoop → Agree r lead v v' s s' → k.Valid c v' s' →
      Both (Level r lead) (m s) (b.run c call v'.functions s') (Meets r lead v v)

section Rules

variable {c : RunContext} {U : String → Prop} {r : Liberty} {call : Caller}
  {credit credit' : Nat} {v after : Sight} {inLoop inLoop₀ : Bool} {k : Known} {m : Run Flow}
  {stmts out : List Stmt}

/-- A step of the old code is one in advance of the new one. -/
theorem Simulates.step (hc : c.metered = false)
    (h : Simulates c U r call (credit + 1) v inLoop k m after out) :
    Simulates c U r call credit v inLoop k (Run.step c >>= fun _ => m) after out := by
  intro lead v' s s' ht ho hne hfits hs hk
  exact Both.step_left hc hs fun t hs' => h lead v' t s' ht ho hne hfits hs' hk

theorem Simulates.sub {k' : Known} (h : Simulates c U r call credit v inLoop k m after out)
    (hsub : k.Sub k') : Simulates c U r call credit v inLoop k' m after out :=
  fun lead v' s s' ht ho hne hfits hs hk => h lead v' s s' ht ho hne hfits hs (hk.sub hsub)

/-- More steps in advance do no harm, and none are needed if there may be any number. -/
theorem Simulates.more (h : Simulates c U r call credit v inLoop k m after out)
    (hle : r ≠ .free → credit ≤ credit') :
    Simulates c U r call credit' v inLoop k m after out :=
  fun lead v' s s' ht ho hne hfits hs hk => h lead v' s s' ht ho hne hfits
    (hs.fewer fun hr => Nat.add_le_add_left (hle hr) lead) hk

/-- Where nothing is done, nothing is needed. -/
theorem Simulates.nothing : Simulates c U r call credit v inLoop k (pure .next) v [] := by
  intro lead v' s s' _ _ _ _ hs _
  rw [Stmt.runSeq]
  exact Meets.here (hs.toSame.fewer fun _ => Nat.le_add_right _ _)

/-- Statements that take a step and then do the same. -/
theorem Simulates.stepped (hc : c.metered = false) {s₁' : Stmt} {m' : FunctionScopes → Run Flow}
    (hrun : ∀ fs, s₁'.run c call fs = Run.step c >>= fun _ => m' fs)
    (h : ∀ (lead : Nat) (v' : Sight) (s s' : RunState), Twins c U r v v' s₁'.pending →
      v'.vars ≠ [] → s₁'.Fits c.dialect v' inLoop → Agree r lead v v' s s' → k.Valid c v' s' →
        Both (Level r lead) (m s) (m' v'.functions s') (Meets r lead v after)) :
    Simulates c U r call 0 v inLoop k (Run.step c >>= fun _ => m) after [s₁'] := by
  intro lead v' s s' ht _ hne hfits hs hk
  rw [Stmt.pendingSeq_cons, Stmt.pendingSeq_nil, List.append_nil] at ht
  rw [Stmt.fitsSeq_singleton] at hfits
  rw [Stmt.runSeq_singleton, hrun]
  exact Both.stepped hc hs hk fun t t' hs hk => h lead v' t t' ht hne hfits hs hk

/-- What is known behind code that is simulated: the variables are in order on both
    sides, and so are the values known in the new code. -/
theorem Simulates.follow (hcall : call.Sound c.dialect)
    (h : Simulates c U r call credit v inLoop k m after out)
    (hsound : ∀ s, Environment.Holds v.vars s.env →
      Ends (m s) fun flow t => ∃ names, Reached v after inLoop₀ names s flow t)
    {lead : Nat} {v' : Sight} {s s' : RunState} (ht : Twins c U r v v' (Stmt.pendingSeq out))
    (ho : v'.Offers out) (hne : v'.vars ≠ []) (hfits : Stmt.FitsSeq c.dialect v' inLoop out)
    (hs : Agree r (lead + credit) v v' s s') (hk : k.Valid c v' s') :
    Both (Level r lead) (m s) (Stmt.runSeq c call v'.functions out s') fun flow t flow' t' =>
      Meets r lead v after flow t flow' t' ∧ (flow ≠ .next → inLoop₀ = true) ∧
        (flow = .next → Agree r lead after (v'.afterSeq out) t t' ∧
          (Stmt.flowSeq c.dialect k out).Valid c (v'.afterSeq out) t') := by
  refine (((h lead v' s s' ht ho hne hfits hs hk).left (hsound s hs.holds)).right
    ((Stmt.runSeq_sound hcall ht.distinct' ht.fit' hfits hs.holds').and
      (Stmt.runSeq_flow hcall hne ht.distinct' ht.fit' hfits hs.holds' hk))).mono ?_
  -- Both runs are sound by themselves, and meet by the simulation.
  rintro flow t flow' t' ⟨⟨hmeets, names, hreached⟩, hreached', hknown⟩
  refine ⟨hmeets, hreached.leaves, ?_⟩
  rintro rfl
  have hflow := hmeets.flows
  subst hflow
  exact ⟨⟨hmeets.next rfl, hreached.holds, hreached'.holds⟩, hknown rfl⟩

/-- One statement after another. -/
theorem Simulates.cons (hcall : call.Sound c.dialect) {s₁ : Stmt} {rest first more : List Stmt}
    {k₁ : Known} (hs : s₁.Becomes (.running c U r) k first) (hv : v.Distinct)
    (hfit : v.functions.Fit c.dialect) (hvars : v.vars ≠ [])
    (hfits : s₁.Fits c.dialect v inLoop₀)
    (hfirst : Simulates c U r call 0 v inLoop k (s₁.run c call v.functions) (v.after s₁) first)
    (hk₁ : k₁.Sub (Stmt.flowSeq c.dialect k first))
    (hmore : Simulates c U r call 0 (v.after s₁) inLoop k₁
      (Stmt.runSeq c call (v.after s₁).functions rest) ((v.after s₁).afterSeq rest) more) :
    Simulates c U r call 0 v inLoop k (Stmt.runSeq c call v.functions (s₁ :: rest))
      (v.afterSeq (s₁ :: rest)) (first ++ more) := by
  intro lead v' s s' ht ho hne hfits' hs' hk
  rw [Stmt.FitsSeq.append] at hfits'
  rw [Stmt.pendingSeq_append] at ht
  rw [Stmt.runSeq_append, Stmt.runSeq]
  refine (hfirst.follow hcall (fun t henv =>
    (Stmt.run_sound hcall hv hfit hfits henv).mono fun _ _ h => ⟨_, h⟩) ht.left
    (Offers.append.mp ho).1 hne hfits'.1 hs' hk).bind ?_
  rintro flow t flow' t' ⟨hmeets, _, hnext⟩
  obtain rfl := hmeets.flows
  cases flow' with
  -- Control goes on: the others start in agreement.
  | next =>
      rcases hnext rfl with ⟨hagree, hknown⟩
      have hrest := hmore lead (v'.afterSeq first) t t' (ht.after hs hfits hfits'.1 hvars hne)
        (Offers.append.mp ho).2.after (vars_afterSeq_ne hne first) hfits'.2 hagree
        (hknown.sub hk₁)
      rw [functions_after, functions_afterSeq] at hrest
      exact hrest.mono fun _ _ _ _ hm => hm.mono (visible_subset_after v s₁)
  -- Control leaves, and what is visible here is the same.
  | brk => exact ⟨rfl, hmeets.same, fun h => absurd h (by rintro ⟨⟩)⟩
  | cont => exact ⟨rfl, hmeets.same, fun h => absurd h (by rintro ⟨⟩)⟩

/-- A block does what its statements do. -/
theorem Block.performs_of_seq (hcall : call.Sound c.dialect) {line : Nat}
    (hcorr : Stmt.Correspond c U r stmts out)
    (hfree : v.Free c.dialect ((stmts.filterMap Stmt.function?).map (·.name)))
    (hfits : Stmt.FitsSeq c.dialect (v.enter stmts) inLoop₀ stmts)
    (hsound : ∀ s, Environment.Holds (v.enter stmts).vars s.env →
      Ends (m s) fun _ t => Closes v t)
    (h : Simulates c U r call 0 (v.enter stmts) inLoop k m after out) :
    Block.Performs c U r call v inLoop k (inScope m) ⟨line, out⟩ := by
  intro lead v' s s' ht hfits' hs hk
  rw [Block.Fits] at hfits'
  rw [Block.run]
  refine Both.inScope ?_
  -- Only what the block declares is pending.
  have ht₁ : Twins c U r v v' ((⟨line, out⟩ : Block).declared ++ []) := by
    rw [List.append_nil]
    exact ht
  have ht' := ht₁.enter hcorr hfree hfits hfits'.1 hfits'.2
  -- The block opens scopes with matching functions.
  rw [List.append_nil] at ht'
  have hs' := hs.enter stmts out
  have hboth := h lead (v'.enter out) _ _ ht' (Offers.enter hfits'.1.1) (List.cons_ne_nil _ _)
    hfits'.2 hs' (hk.enter hs.holds' out)
  refine ((hboth.left (hsound _ hs'.holds)).right
    (Stmt.runSeq_sound hcall ht'.distinct' ht'.fit' hfits'.2 hs'.holds')).mono ?_
  -- The scopes close, and the names around the block are the same.
  rintro flow t flow' t' ⟨⟨hmeets, hclose⟩, hreached⟩
  obtain rfl := hmeets.flows
  exact Meets.here (Same.close (v := v) hmeets.same hclose hreached.closes ht.visible)

/-- A scope of the old code whose statements are spliced in the new one. -/
theorem Simulates.spliced (hcorr : Stmt.Correspond c U r stmts out)
    (hfree : v.Free c.dialect ((stmts.filterMap Stmt.function?).map (·.name)))
    (hfits : Stmt.FitsSeq c.dialect (v.enter stmts) inLoop₀ stmts)
    (hsound : ∀ s, Environment.Holds (v.enter stmts).vars s.env →
      Ends (m s) fun _ t => Closes v t)
    (h : Simulates c U r call credit (v.enter stmts) inLoop k m after out) :
    Simulates c U r call credit v inLoop k (inScope m) v out := by
  intro lead v' s s' ht ho hne hfits' hs hk
  refine Both.inScope_left ?_
  have ht' := ht.splice hcorr hfree hfits hfits' ho hne
  have hs' : Agree r (lead + credit) (v.enter stmts) v' { s with env := .empty :: s.env } s' :=
    ⟨⟨⟨hs.machine, hs.ahead⟩, hs.vars⟩, hs.holds.enter stmts, hs.holds'⟩
  refine ((h lead v' _ s' ht' ho hne hfits' hs' hk).left (hsound _ hs'.holds)).mono ?_
  rintro flow t flow' t' ⟨hmeets, hclose⟩
  obtain rfl := hmeets.flows
  exact Meets.here (Same.close_left (v := v) hmeets.same hclose)

/-- A block in the place of what a block did. It takes a step. -/
theorem Block.Performs.boxed (hc : c.metered = false) {b : Block}
    (h : Block.Performs c U r call v inLoop k m b) :
    Simulates c U r call 1 v inLoop k m v [.block b] := by
  intro lead v' s s' ht _ _ hfits hs hk
  rw [Stmt.fitsSeq_singleton, Stmt.Fits] at hfits
  have hpending : Stmt.pendingSeq [.block b] = b.declared := by
    simp only [Stmt.pendingSeq_cons, Stmt.pendingSeq_nil, Stmt.pending, Stmt.declaresHere,
      Stmt.allInner, List.append_nil, List.nil_append, Block.declared]
  rw [hpending] at ht
  rw [Stmt.runSeq_singleton, Stmt.run]
  exact Both.step_right hc hs hk fun t' hs' hk' => h lead v' s t' ht hfits hs' hk'

/-- What may stand for a block does what the statements of the block do. -/
theorem Block.Opens.simulates (hc : c.metered = false) (hcall : call.Sound c.dialect)
    {line : Nat} {result : List Stmt} (hopens : (⟨line, out⟩ : Block).Opens U result)
    (hcorr : Stmt.Correspond c U r stmts out)
    (hfree : v.Free c.dialect ((stmts.filterMap Stmt.function?).map (·.name)))
    (hfits : Stmt.FitsSeq c.dialect (v.enter stmts) inLoop₀ stmts)
    (hsound : ∀ s, Environment.Holds (v.enter stmts).vars s.env →
      Ends (m s) fun _ t => Closes v t)
    (h : Simulates c U r call 0 (v.enter stmts) inLoop k m after out) :
    Simulates c U r call 1 v inLoop k (inScope m) v result := by
  rcases hopens with rfl | ⟨_, rfl⟩
  · exact (Block.performs_of_seq hcall hcorr hfree hfits hsound h).boxed hc
  · exact (Simulates.spliced hcorr hfree hfits hsound h).more fun _ => Nat.zero_le 1

/-- A number that is known in the new code is the value in the old code. -/
theorem Expr.Constant.runs {e : Expr} {w : Word} {v' : Sight} {s s' : RunState}
    (h : e.Constant c k w) (hyields : e.Yields c.dialect v' 1)
    (henv : Environment.Holds v'.vars s'.env) (hk : k.Valid c v' s')
    (hdata : s.machine.calldata = s'.machine.calldata)
    (hreads : ∀ x ∈ e.reads, s.env.get? x = s'.env.get? x) (fs : FunctionScopes) :
    e.runSingle c call fs s = .ok w s := by
  have hrun := Expr.run_movable h.1 hyields henv (h.2 hyields henv hk call fs) hdata hreads call fs
  simp only [Expr.runSingle, Bind.bind, EStateM.bind, hrun]
  rfl

/-- An expression with a known value needs no run on the other side. -/
theorem Simulates.known {e : Expr} {w : Word} {f : Word → Run Flow} (he : e.Constant c k w)
    (hyields : e.Yields c.dialect v 1)
    (h : Simulates c U r call credit v inLoop k (f w) after out) :
    Simulates c U r call credit v inLoop k (e.runSingle c call v.functions >>= f) after out := by
  intro lead v' s s' ht ho hne hfits hs hk
  have hrun : e.runSingle c call v.functions s = .ok w s := by
    refine he.runs (hyields.widen ht.visible ht.functions) hs.holds' hk
      (congrArg (·.calldata) hs.machine.symm) (fun x hx => ?_) v.functions
    exact (hs.vars x (hyields.reads_visible x hx)).symm
  simp only [Bind.bind, EStateM.bind, hrun]
  exact h lead v' s s' ht ho hne hfits hs hk

end Rules

section Variables

variable {r : Liberty} {lead : Nat} {H : RunState → RunState → Prop} {v v' : Sight}
  {s s' : RunState} {pairs : List (String × Word)}

/-- The same assignments on both sides. -/
theorem Both.assignAll (hs : Agree r lead v v' s s') (hvisible : v.visible ⊆ v'.visible)
    (hpairs : ∀ p ∈ pairs, p.1 ∈ v.visible) :
    Both H (Run.assignAll pairs s) (Run.assignAll pairs s') fun _ t _ t' =>
      Same r lead v.visible t t' := by
  rcases Run.assignAll_eq hpairs hs.holds with ⟨env, hrun, _, hget⟩
  rcases Run.assignAll_eq (fun p hp => hvisible (hpairs p hp)) hs.holds' with
    ⟨env', hrun', _, hget'⟩
  rw [hrun, hrun']
  refine ⟨⟨hs.machine, hs.ahead⟩, fun x hx => ?_⟩
  show env'.get? x = env.get? x
  rw [hget, hget', hs.vars x hx]

/-- The same declarations on both sides. -/
theorem Same.declareAll (h : Same r lead v.visible s s') (hne : s.env ≠ [])
    (hne' : s'.env ≠ []) :
    Same r lead (v.declare (pairs.map (·.1))).visible { s with env := s.env.declareAll pairs }
      { s' with env := s'.env.declareAll pairs } := by
  refine ⟨⟨h.machine, h.ahead⟩, fun x hx => ?_⟩
  show (s'.env.declareAll pairs).get? x = (s.env.declareAll pairs).get? x
  rw [Environment.get?_declareAll pairs hne, Environment.get?_declareAll pairs hne']
  by_cases hold : x ∈ v.visible
  · rw [h.vars x hold]
  · -- The name is new, so it is among the declared ones.
    have hmem := (mem_visible_declare hx).resolve_left hold
    cases hlookup : pairs.reverse.lookup x with
    | some w => rfl
    | none =>
        rcases List.mem_map.mp hmem with ⟨p, hp, rfl⟩
        have hnone := List.lookup_eq_none_iff.mp hlookup p (List.mem_reverse.mpr hp)
        exact absurd rfl (bne_iff_ne.mp hnone)

/-- Declarations of variables with the same values. -/
theorem Both.declared {vars : List TypedName} {values : List Word} (line : Nat)
    (hs : Agree r lead v v' s s') (hne : v.vars ≠ []) (hne' : v'.vars ≠ [])
    (hlength : values.length = vars.length) :
    Both H ((if values.length = vars.length then do
        Run.modifyEnv (Environment.declareAll ((vars.map (·.name)).zip values))
        return .next
      else fault (.declarationCount line) : Run Flow) s)
      ((if values.length = vars.length then do
        Run.modifyEnv (Environment.declareAll ((vars.map (·.name)).zip values))
        return .next
      else fault (.declarationCount line) : Run Flow) s')
      (Meets r lead v (v.declare (vars.map (·.name)))) := by
  rw [if_pos hlength]
  -- There are as many values as names.
  have hnames : ((vars.map (·.name)).zip values).map (·.1) = vars.map (·.name) :=
    List.map_fst_zip (by rw [List.length_map]; exact Nat.le_of_eq hlength.symm)
  have hsame : Same r lead (v.declare (((vars.map (·.name)).zip values).map (·.1))).visible _ _ :=
    hs.toSame.declareAll (hs.holds.ne_nil hne) (hs.holds'.ne_nil hne')
  rw [hnames] at hsame
  exact ⟨rfl, hsame.mono (visible_subset_declare v _), fun _ => hsame⟩

end Variables

/-- The declarations that a declaration without a value is split into. -/
theorem Stmt.runSeq_split {c : RunContext} (hc : c.metered = false) {call : Caller}
    {fs : FunctionScopes} (line : Nat) : ∀ (vars : List TypedName) (s : RunState),
    Stmt.runSeq c call fs (Pass.initializeStmt (.decl line vars none)) s
      = .ok .next { s with
          steps := s.steps + vars.length
          env := s.env.declareAll ((vars.map (·.name)).zip (List.replicate vars.length 0)) }
  | [], s => rfl
  | var :: rest, s => by
      have hrest := @Stmt.runSeq_split c hc call fs line rest
        { s with steps := s.steps + 1, env := s.env.declare var.name 0 }
      -- The first declaration, and then those of the others.
      have hzero : (Expr.literal (Literal.zero line var.type)).run c call fs
          { s with steps := s.steps + 1 } = .ok [0] { s with steps := s.steps + 1 } :=
        Expr.run_literal (Literal.value_zero line var.type)
      have hfirst : (Stmt.decl line [var] (some (.literal (Literal.zero line var.type)))).run c
          call fs s
            = .ok .next { s with steps := s.steps + 1, env := s.env.declare var.name 0 } := by
        simp only [Stmt.run, Bind.bind, EStateM.bind, step_free hc, hzero]
        rfl
      rw [Pass.initializeStmt] at hrest ⊢
      rw [List.map_cons, Stmt.runSeq]
      simp only [Bind.bind, EStateM.bind, hfirst, hrest]
      rw [List.length_cons, Nat.add_right_comm, Nat.add_assoc]
      rfl

end YulToolchain
