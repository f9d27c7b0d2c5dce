import YulToolchain.Proofs.Pass.Simulation

/-!
# Loops of the Old and of the New Code

What a loop becomes does what the loop did.

Both sides make the same number of rounds. What holds at the start of each round is
that the states agree and that everything known at the head of the loop is true: it
was true behind the initialisation, and says nothing about variables that a round
assigns to.

A round first asks whether to go on. With the condition moved inside, it is the body that
asks, so asking and the body are taken together: a condition that is zero is like a body
that leaves the loop.

## Main definitions

* `Run.asked`, `Run.closing`: The two halves of a round.
* `Stmt.runLoop`: What a loop does in its scope.
* `Cycles`: The rounds of one loop do what those of another one do.

## Theorems

* `Cycles.of_parts`: The same loop with other parts.
* `Cycles.guarded`: A loop that checks its condition inside.
* `Simulates.loop`, `Simulates.hoisted`: Loops whose rounds do the same, the latter behind
  its initialisation.
* `Simulates.never`: A loop that is never entered.
-/

namespace YulToolchain

open Sight Run

/-- The first half of a round: the body, unless the condition is zero. -/
def Run.asked (test : Run Word) (body : Run Flow) : Run Flow := do
  let value ← test
  if value = 0 then return .brk else body

/-- The second half of a round. -/
def Run.closing (post : Run Flow) : Flow → Run Bool
  | .brk => return false
  | _ => do
    let _ ← post
    return true

/-- A round is a step, the test with the body, and what closes it. -/
theorem Run.round_eq (c : RunContext) (test : Run Word) (body post : Run Flow) :
    round c test body post = step c >>= fun _ => asked test body >>= closing post := by
  simp only [round, asked, bind_assoc]
  congr 1
  funext _
  congr 1
  funext value
  split
  · rfl
  · congr 1

/-- What a loop does in its scope. -/
def Stmt.runLoop (c : RunContext) (call : Caller) (functions : FunctionScopes) (pre : List Stmt)
    (test : Expr) (post body : Block) : Run Flow := do
  let _ ← Stmt.runSeq c call functions pre
  rounds (c.limits.maxSteps + 1) (round c (test.runSingle c call functions)
    (body.run c call functions) (post.run c call functions))
  return .next

/-- A loop is a step and, in a scope of its own, the init part and the rounds. -/
theorem Stmt.run_loop (c : RunContext) (call : Caller) (fs : FunctionScopes) (line preLine : Nat)
    (pre : List Stmt) (test : Expr) (post body : Block) :
    (Stmt.loop line ⟨preLine, pre⟩ test post body).run c call fs = step c >>= fun _ =>
      inScope (Stmt.runLoop c call (pre.filterMap Stmt.function? :: fs) pre test post body) := by
  simp only [Stmt.run, Stmt.runLoop, inScope, bind_assoc, pure_bind]
  rfl

section Rounds

variable {c : RunContext} {U : String → Prop} {r : Liberty} {call : Caller} {lead : Nat}
  {v v' : Sight} {k : Known}

/-- Both sides have come to the end of a block with everything in order. -/
structure Stays (c : RunContext) (r : Liberty) (lead : Nat) (v v' : Sight) (k : Known)
    (flow : Flow) (t : RunState) (flow' : Flow) (t' : RunState) : Prop where
  flows : flow' = flow
  agree : Agree r lead v v' t t'
  valid : k.Valid c v' t'

/-- A block that assigns to nothing that is known about keeps everything in order. -/
theorem Block.Performs.stays (hcall : call.Sound c.dialect) {b b' : Block} {inLoop : Bool}
    (h : Block.Performs c U r call v inLoop k (b.run c call v.functions) b')
    (hsteady : k.Sub (k.forget b'.assigned)) (hfits : b.Fits c.dialect v inLoop)
    {s s' : RunState} (ht : Twins c U r v v' b'.declared) (hfits' : b'.Fits c.dialect v' inLoop)
    (hs : Agree r lead v v' s s') (hk : k.Valid c v' s') :
    Both (Level r lead) (b.run c call v.functions s) (b'.run c call v'.functions s')
      (Stays c r lead v v' k) := by
  refine (((h lead v' s s' ht hfits' hs hk).left
    (Block.run_sound hcall ht.distinct ht.fit hfits hs.holds)).right
    (Block.run_sound hcall ht.distinct' ht.fit' hfits' hs.holds')).mono ?_
  rintro flow t flow' t' ⟨⟨hmeets, hleft⟩, hleft'⟩
  exact ⟨hmeets.flows, ⟨hmeets.same, hleft.holds, hleft'.holds⟩,
    (hk.keeps hs.holds' hleft'.keeps (List.Subset.refl _)).sub hsteady⟩

variable {test test' : Run Word} {body body' post post' : Run Flow}

/-- Loops whose rounds do the same end in the same way. -/
theorem Both.loop (hc : c.metered = false)
    (hasked : ∀ s s', Agree r lead v v' s s' → k.Valid c v' s' →
      Both (Level r lead) (asked test body s) (asked test' body' s') (Stays c r lead v v' k))
    (hpost : ∀ s s', Agree r lead v v' s s' → k.Valid c v' s' →
      Both (Level r lead) (post s) (post' s') (Stays c r lead v v' k))
    (fuel : Nat) {s s' : RunState} (hs : Agree r lead v v' s s') (hk : k.Valid c v' s') :
    Both (Level r lead) (Run.rounds fuel (round c test body post) s)
      (Run.rounds fuel (round c test' body' post') s')
      fun _ t _ t' => Agree r lead v v' t t' := by
  -- One round first: it ends both loops or none.
  have hround : ∀ s s', Agree r lead v v' s s' ∧ k.Valid c v' s' →
      Both (Level r lead) (round c test body post s) (round c test' body' post' s')
        fun again t again' t' =>
        again = again' ∧ if again then Agree r lead v v' t t' ∧ k.Valid c v' t'
          else Agree r lead v v' t t' := by
    rintro s s' ⟨hs, hk⟩
    rw [Run.round_eq, Run.round_eq]
    refine Both.stepped hc hs hk fun t t' hs hk => ?_
    -- Test and body.
    refine (hasked t t' hs hk).bind fun flow u flow' u' hu => ?_
    obtain rfl := hu.flows
    -- Only a break skips the post part.
    cases flow' with
    | brk => exact ⟨rfl, hu.agree⟩
    | next => exact (hpost u u' hu.agree hu.valid).bind fun _ _ _ _ hw => ⟨rfl, hw.agree, hw.valid⟩
    | cont => exact (hpost u u' hu.agree hu.valid).bind fun _ _ _ _ hw => ⟨rfl, hw.agree, hw.valid⟩
  exact Both.rounds hround (fun _ _ h => h.1.toLevel) fuel s s' ⟨hs, hk⟩

end Rounds

/-- The rounds of one loop do what those of another one do, from all places and states
    behind the initialisation that are alike. -/
def Cycles (c : RunContext) (U : String → Prop) (r : Liberty) (call : Caller) (v : Sight)
    (k : Known)
    (test : Expr) (post body : Block) (test' : Expr) (post' body' : Block) : Prop :=
  ∀ (lead : Nat) (v' : Sight) (fuel : Nat) (s s' : RunState),
    Twins c U r v v' (body'.declared ++ post'.declared) →
    test'.Yields c.dialect v' 1 → body'.Fits c.dialect v' true → post'.Fits c.dialect v' false →
    Agree r lead v v' s s' → k.Valid c v' s' →
      Both (Level r lead) (Run.rounds fuel (round c (test.runSingle c call v.functions)
          (body.run c call v.functions) (post.run c call v.functions)) s)
        (Run.rounds fuel (round c (test'.runSingle c call v'.functions)
          (body'.run c call v'.functions) (post'.run c call v'.functions)) s')
        fun _ t _ t' => Agree r lead v v' t t'

section Conditions

variable {c : RunContext} {call : Caller} {fs : FunctionScopes}

/-- Evaluating a negated test. -/
theorem Expr.runSingle_iszero (line : Nat) (e : Expr) :
    (Expr.instr line .iszero [e]).runSingle c call fs
      = e.runSingle c call fs >>= fun w => pure (Word.ofBool (w == 0)) := by
  funext s
  simp only [Expr.runSingle, Expr.run, Expr.runArgs, Bind.bind, EStateM.bind, Pure.pure,
    EStateM.pure]
  cases e.run c call fs s with
  | error halt t => rfl
  | ok values t => rcases values with _ | ⟨w, _ | ⟨_, _⟩⟩ <;> rfl

/-- The test of the loop behind the rewriting is always one. -/
theorem Expr.runSingle_number (line : Nat) (s : RunState) :
    (Expr.number line 1).runSingle c call fs s = .ok 1 s := by
  have hrun : (Expr.number line 1).run c call fs s = .ok [1] s :=
    Expr.run_literal (Literal.value_one line)
  simp only [Expr.runSingle, Bind.bind, EStateM.bind, hrun]
  rfl

/-- A body that starts with leaving the loop evaluates the condition in its scope. -/
theorem Block.run_guarded (hc : c.metered = false) (line : Nat) (test : Expr) (stmts : List Stmt)
    (s : RunState) :
    (⟨line, Pass.guard test :: stmts⟩ : Block).run c call fs s =
      (test.runSingle c call (stmts.filterMap Stmt.function? :: fs) >>= fun w =>
        if w = 0 then modifyEnv List.tail >>= fun _ => step c >>= fun _ => pure .brk
        else Stmt.runSeq c call (stmts.filterMap Stmt.function? :: fs) stmts >>= fun flow =>
          modifyEnv List.tail >>= fun _ => pure flow)
        { s with steps := s.steps + 1, env := .empty :: s.env } := by
  have hfunctions : (⟨line, Pass.guard test :: stmts⟩ : Block).functions
      = stmts.filterMap Stmt.function? := rfl
  have henv : modifyEnv (.empty :: ·) s = .ok () { s with env := .empty :: s.env } := rfl
  rw [Block.run, hfunctions]
  simp only [Stmt.runSeq, Pass.guard, Stmt.run, Expr.runSingle_iszero, inScope, bind_assoc]
  simp only [Bind.bind, EStateM.bind, henv, step_free hc]
  cases test.runSingle c call (stmts.filterMap Stmt.function? :: fs)
    { s with steps := s.steps + 1, env := .empty :: s.env } with
  | error halt t => rfl
  | ok w t =>
      -- The test is zero: the guard leaves the body, and with it the loop.
      by_cases hw : w = 0
      · subst hw
        have hone : ¬(Word.ofBool ((0 : Word) == 0) = 0) := by decide
        have hbrk : (⟨test.line, [.brk test.line]⟩ : Block).run c call
            (stmts.filterMap Stmt.function? :: fs) t
              = .ok .brk { t with steps := t.steps + 1 } := by
          simp only [Block.run, inScope, Stmt.runSeq_singleton, Stmt.run, Bind.bind, EStateM.bind,
            Run.modifyEnv_eq, step_free hc]
          rfl
        simp only [Pure.pure, EStateM.pure, if_neg hone, hbrk, if_pos, EStateM.bind, step_free hc]
        rfl
      -- The test holds: the guard does nothing.
      · have hzero : Word.ofBool (w == 0) = 0 := by
          rw [beq_eq_false_iff_ne.mpr hw]
          rfl
        simp only [Pure.pure, EStateM.pure, hzero, if_pos, if_neg hw]
        rfl

end Conditions

/-- What is known about the parts of a loop and about what became of them. -/
structure LoopParts (c : RunContext) (U : String → Prop) (r : Liberty) (call : Caller) (v : Sight)
    (k : Known)
    (test : Expr) (post body : Block) (test' : Expr) (post' body' : Block) : Prop where
  steady : k.Sub (k.forget (body'.assigned ++ post'.assigned))
  becomes : test.Becomes c k test'
  yields : test.Yields c.dialect v 1
  bodyFits : body.Fits c.dialect v true
  postFits : post.Fits c.dialect v false
  bodyPerforms : Block.Performs c U r call v true k (body.run c call v.functions) body'
  postPerforms : Block.Performs c U r call v false k (post.run c call v.functions) post'

section Parts

variable {c : RunContext} {U : String → Prop} {r : Liberty} {call : Caller} {lead : Nat}
  {v v' : Sight} {k : Known} {test test' : Expr} {post body post' body' : Block} {s s' : RunState}

/-- The bodies of both loops do the same. -/
theorem LoopParts.body_stays (h : LoopParts c U r call v k test post body test' post' body')
    (hcall : call.Sound c.dialect) (ht : Twins c U r v v' (body'.declared ++ post'.declared))
    (hfits : body'.Fits c.dialect v' true) (hs : Agree r lead v v' s s')
    (hk : k.Valid c v' s') :
    Both (Level r lead) (body.run c call v.functions s) (body'.run c call v'.functions s')
      (Stays c r lead v v' k) :=
  h.bodyPerforms.stays hcall
    (h.steady.trans ((Known.Sub.refl k).forget (List.subset_append_left _ _)))
    h.bodyFits ht.left hfits hs hk

/-- The post parts of both loops do the same. -/
theorem LoopParts.post_stays (h : LoopParts c U r call v k test post body test' post' body')
    (hcall : call.Sound c.dialect) (ht : Twins c U r v v' (body'.declared ++ post'.declared))
    (hfits : post'.Fits c.dialect v' false) (hs : Agree r lead v v' s s')
    (hk : k.Valid c v' s') :
    Both (Level r lead) (post.run c call v.functions s) (post'.run c call v'.functions s')
      (Stays c r lead v v' k) :=
  h.postPerforms.stays hcall
    (h.steady.trans ((Known.Sub.refl k).forget (List.subset_append_right _ _)))
    h.postFits ht.right hfits hs hk

/-- The same loop with other parts. -/
theorem Cycles.of_parts (hc : c.metered = false) (hcall : call.Sound c.dialect)
    (hagrees : call.Agrees c U r) (h : LoopParts c U r call v k test post body test' post' body') :
    Cycles c U r call v k test post body test' post' body' := by
  intro lead v' fuel s s' ht _ hbodyFits hpostFits hs hk
  refine Both.loop hc (fun t t' hs hk => ?_)
    (fun t t' hs hk => h.post_stays hcall ht hpostFits hs hk) fuel hs hk
  refine (h.becomes.agree_single hcall hagrees ht h.yields hs hk).bind fun w u w' u' hw => ?_
  obtain ⟨rfl, -⟩ := List.cons.inj hw.values
  have hs' := hs.evaluated hw
  have hk' := hk.steady hs.holds' hw.steady'
  split
  · exact ⟨rfl, hs', hk'⟩
  · exact h.body_stays hcall ht hbodyFits hs' hk'

/-- A condition in the scope of the body has the value that it has at the head. -/
theorem Expr.Becomes.agree_inside (hcall : call.Sound c.dialect)
    (hlexical : call.Lexical c.dialect) (hagrees : call.Agrees c U r) (hr : r = .free)
    {names : List String} (ht : Twins c U r v v' names) {stmts : List Stmt}
    (hfree : v'.Free c.dialect ((stmts.filterMap Stmt.function?).map (·.name)))
    (h : test.Becomes c k test') (hyields : test.Yields c.dialect v 1)
    (hs : Agree r lead v v' s s') (hk : k.Valid c v' s') {steps : Nat} :
    Both (Level r lead) (test.runSingle c call v.functions s)
      (test'.runSingle c call (stmts.filterMap Stmt.function? :: v'.functions)
        { s' with steps, env := .empty :: s'.env })
      fun w t w' t' => w' = w ∧ t'.env = .empty :: s'.env ∧
        Agree r lead v v' t { t' with env := t'.env.tail } ∧
        k.Valid c v' { t' with env := t'.env.tail } := by
  -- The scope of the body is open, but still empty.
  have hs' : Agree r lead v (v'.enter []) s { s' with steps, env := .empty :: s'.env } :=
    ⟨⟨⟨hs.machine, fun h => absurd hr h⟩, hs.vars⟩, hs.holds, hs.holds'.enter []⟩
  have hk' : k.Valid c (v'.enter []) { s' with steps, env := .empty :: s'.env } :=
    (hk.enter hs.holds' []).steady (hs.holds'.enter []) ⟨rfl, rfl⟩
  have ht' := ht.enter_nil
  have hyields' := h.yields (hk'.fits hs'.holds') (hyields.widen ht'.visible ht'.functions)
  have hwithin : (v'.enter []).functions.Within
      (stmts.filterMap Stmt.function? :: v'.functions) := fun name f hf => hfree.within name f hf
  rw [Expr.runSingle_lexical hlexical ht'.distinct' ht'.fit' hwithin hyields']
  refine (h.agree_single hcall hagrees ht' hyields hs' hk').mono fun w t w' t' hw => ?_
  obtain ⟨rfl, -⟩ := List.cons.inj hw.values
  have henv : t'.env = .empty :: s'.env := hw.steady'.env
  have hagree := hs'.evaluated hw
  -- Evaluating has not changed the variables.
  have hsteady : Steady s' { t' with env := t'.env.tail } := by
    refine ⟨?_, hw.steady'.calldata⟩
    show t'.env.tail = s'.env
    rw [henv]
    rfl
  refine ⟨rfl, henv, ⟨⟨⟨hagree.machine, hagree.ahead⟩, fun x hx => ?_⟩, hagree.holds,
    hagree.holds'.tail⟩,
    hk.steady hs.holds' hsteady⟩
  rw [← hagree.vars x hx, henv]
  rfl

/-- A loop that checks its condition inside. It takes more steps. -/
theorem Cycles.guarded (hc : c.metered = false) (hcall : call.Sound c.dialect)
    (hlexical : call.Lexical c.dialect) (hagrees : call.Agrees c U r) (hr : r = .free)
    {line number : Nat} {stmts : List Stmt}
    (h : LoopParts c U r call v k test post body test' post' ⟨line, stmts⟩) :
    Cycles c U r call v k test post body (.number number 1) post'
      ⟨line, Pass.guard test' :: stmts⟩ := by
  intro lead v' fuel s s' ht _ hbodyFits hpostFits hs hk
  have ht' : Twins c U r v v' ((⟨line, stmts⟩ : Block).declared ++ post'.declared) := ht
  -- Without the guard the body fits as well.
  have hfits : (⟨line, stmts⟩ : Block).Fits c.dialect v' true := by
    rw [Block.Fits, Stmt.FitsSeq] at hbodyFits
    rw [Block.Fits]
    exact ⟨hbodyFits.1, hbodyFits.2.2⟩
  have hfree := hfits
  rw [Block.Fits] at hfree
  refine Both.loop hc (fun t t' hs hk => ?_)
    (fun t t' hs hk => h.post_stays hcall ht' hpostFits hs hk) fuel hs hk
  have hinside : asked ((Expr.number number 1).runSingle c call v'.functions)
      ((⟨line, Pass.guard test' :: stmts⟩ : Block).run c call v'.functions) t'
        = (⟨line, Pass.guard test' :: stmts⟩ : Block).run c call v'.functions t' := by
    simp only [asked, Bind.bind, EStateM.bind, Expr.runSingle_number]
    rfl
  rw [hinside, Block.run_guarded hc]
  refine (h.becomes.agree_inside hcall hlexical hagrees hr ht hfree.1 h.yields hs hk).bind ?_
  rintro w u w' u' ⟨rfl, henv, hs', hk'⟩
  -- A test that fails is a break in the other loop.
  by_cases hw : w' = 0
  · rw [if_pos hw, if_pos hw]
    exact Both.step_right hc (hs'.fewer fun h => absurd hr h) hk' fun _ hs' hk' => ⟨rfl, hs', hk'⟩
  · rw [if_neg hw, if_neg hw]
    -- The scope is open already, and there is nothing in it.
    have hopen : ({ u' with env := .empty :: u'.env.tail } : RunState) = u' := by
      rw [henv]
      exact congrArg (RunState.mk _ _) henv.symm
    have hrun : (⟨line, stmts⟩ : Block).run c call v'.functions { u' with env := u'.env.tail }
        = (Stmt.runSeq c call (stmts.filterMap Stmt.function? :: v'.functions) stmts >>=
          fun flow => modifyEnv List.tail >>= fun _ => pure flow)
            { u' with env := .empty :: u'.env.tail } := by
      rw [Block.run]
      rfl
    rw [hopen] at hrun
    rw [← hrun]
    exact h.body_stays hcall ht' hfits hs' hk'

end Parts

section Shapes

variable {c : RunContext} {U : String → Prop} {r : Liberty} {call : Caller} {lead : Nat}
  {v v' : Sight} {inLoop : Bool} {k head : Known} {pre pre' : List Stmt} {test test' : Expr}
  {post body post' body' : Block} {s s' : RunState}

/-- What holds behind an initialisation, which is left only at its end. -/
structure Initialized (c : RunContext) (r : Liberty) (lead : Nat) (v v' : Sight) (k : Known)
    (pre pre' : List Stmt) (s : RunState) (flow : Flow) (t : RunState) (flow' : Flow)
    (t' : RunState) : Prop where
  flow : flow = .next
  flow' : flow' = .next
  agree : Agree r lead (v.afterSeq pre) (v'.afterSeq pre') t t'
  valid : (Stmt.flowSeq c.dialect k pre').Valid c (v'.afterSeq pre') t'
  keeps : Keeps v.visible (Stmt.assignedSeq pre) s t

/-- The init parts do the same, and nothing leaves them. -/
theorem Simulates.initialized (hcall : call.Sound c.dialect)
    (hpre : Simulates c U r call 0 v inLoop k (Stmt.runSeq c call v.functions pre)
      (v.afterSeq pre) pre')
    (hfits : Stmt.FitsSeq c.dialect v false pre)
    (ht : Twins c U r v v' (Stmt.pendingSeq pre')) (ho : v'.Offers pre') (hne : v'.vars ≠ [])
    (hfits' : Stmt.FitsSeq c.dialect v' inLoop pre') (hs : Agree r lead v v' s s')
    (hk : k.Valid c v' s') :
    Both (Level r lead) (Stmt.runSeq c call v.functions pre s)
      (Stmt.runSeq c call v'.functions pre' s') (Initialized c r lead v v' k pre pre' s) := by
  have hsound := fun t => Stmt.runSeq_sound (s := t) hcall ht.distinct ht.fit hfits
  refine ((hpre.follow hcall (fun t henv => (hsound t henv).mono fun _ _ h => ⟨_, h⟩) ht ho hne
    hfits' hs hk).left (hsound s hs.holds)).mono ?_
  rintro flow t flow' t' ⟨⟨hmeets, hleaves, hnext⟩, hreached⟩
  obtain rfl : flow = .next := by
    by_contra hflow
    exact absurd (hleaves hflow) Bool.false_ne_true
  exact ⟨rfl, hmeets.flows, (hnext rfl).1, (hnext rfl).2, hreached.keeps⟩

/-- A loop without an init part is its rounds. -/
theorem Stmt.runLoop_nil (fs : FunctionScopes) :
    Stmt.runLoop c call fs [] test post body = rounds (c.limits.maxSteps + 1)
      (round c (test.runSingle c call fs) (body.run c call fs) (post.run c call fs))
        >>= fun _ => pure .next := by
  simp only [Stmt.runLoop, Stmt.runSeq, pure_bind]

/-- A loop whose initialisation and whose rounds do what those of another one did. -/
theorem Simulates.loop (hc : c.metered = false) (hcall : call.Sound c.dialect)
    {line preLine : Nat} (hbecomes : Stmt.BecomesSeq (.running c U r) k pre pre')
    (hfree : v.Free c.dialect ((pre.filterMap Stmt.function?).map (·.name)))
    (hfits : Stmt.FitsSeq c.dialect (v.enter pre) false pre)
    (hpre : Simulates c U r call 0 (v.enter pre) false k
      (Stmt.runSeq c call (v.enter pre).functions pre) ((v.enter pre).afterSeq pre) pre')
    (hhead : head.Sub (Stmt.flowSeq c.dialect k pre'))
    (hcycles : Cycles c U r call ((v.enter pre).afterSeq pre) head test post body test' post'
      body') :
    Simulates c U r call 0 v inLoop k (Run.step c >>= fun _ => inScope
      (Stmt.runLoop c call (v.enter pre).functions pre test post body)) v
      [.loop line ⟨preLine, pre'⟩ test' post' body'] := by
  intro lead v' s s' ht _ _ hfits' hs hk
  rw [Stmt.fitsSeq_singleton] at hfits'
  rcases Stmt.Fits.loop_parts ht.distinct' ht.fit' hfits' with
    ⟨⟨_, _, hpreFits'⟩, _, _, htest', hbody', hpost'⟩
  rw [Stmt.Fits] at hfits'
  have hnames : Twins c U r v v' ((⟨preLine, pre'⟩ : Block).declared ++
      (body'.declared ++ post'.declared)) := by
    refine ht.fewer fun x => Nat.le_of_eq ?_
    rw [Stmt.pendingSeq_cons, Stmt.pendingSeq_nil, List.append_nil, Stmt.pending_loop]
  -- The init parts open scopes with matching functions.
  have henter := hnames.enter hbecomes.correspond hfree hfits hfits'.1 hfits'.2.1
  have hafter := henter.afterSeq hbecomes hfits hpreFits' (List.cons_ne_nil _ _)
    (List.cons_ne_nil _ _)
  rw [Stmt.runSeq_singleton, Stmt.run_loop]
  refine Both.stepped hc hs hk fun t t' hs hk => Both.inScope ?_
  refine (hpre.initialized hcall hfits henter.left (Offers.enter hfits'.1.1)
    (List.cons_ne_nil _ _) hpreFits' (hs.enter pre pre') (hk.enter hs.holds' pre')).bind
      fun flow u flow' u' hu => ?_
  have hrounds := hcycles lead _ (c.limits.maxSteps + 1) u u' hafter htest' hbody' hpost'
    hu.agree (hu.valid.sub hhead)
  rw [functions_afterSeq, functions_afterSeq] at hrounds
  refine hrounds.bind fun _ w _ w' hw => Meets.here ?_
  -- Outside of the loop its own names are gone.
  exact Same.close (hw.toSame.mono (visible_subset_afterSeq (v.enter pre) pre))
    (hw.holds.closes hafter.distinct) (hw.holds'.closes hafter.distinct') ht.visible

/-- A loop behind its initialisation. The step that the loop takes was taken in front of the
    initialisation before. -/
theorem Simulates.hoisted (hc : c.metered = false) (hcall : call.Sound c.dialect)
    {line preLine : Nat} (hbecomes : Stmt.BecomesSeq (.running c U r) k pre pre')
    (hvars : v.vars ≠ []) (hfits : Stmt.FitsSeq c.dialect v false pre)
    (hpre : Simulates c U r call 0 v inLoop k (Stmt.runSeq c call v.functions pre)
      (v.afterSeq pre) pre')
    (hhead : head.Sub (Stmt.flowSeq c.dialect k pre'))
    (hcycles : Cycles c U r call (v.afterSeq pre) head test post body test' post' body') :
    Simulates c U r call 1 v inLoop k
      (Stmt.runLoop c call v.functions pre test post body) (v.afterSeq pre)
      (pre' ++ [.loop line ⟨preLine, []⟩ test' post' body']) := by
  intro lead v' s s' ht ho hne hfits' hs hk
  rw [Stmt.FitsSeq.append, Stmt.fitsSeq_singleton] at hfits'
  -- Pending names: those of the init part, then those of the rounds.
  have hnames : Twins c U r v v' (Stmt.pendingSeq pre' ++ (body'.declared ++ post'.declared)) := by
    refine ht.fewer fun x => ?_
    simp only [Stmt.pendingSeq_append, Stmt.pendingSeq_cons, Stmt.pendingSeq_nil,
      List.append_nil, List.count_append, Stmt.pending_loop]
    omega
  have hafter := hnames.afterSeq hbecomes hfits hfits'.1 hvars hne
  have hinside := hafter.enter_nil
  have hloopFits := hfits'.2
  rw [Stmt.Fits] at hloopFits
  rcases hloopFits with ⟨_, _, htest', hbody', hpost'⟩
  rw [Stmt.runSeq_append, Stmt.runLoop]
  refine ((hpre.initialized hcall hfits hnames.left (Offers.append.mp ho).1 hne hfits'.1 hs
    hk).mono_halt fun _ _ h => h.fewer fun _ => Nat.le_succ lead).bind fun flow t flow' t' hu => ?_
  obtain rfl := hu.flow'
  rw [Stmt.runSeq_singleton, Stmt.run_loop, Stmt.runLoop_nil]
  -- The loop that is left has one step more and an empty scope.
  refine Both.step_right hc hu.agree (hu.valid.sub hhead) fun u' hs' hk' =>
    Both.inScope_right ?_
  have hs'' : Agree r lead (v.afterSeq pre) ((v'.afterSeq pre').enter []) t
      { u' with env := .empty :: u'.env } :=
    ⟨⟨⟨hs'.machine, hs'.ahead⟩, hs'.vars⟩, hs'.holds, hs'.holds'.enter []⟩
  have hrounds := hcycles lead _ (c.limits.maxSteps + 1) t _ hinside htest' hbody' hpost' hs''
    (hk'.enter hs'.holds' [])
  rw [functions_enter, functions_afterSeq, functions_afterSeq] at hrounds
  refine hrounds.bind fun _ w _ w' hw => ?_
  have hclose : Closes (v'.afterSeq pre') w' :=
    ⟨[], fun _ hx => absurd hx List.not_mem_nil, hw.holds'⟩
  have hsame := Same.close_right hw.toSame hclose hafter.visible
  exact ⟨rfl, hsame.mono (visible_subset_afterSeq v pre), fun _ => hsame⟩

/-- A loop that is never entered does what its initialisation does. The condition is known to
    be zero in front of the loop, and the initialisation does not touch what it reads. -/
theorem Simulates.never (hc : c.metered = false) (hcall : call.Sound c.dialect)
    (hfits : Stmt.FitsSeq c.dialect v false pre)
    (hyields : test.Yields c.dialect (v.afterSeq pre) 1) (htest : test.Constant c k 0)
    (hreads : ∀ x ∈ test.reads, x ∉ Stmt.assignedSeq pre ∧ x ∉ Stmt.declaredSeq pre)
    (hpre : Simulates c U r call 0 v inLoop k (Stmt.runSeq c call v.functions pre)
      (v.afterSeq pre) pre') :
    Simulates c U r call 0 v inLoop k (Stmt.runLoop c call v.functions pre test post body)
      (v.afterSeq pre) pre' := by
  intro lead v' s s' ht ho hne hfits' hs hk
  have hvisible : ∀ x ∈ test.reads, x ∈ v.visible := by
    intro x hx
    have hafter := hyields.reads_visible x hx
    rw [afterSeq_eq] at hafter
    exact (mem_visible_declare hafter).resolve_right (hreads x hx).2
  -- The test reads nothing that the init part changes.
  have hyields' : test.Yields c.dialect v' 1 :=
    hyields.movable_congr htest.1 fun x hx => ht.visible (hvisible x hx)
  rw [Stmt.runLoop, ← bind_pure (Stmt.runSeq c call v'.functions pre')]
  refine (hpre.initialized hcall hfits ht ho hne hfits' hs hk).bind fun flow t flow' t' hu => ?_
  -- So it is zero behind the init part as well.
  have hvalue : test.runSingle c call v.functions { t with steps := t.steps + 1 }
      = .ok 0 { t with steps := t.steps + 1 } := by
    refine htest.runs hyields' hs.holds' hk ?_ (fun x hx => ?_) v.functions
    · exact hu.keeps.calldata.trans (congrArg (·.calldata) hs.machine.symm)
    · exact (hu.keeps.same x (hvisible x hx) (hreads x hx).1).trans
        (hs.vars x (hvisible x hx)).symm
  -- The rounds end at once, with one step.
  have hrounds : rounds (c.limits.maxSteps + 1) (round c (test.runSingle c call v.functions)
      (body.run c call v.functions) (post.run c call v.functions)) t
        = .ok () { t with steps := t.steps + 1 } := by
    simp only [rounds, Run.round, Bind.bind, EStateM.bind, step_free hc, hvalue]
    rfl
  obtain rfl := hu.flow'
  simp only [Bind.bind, EStateM.bind, hrounds]
  have hsame : Same r lead (v.afterSeq pre).visible { t with steps := t.steps + 1 } t' :=
    ⟨⟨hu.agree.machine, fun hr => Nat.le_succ_of_le (hu.agree.ahead hr)⟩, hu.agree.vars⟩
  exact ⟨rfl, hsame.mono (visible_subset_afterSeq v pre), fun _ => hsame⟩

end Shapes

end YulToolchain
