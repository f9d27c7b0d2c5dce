import YulToolchain.Proofs.Execution.Safety
import YulToolchain.Proofs.Flow.Visits

/-!
# Known Values Hold Wherever They Are Shown

Whatever the walk along the flow shows a pass as known holds in every run, each
time the run comes by.

The calls of a walk form one list, and each piece of code has its stretch of it
(`Listed`). Following a run through the code, the stretch of the code at hand says
what the walk knew there, and the run keeps that valid: the pieces in front of the
place were run to their end, so what is known behind them holds, and what is known
in a loop or in a function holds for every round and every call.

## Main definitions

* `Listed`: A stretch of a list.
* `PlacedScopes.Listed`: The stretches of the functions in sight.
* `Visit.Sound`: What is known at a place holds in a state.
* `Block.VisitsSound`, `Stmt.VisitsSound`: What is known holds at all places of some code.

## Theorems

* `Stmt.VisitsSound.cond`, `Stmt.VisitsSound.loop` and so on: One for each kind of statement, from
  what is known of its parts.
* `Expr.visits_sound`, `Block.visits_sound`, `FunctionDef.visits_sound`: What is known
  holds wherever a run comes by.
* `known_values_hold`: The same of programs that are read and accepted.
-/

namespace YulToolchain

/-- A list has a stretch of calls from a number on. -/
def Listed (all : List HookCall) (i : Nat) (calls : List HookCall) : Prop := calls <+: all.drop i

namespace Listed

variable {all calls rest : List HookCall} {call : HookCall} {i : Nat}

theorem left (h : Listed all i (calls ++ rest)) : Listed all i calls :=
  (List.prefix_append calls rest).trans h

/-- The last calls of a listed stretch are listed, further on. -/
theorem right (h : Listed all i (calls ++ rest)) : Listed all (i + calls.length) rest := by
  have hdrop : all.drop (i + calls.length) = (all.drop i).drop calls.length := by
    rw [List.drop_drop]
  rcases h with ⟨tail, htail⟩
  rw [Listed, hdrop, ← htail, List.append_assoc, List.drop_left]
  exact List.prefix_append rest tail

/-- The first call of a listed stretch stands at its place. -/
theorem head (h : Listed all i (call :: rest)) : all[i]? = some call := by
  rcases h with ⟨tail, htail⟩
  have hget := congrArg (·[0]?) htail
  simpa only [List.cons_append, List.getElem?_cons_zero, List.getElem?_drop, Nat.add_zero]
    using hget.symm

theorem tail (h : Listed all i (call :: rest)) : Listed all (i + 1) rest := by
  have hcons : Listed all i ([call] ++ rest) := h
  exact hcons.right

end Listed

/-- What is known at a place holds in the state in which a run comes by. -/
def Visit.Sound (c : RunContext) (all : List HookCall) (visit : Visit) : Prop :=
  ∃ known : Known, all[visit.index]? = some ⟨visit.hook, known⟩ ∧
    ∀ x e, (x, e) ∈ known.entries → ∃ w, visit.state.env.get? x = some w ∧
      ∀ (call : Caller) (fs : FunctionScopes),
        e.run c call fs visit.state = .ok [w] visit.state

/-- A visit is sound if its call is listed with what is valid there. -/
theorem Visit.sound {c : RunContext} {all : List HookCall} {v : Sight} {i : Nat} {hook : Hook}
    {k : Known} {s : RunState} (h : all[i]? = some ⟨hook, k⟩) (hk : k.Valid c v s) :
    Visit.Sound c all ⟨i, hook, s⟩ :=
  ⟨k, h, fun x e hx => (hk x e hx).equal⟩

/-- The bodies of the functions in sight have their stretches of the calls. -/
def PlacedScopes.Listed (d : Dialect) (all : List HookCall) (fs : FunctionScopes)
    (ps : PlacedScopes) : Prop :=
  ∀ name f, fs.find? name = some f →
    ∃ i, ps.find? name = some (f, i) ∧ YulToolchain.Listed all i (f.body.hooks d .nothing)

namespace PlacedScopes

variable {d : Dialect} {all : List HookCall} {fs fs' : FunctionScopes} {ps : PlacedScopes}

/-- Looking up a function in placed scopes is looking it up in the scopes. -/
theorem find?_functions (name : String) : ∀ ps : PlacedScopes,
    ps.functions.find? name = (ps.find? name).map (·.1)
  | [] => rfl
  | here :: outer => by
      have hhere : findFunction? name (here.map (·.1))
          = (here.reverse.find? (·.1.name == name)).map (·.1) := by
        rw [findFunction?, ← List.map_reverse, List.find?_map]
        rfl
      have hcons : functions (here :: outer) = here.map (·.1) :: functions outer := rfl
      rw [hcons, FunctionScopes.find?, hhere, find?_functions name outer, find?]
      cases here.reverse.find? (·.1.name == name) <;> rfl

/-- Listed scopes lie within the scopes of their functions. -/
theorem Listed.within (h : ps.Listed d all fs) : fs.Within ps.functions := by
  intro name f hf
  rcases h name f hf with ⟨i, hi, _⟩
  rw [find?_functions, hi]
  rfl

theorem Listed.mono (h : ps.Listed d all fs) (hin : fs'.Within fs) : ps.Listed d all fs' :=
  fun name f hf => h name f (hin name f hf)

end PlacedScopes

/-- The placed functions of statements are their functions. -/
theorem Stmt.map_placedSeq (d : Dialect) : ∀ (stmts : List Stmt) (i : Nat),
    (Stmt.placedSeq d i stmts).map (·.1) = stmts.filterMap Stmt.function?
  | [], _ => rfl
  | s :: rest, i => by
      have ih := Stmt.map_placedSeq d rest
      rw [Stmt.placedSeq, List.filterMap_cons]
      cases s.function? with
      | none => exact ih _
      | some f => rw [List.map_cons, ih]

/-- The calls inside a function definition are those of its body with nothing known. -/
theorem Stmt.placedSeq_listed {d : Dialect} {all : List HookCall} :
    ∀ {stmts : List Stmt} {i : Nat} {k : Known}, Listed all i (Stmt.hooksSeq d k stmts) →
      ∀ p ∈ Stmt.placedSeq d i stmts, Listed all p.2 (p.1.body.hooks d .nothing)
  | [], _, _, _, p, hp => absurd hp List.not_mem_nil
  | s :: rest, i, k, h, p, hp => by
      rw [Stmt.hooksSeq] at h
      have hrest := h.tail.right
      rw [Stmt.length_hooks] at hrest
      have ih := Stmt.placedSeq_listed hrest
      rw [Stmt.placedSeq] at hp
      cases s with
      | func line name params returns body =>
          rcases List.mem_cons.mp hp with rfl | hp
          -- The calls of the body follow the one for the definition.
          · have hbody := h.tail.left
            rw [Stmt.hooks] at hbody
            exact hbody
          · exact ih p hp
      | _ => exact ih p hp

/-- Entering a block whose calls are listed. -/
theorem PlacedScopes.Listed.enter {d : Dialect} {all : List HookCall} {v : Sight}
    {ps : PlacedScopes} {stmts : List Stmt} {i : Nat} {k : Known}
    (hps : ps.Listed d all v.functions) (h : YulToolchain.Listed all i (Stmt.hooksSeq d k stmts)) :
    PlacedScopes.Listed d all (v.enter stmts).functions (Stmt.placedSeq d i stmts :: ps) := by
  intro name f hf
  -- Both searches take the last definition of the name in the innermost scope.
  have hhere : findFunction? name (stmts.filterMap Stmt.function?)
      = ((Stmt.placedSeq d i stmts).reverse.find? (·.1.name == name)).map (·.1) := by
    rw [← Stmt.map_placedSeq d stmts i, findFunction?, ← List.map_reverse, List.find?_map]
    rfl
  rw [Sight.functions_enter, FunctionScopes.find?, hhere] at hf
  rw [PlacedScopes.find?]
  cases hfind : (Stmt.placedSeq d i stmts).reverse.find? (·.1.name == name) with
  | none =>
      rw [hfind] at hf
      exact hps name f hf
  | some p =>
      rw [hfind] at hf
      obtain rfl : p.1 = f := Option.some.inj hf
      have hmem := List.mem_reverse.mp (List.mem_of_find?_eq_some hfind)
      exact ⟨p.2, rfl, Stmt.placedSeq_listed h p hmem⟩

/-- What is known holds at all places that calls come by. -/
def CallVisits.Sound (c : RunContext) (all : List HookCall) (inner : CallVisits) : Prop :=
  ∀ (fs : FunctionScopes) (ps : PlacedScopes) (name : String) (f : FunctionDef) (i : Nat)
    (args : List Word) (s : RunState), fs.Fit c.dialect → (fs.flatten.map (·.name)).Nodup →
    fs.find? name = some f → ps.Listed c.dialect all fs →
    Listed all i (f.body.hooks c.dialect .nothing) → args.length = f.params.length →
      ∀ visit ∈ inner ps (f, i) args s, visit.Sound c all

/-- What a run comes by after a computation that ends well. -/
theorem Ends.onward {α : Type} {m : Run α} {s : RunState} {P : α → RunState → Prop}
    {f : α → RunState → List Visit} {Q : Visit → Prop} (hm : Ends (m s) P)
    (hf : ∀ a t, P a t → ∀ visit ∈ f a t, Q visit) : ∀ visit ∈ m.onward s f, Q visit := by
  unfold Run.onward
  cases hr : m s with
  | ok a t =>
      rw [hr] at hm
      exact hf a t hm
  | error halt t => exact fun visit hvisit => absurd hvisit List.not_mem_nil

section Expressions

variable {c : RunContext} {call : Caller} {inner : CallVisits} {all : List HookCall}

/-- The last call at an expression is the one behind its arguments. -/
theorem Expr.leave_listed {d : Dialect} {k : Known} {e : Expr} {i : Nat}
    (h : Listed all i (e.hooks d k)) : all[i + e.hookCount d - 1]? = some ⟨.leave e, k⟩ := by
  have hlast : ∀ (first : HookCall) (mid : List HookCall) (last : HookCall),
      e.hooks d k = first :: (mid ++ [last]) → all[i + e.hookCount d - 1]? = some last := by
    intro first mid last heq
    have hcount := e.length_hooks (d := d) k
    rw [heq, List.length_cons, List.length_append, List.length_singleton] at hcount
    rw [heq] at h
    have hget := h.tail.right.head
    rw [show i + e.hookCount d - 1 = i + 1 + mid.length by omega]
    exact hget
  cases e with
  | literal l => exact hlast _ [] _ (by rw [Expr.hooks]; rfl)
  | ident line x => exact hlast _ [] _ (by rw [Expr.hooks]; rfl)
  | instr line op args => exact hlast _ _ _ (by rw [Expr.hooks])
  | call line name args => exact hlast _ _ _ (by rw [Expr.hooks])

theorem Expr.enter_listed {d : Dialect} {k : Known} {e : Expr} {i : Nat}
    (h : Listed all i (e.hooks d k)) : all[i]? = some ⟨.enter e, k⟩ := by
  cases e <;> rw [Expr.hooks] at h <;> exact h.head

/-- Nothing changes between the arguments of a call and its end, as far as variables go. -/
theorem Run.behindArgs_sound {v : Sight} {k : Known} {last : Visit} {args : Run (List Word)}
    {m : List Word → Run (List Word)} {inside : List Word → RunState → List Visit}
    {P : List Word → Prop} (henv : Environment.Holds v.vars last.state.env)
    (hk : k.Valid c v last.state) (hlast : all[last.index]? = some ⟨last.hook, k⟩)
    (hargs : Ends (args last.state) fun values t => P values ∧ Steady last.state t)
    (hm : ∀ values t, P values → Ends (m values t) fun _ u => Steady t u)
    (hinside : ∀ values t, P values → ∀ visit ∈ inside values t, visit.Sound c all) :
    ∀ visit ∈ Run.behindArgs last args m inside, visit.Sound c all := by
  have hplace : ∀ t, Steady last.state t → Visit.Sound c all { last with state := t } :=
    fun t ht => Visit.sound hlast (hk.steady henv ht)
  refine hargs.onward ?_
  -- First the visit inside, then the one behind the expression, in the state each has reached.
  rintro values t ⟨hvalues, ht⟩ visit hvisit
  rcases List.mem_cons.mp hvisit with rfl | hvisit
  · exact hplace t ht
  · rcases List.mem_append.mp hvisit with hvisit | hvisit
    · exact hinside values t hvalues visit hvisit
    · refine (hm values t hvalues).onward (fun _ u hu visit hvisit => ?_) visit hvisit
      obtain rfl := List.mem_singleton.mp hvisit
      exact hplace u (ht.trans hu)

/-- Every call evaluates its arguments before anything else, whatever it calls. -/
theorem Expr.operands_sound (hcall : call.Sound c.dialect) (hlex : call.Lexical c.dialect)
    {v : Sight} {ps : PlacedScopes} (hv : v.Distinct) (hfit : v.functions.Fit c.dialect)
    (hps : ps.Listed c.dialect all v.functions) {e : Expr} {args : List Expr} {s : RunState}
    {i : Nat} {k : Known} {m : List Word → Run (List Word)}
    {inside : List Word → RunState → List Visit} (hyields : Expr.YieldOnes c.dialect v args)
    (henv : Environment.Holds v.vars s.env) (hk : k.Valid c v s)
    (hlisted : Listed all i (e.hooks c.dialect k))
    (hargs : ∀ visit ∈ Expr.visitsArgs c call inner ps (i + 1) args s, visit.Sound c all)
    (hm : ∀ values t, values.length = args.length → Ends (m values t) fun _ u => Steady t u)
    (hinside : ∀ values t, values.length = args.length →
      ∀ visit ∈ inside values t, visit.Sound c all) :
    ∀ visit ∈ Expr.visitsArgs c call inner ps (i + 1) args s ++
      Run.behindArgs ⟨i + e.hookCount c.dialect - 1, .leave e, s⟩
        (Expr.runArgs c call ps.functions args) m inside, visit.Sound c all := by
  rw [Expr.runArgs_lexical hlex hv hfit hps.within hyields]
  intro visit hvisit
  rcases List.mem_append.mp hvisit with hvisit | hvisit
  · exact hargs visit hvisit
  · exact Run.behindArgs_sound henv hk (Expr.leave_listed hlisted)
      (Expr.runArgs_sound hcall hv hfit hyields henv) hm hinside visit hvisit

mutual

/-- What is known holds at all places that evaluating an expression comes by. -/
theorem Expr.visits_sound (hcall : call.Sound c.dialect) (hlex : call.Lexical c.dialect)
    (hinner : inner.Sound c all) {v : Sight} {ps : PlacedScopes} (hv : v.Distinct)
    (hfit : v.functions.Fit c.dialect) (hps : ps.Listed c.dialect all v.functions) :
    ∀ {e : Expr} {n : Nat} {s : RunState} {i : Nat} {k : Known}, e.Yields c.dialect v n →
      Environment.Holds v.vars s.env → k.Valid c v s → Listed all i (e.hooks c.dialect k) →
        ∀ visit ∈ e.visits c call inner ps i s, visit.Sound c all
  | .literal l, n, s, i, k, _, _, hk, hlisted => by
      rw [Expr.visits, List.forall_mem_cons, List.forall_mem_singleton]
      exact ⟨Visit.sound (Expr.enter_listed hlisted) hk, Visit.sound (Expr.leave_listed hlisted) hk⟩
  | .ident line x, n, s, i, k, _, _, hk, hlisted => by
      rw [Expr.visits, List.forall_mem_cons, List.forall_mem_singleton]
      exact ⟨Visit.sound (Expr.enter_listed hlisted) hk, Visit.sound (Expr.leave_listed hlisted) hk⟩
  | .instr line op args, n, s, i, k, h, henv, hk, hlisted => by
      rw [Expr.Yields] at h
      rcases h with ⟨hstack, hlength, rfl, hargs⟩
      rw [Expr.visits, List.forall_mem_cons]
      refine ⟨Visit.sound (Expr.enter_listed hlisted) hk, ?_⟩
      refine Expr.operands_sound hcall hlex hv hfit hps hargs henv hk hlisted ?_ ?_ ?_
      · rw [Expr.hooks] at hlisted
        exact Expr.visitsArgs_sound hcall hlex hinner hv hfit hps hargs henv hk hlisted.tail.left
      · exact fun values t hvalues =>
          (Ends.instruction hstack (hvalues.trans hlength)).mono fun _ _ hu => hu.2
      · exact fun _ _ _ visit hvisit => absurd hvisit List.not_mem_nil
  | .call line name args, n, s, i, k, h, henv, hk, hlisted => by
      simp only [Expr.Yields] at h
      rw [Expr.visits, List.forall_mem_cons]
      refine ⟨Visit.sound (Expr.enter_listed hlisted) hk, ?_⟩
      have hleave := Visit.sound (Expr.leave_listed hlisted) hk
      rcases hb : c.dialect.builtin? name with _ | b
      · simp only [hb] at h ⊢
        rcases h with ⟨f, hf, hlength, rfl, hargs⟩
        -- The callee is placed, and its body is listed where the walk has visited it.
        rcases hps name f hf with ⟨j, hj, hbody⟩
        simp only [hj]
        refine Expr.operands_sound hcall hlex hv hfit hps hargs henv hk hlisted ?_ ?_ ?_
        -- A name that is no builtin does not take literals.
        · have hnames : Flow.takesLiterals c.dialect name = false := by
            rw [Flow.takesLiterals, hb]
            rfl
          rw [Expr.hooks, hnames] at hlisted
          exact Expr.visitsArgs_sound hcall hlex hinner hv hfit hps hargs henv hk
            hlisted.tail.left
        · intro values t hvalues
          rw [hlex v.functions ps.functions name f values hfit hv.functionNames_nodup hps.within hf]
          exact (hcall v.functions name f values t hfit hv.functionNames_nodup hf
            (hvalues.trans hlength)).mono fun _ _ hu => hu.2
        -- The visits in the body of the callee are sound by what is assumed of calls.
        · exact fun values t hvalues => hinner v.functions ps name f j values t hfit
            hv.functionNames_nodup hf hps hbody (hvalues.trans hlength)
      · simp only [hb] at h ⊢
        rcases h with ⟨hlength, rfl, hargs⟩
        -- A builtin that is an instruction evaluates its arguments; the others do not.
        have hinstruction : ∀ op : Instruction, b.literalArguments = false →
            op.isStackManipulation = false → b.params = op.args →
            ∀ visit ∈ Expr.visitsArgs c call inner ps (i + 1) args s ++
              Run.behindArgs ⟨i + (Expr.call line name args).hookCount c.dialect - 1,
                .leave (.call line name args), s⟩ (Expr.runArgs c call ps.functions args)
                (Run.instruction c op) (fun _ _ => []), visit.Sound c all := by
          intro op hlit hstack hparams
          rw [hlit] at hargs
          refine Expr.operands_sound hcall hlex hv hfit hps hargs henv hk hlisted ?_ ?_ ?_
          · have hnames : Flow.takesLiterals c.dialect name = false := by
              rw [Flow.takesLiterals, hb]
              exact hlit
            rw [Expr.hooks, hnames] at hlisted
            exact Expr.visitsArgs_sound hcall hlex hinner hv hfit hps hargs henv hk
              hlisted.tail.left
          · exact fun values t hvalues => (Ends.instruction hstack
              ((hvalues.trans hlength).trans hparams)).mono fun _ _ hu => hu.2
          · exact fun _ _ _ visit hvisit => absurd hvisit List.not_mem_nil
        rcases Dialect.builtin?_cases hb with ⟨b', hproper, rfl | rfl⟩
        · rcases hproper with ⟨op, hstack, rfl⟩ | rfl | rfl | rfl
          · exact hinstruction op rfl hstack rfl
          · exact List.forall_mem_singleton.mpr hleave
          · exact List.forall_mem_singleton.mpr hleave
          · exact hinstruction .codecopy rfl rfl rfl
        · exact List.forall_mem_singleton.mpr hleave

/-- The visits of arguments are sound, from the last to the first. -/
theorem Expr.visitsArgs_sound (hcall : call.Sound c.dialect) (hlex : call.Lexical c.dialect)
    (hinner : inner.Sound c all) {v : Sight} {ps : PlacedScopes} (hv : v.Distinct)
    (hfit : v.functions.Fit c.dialect) (hps : ps.Listed c.dialect all v.functions) :
    ∀ {es : List Expr} {s : RunState} {i : Nat} {k : Known}, Expr.YieldOnes c.dialect v es →
      Environment.Holds v.vars s.env → k.Valid c v s →
      Listed all i (Expr.hooksArgs c.dialect k es) →
        ∀ visit ∈ Expr.visitsArgs c call inner ps i es s, visit.Sound c all
  | [], s, i, k, _, _, _, _ => by
      rw [Expr.visitsArgs]
      exact fun visit hvisit => absurd hvisit List.not_mem_nil
  | e :: rest, s, i, k, h, henv, hk, hlisted => by
      rw [Expr.YieldOnes] at h
      rw [Expr.hooksArgs] at hlisted
      intro visit hvisit
      rw [Expr.visitsArgs] at hvisit
      rcases List.mem_append.mp hvisit with hvisit | hvisit
      -- The arguments behind this one are visited first.
      · exact Expr.visitsArgs_sound hcall hlex hinner hv hfit hps h.2 henv hk hlisted.left visit
          hvisit
      · rw [Expr.runArgs_lexical hlex hv hfit hps.within h.2] at hvisit
        refine (Expr.runArgs_sound hcall hv hfit h.2 henv).onward (fun _ t ht => ?_) visit hvisit
        have hright := hlisted.right
        -- They leave the variables as they are, so that what is known stays valid.
        rw [Expr.length_hooksArgs] at hright
        exact Expr.visits_sound hcall hlex hinner hv hfit hps h.1 (ht.2.holds henv)
          (hk.steady henv ht.2) hright

end

end Expressions

section Statements

open Known

variable {c : RunContext} {call : Caller} {inner : CallVisits} {all : List HookCall}

/-- A step of the counter leaves visits sound. -/
theorem Ends.onward_step {s : RunState} {f : Unit → RunState → List Visit} {Q : Visit → Prop}
    (hf : ∀ t, Steady s t → ∀ visit ∈ f () t, Q visit) :
    ∀ visit ∈ (Run.step c).onward s f, Q visit := by
  refine Ends.step.onward ?_
  rintro _ _ rfl
  exact hf _ ⟨rfl, rfl⟩

/-- What holds at the head of a loop in each round holds for all of its rounds. -/
theorem Run.roundsVisits_sound {visits : RunState → List Visit} {round : Run Bool}
    {I : RunState → Prop} {Q : Visit → Prop}
    (hround : ∀ s, I s → Ends (round s) fun _ t => I t)
    (hvisits : ∀ s, I s → ∀ visit ∈ visits s, Q visit) : ∀ (fuel : Nat) (s : RunState), I s →
      ∀ visit ∈ Run.roundsVisits visits round fuel s, Q visit
  | 0, s, _, visit, hvisit => absurd hvisit List.not_mem_nil
  | fuel + 1, s, hs, visit, hvisit => by
      rw [Run.roundsVisits] at hvisit
      rcases List.mem_append.mp hvisit with hvisit | hvisit
      · exact hvisits s hs visit hvisit
      · refine (hround s hs).onward (fun again t ht visit hvisit => ?_) visit hvisit
        split at hvisit
        · exact Run.roundsVisits_sound hround hvisits fuel t ht visit hvisit
        · exact absurd hvisit List.not_mem_nil

/-- The places of a single round. What is known in front of the last block of a
    round does not depend on how the body was left. -/
theorem Run.roundVisits_sound {v : Sight} {names : List String} {head inside behind : Known}
    {test : Run Word} {body : Run Flow} {inTest inBody inPost : RunState → List Visit}
    {Q : Visit → Prop} (hinside : Sub inside head) (hbehind : Sub behind (inside.forget names))
    (htest : ∀ t, Environment.Holds v.vars t.env → Ends (test t) fun _ u => Steady t u)
    (hbody : ∀ t, Environment.Holds v.vars t.env → Ends (body t) (Left v true names t))
    (hinTest : ∀ t, Environment.Holds v.vars t.env → head.Valid c v t →
      ∀ visit ∈ inTest t, Q visit)
    (hinBody : ∀ t, Environment.Holds v.vars t.env → inside.Valid c v t →
      ∀ visit ∈ inBody t, Q visit)
    (hinPost : ∀ t, Environment.Holds v.vars t.env → behind.Valid c v t →
      ∀ visit ∈ inPost t, Q visit)
    {s : RunState} (henv : Environment.Holds v.vars s.env) (hk : head.Valid c v s) :
    ∀ visit ∈ Run.roundVisits c test body inTest inBody inPost s, Q visit := by
  -- One round is the test, the body, and the post part unless the body leaves.
  refine Ends.onward_step fun s₀ hs₀ visit hvisit => ?_
  have henv₀ := hs₀.holds henv
  have hk₀ := hk.steady henv hs₀
  rcases List.mem_append.mp hvisit with hvisit | hvisit
  · exact hinTest s₀ henv₀ hk₀ visit hvisit
  · refine (htest s₀ henv₀).onward (fun value t ht visit hvisit => ?_) visit hvisit
    have henv₁ := ht.holds henv₀
    have hk₁ := (hk₀.steady henv₀ ht).sub hinside
    split at hvisit
    -- The test has failed, and the round ends.
    · exact absurd hvisit List.not_mem_nil
    · rcases List.mem_append.mp hvisit with hvisit | hvisit
      · exact hinBody t henv₁ hk₁ visit hvisit
      · refine (hbody t henv₁).onward (fun flow u hu visit hvisit => ?_) visit hvisit
        split at hvisit
        · exact absurd hvisit List.not_mem_nil
        -- What the body assigns is forgotten before the post part.
        · exact hinPost u hu.holds
            ((hk₁.keeps henv₁ hu.keeps (List.Subset.refl _)).sub hbehind) visit hvisit

-- The cases below open the places that a run comes by by their equations.
attribute [local simp] Block.visits Stmt.visitsSeq Stmt.visits Case.visitsSeq

/-- What is known holds at all places that running a block comes by, if what is known holds where
    it begins. -/
def Block.VisitsSound (c : RunContext) (call : Caller) (inner : CallVisits) (all : List HookCall)
    (b : Block) : Prop :=
  ∀ ⦃v : Sight⦄ ⦃inLoop : Bool⦄ ⦃ps : PlacedScopes⦄ ⦃s : RunState⦄ ⦃i : Nat⦄ ⦃k : Known⦄,
    v.Distinct → v.functions.Fit c.dialect →
    ps.Listed c.dialect all v.functions → b.Fits c.dialect v inLoop →
    Environment.Holds v.vars s.env → k.Valid c v s → Listed all i (b.hooks c.dialect k) →
      ∀ visit ∈ b.visits c call inner ps i s, visit.Sound c all

/-- What is known holds at all places that running statements comes by. -/
def Stmt.VisitsSoundSeq (c : RunContext) (call : Caller) (inner : CallVisits) (all : List HookCall)
    (stmts : List Stmt) : Prop :=
  ∀ ⦃v : Sight⦄ ⦃inLoop : Bool⦄ ⦃ps : PlacedScopes⦄ ⦃s : RunState⦄ ⦃i : Nat⦄ ⦃k : Known⦄,
    v.vars ≠ [] → v.Distinct →
    v.functions.Fit c.dialect → ps.Listed c.dialect all v.functions →
    Stmt.FitsSeq c.dialect v inLoop stmts → Environment.Holds v.vars s.env → k.Valid c v s →
    Listed all i (Stmt.hooksSeq c.dialect k stmts) →
      ∀ visit ∈ Stmt.visitsSeq c call inner ps i stmts s, visit.Sound c all

/-- What is known holds at all places that running a statement comes by. -/
def Stmt.VisitsSound (c : RunContext) (call : Caller) (inner : CallVisits) (all : List HookCall)
    (s₁ : Stmt) : Prop :=
  ∀ ⦃v : Sight⦄ ⦃inLoop : Bool⦄ ⦃ps : PlacedScopes⦄ ⦃s : RunState⦄ ⦃i : Nat⦄ ⦃k : Known⦄,
    v.vars ≠ [] → v.Distinct →
    v.functions.Fit c.dialect → ps.Listed c.dialect all v.functions →
    s₁.Fits c.dialect v inLoop → Environment.Holds v.vars s.env → k.Valid c v s →
    Listed all i (s₁.hooks c.dialect k) →
      ∀ visit ∈ Stmt.visits c call inner ps i s₁ s, visit.Sound c all

/-- What is known holds at all places that running the cases of a switch comes by. -/
def Case.VisitsSoundSeq (c : RunContext) (call : Caller) (inner : CallVisits) (all : List HookCall)
    (subject : Word) (cases : List Case) : Prop :=
  ∀ ⦃v : Sight⦄ ⦃inLoop : Bool⦄ ⦃seen : List Word⦄ ⦃ps : PlacedScopes⦄ ⦃s : RunState⦄ ⦃i : Nat⦄
    ⦃k : Known⦄,
    v.Distinct → v.functions.Fit c.dialect → ps.Listed c.dialect all v.functions →
    Case.FitsSeq c.dialect v inLoop seen cases → Environment.Holds v.vars s.env →
    k.Valid c v s → Listed all i (Case.hooksSeq c.dialect k cases) →
      ∀ visit ∈ Case.visitsSeq c call inner ps i subject cases s, visit.Sound c all

/-- The visits of a block are sound if those of its statements are. -/
theorem Block.VisitsSound.of_stmts {line : Nat} {stmts : List Stmt}
    (hparts : Stmt.VisitsSoundSeq c call inner all stmts) :
    Block.VisitsSound c call inner all ⟨line, stmts⟩ := by
  intro v inLoop ps s i k hv hfit hps h henv hk hlisted
  rw [Block.Fits] at h
  rw [Block.hooks] at hlisted
  rw [Block.visits]
  exact hparts (List.cons_ne_nil _ _)
    (Sight.distinct_enter hv h.1) (.enter hv hfit h.1 h.2) (hps.enter hlisted) h.2
    (henv.enter stmts) (hk.enter henv stmts) hlisted

namespace Stmt.VisitsSoundSeq

theorem nil : Stmt.VisitsSoundSeq c call inner all [] := by
  simp [Stmt.VisitsSoundSeq]

/-- The visits of statements are sound, one behind the other. -/
theorem cons (hcall : call.Sound c.dialect) (hlex : call.Lexical c.dialect) {s₁ : Stmt}
    {rest : List Stmt} (hone : s₁.VisitsSound c call inner all)
    (hmore : Stmt.VisitsSoundSeq c call inner all rest) :
    Stmt.VisitsSoundSeq c call inner all (s₁ :: rest) := by
  intro v inLoop ps s i k hne hv hfit hps h henv hk hlisted
  rw [Stmt.FitsSeq] at h
  rw [Stmt.hooksSeq] at hlisted
  -- The calls of the others start where those of the first one end.
  have hrest := hlisted.tail.right
  rw [Stmt.length_hooks] at hrest
  rw [Stmt.visitsSeq, List.forall_mem_cons, Stmt.run_lexical hlex hv hfit hps.within h.1]
  refine ⟨Visit.sound hlisted.head hk, fun visit hvisit => ?_⟩
  rcases List.mem_append.mp hvisit with hvisit | hvisit
  · exact hone hne hv hfit hps h.1 henv hk hlisted.tail.left visit hvisit
  · refine ((Stmt.run_sound hcall hv hfit h.1 henv).and
      (Stmt.run_flow hcall hne hv hfit h.1 henv hk)).onward ?_ visit hvisit
    rintro flow t ⟨ht, hknown⟩ visit hvisit
    split at hvisit
    · rename_i hflow
      subst hflow
      -- The others start from what holds behind the first one.
      exact hmore (Sight.vars_after_ne hne s₁)
        (Stmt.Fits.distinct_after hv h.1) (by rw [Sight.functions_after]; exact hfit)
        (by rw [Sight.functions_after]; exact hps) h.2 ht.holds (hknown rfl) hrest visit hvisit
    · exact absurd hvisit List.not_mem_nil

end Stmt.VisitsSoundSeq

namespace Stmt.VisitsSound

/-- A statement in which no place is visited. -/
theorem of_nil {s₁ : Stmt} (h : ∀ ps s i, Stmt.visits c call inner ps i s₁ s = []) :
    s₁.VisitsSound c call inner all := by
  intro v inLoop ps s i k _ _ _ _ _ _ _ _ visit hvisit
  rw [h] at hvisit
  exact absurd hvisit List.not_mem_nil

/-- The visits of a statement of one expression are sound. -/
theorem expr (hcall : call.Sound c.dialect) (hlex : call.Lexical c.dialect)
    (hinner : inner.Sound c all) {line : Nat} {e : Expr} :
    (Stmt.expr line e).VisitsSound c call inner all := by
  intro v inLoop ps s i k hne hv hfit hps h henv hk hlisted
  rw [Stmt.Fits] at h
  rw [Stmt.hooks] at hlisted
  rw [Stmt.visits]
  exact Ends.onward_step fun s₀ hs₀ => Expr.visits_sound hcall hlex hinner hv hfit hps h
    (hs₀.holds henv) (hk.steady henv hs₀) hlisted

/-- The visits of an assignment are sound. -/
theorem assign (hcall : call.Sound c.dialect) (hlex : call.Lexical c.dialect)
    (hinner : inner.Sound c all) {line : Nat} {targets : List Identifier} {value : Expr} :
    (Stmt.assign line targets value).VisitsSound c call inner all := by
  intro v inLoop ps s i k hne hv hfit hps h henv hk hlisted
  rw [Stmt.Fits] at h
  rw [Stmt.hooks] at hlisted
  rw [Stmt.visits]
  exact Ends.onward_step fun s₀ hs₀ => Expr.visits_sound hcall hlex hinner hv hfit hps h.1
    (hs₀.holds henv) (hk.steady henv hs₀) hlisted

theorem decl_none {line : Nat} {vars : List TypedName} :
    (Stmt.decl line vars none).VisitsSound c call inner all :=
  of_nil fun _ _ _ => by simp

/-- The visits of a declaration are sound. -/
theorem decl_some (hcall : call.Sound c.dialect) (hlex : call.Lexical c.dialect)
    (hinner : inner.Sound c all) {line : Nat} {vars : List TypedName} {value : Expr} :
    (Stmt.decl line vars (some value)).VisitsSound c call inner all := by
  intro v inLoop ps s i k hne hv hfit hps h henv hk hlisted
  rw [Stmt.Fits] at h
  rw [Stmt.hooks] at hlisted
  rw [Stmt.visits]
  exact Ends.onward_step fun s₀ hs₀ => Expr.visits_sound hcall hlex hinner hv hfit hps
    (h.1 value rfl) (hs₀.holds henv) (hk.steady henv hs₀) hlisted

/-- The body of a function is visited when the function is called. -/
theorem func {line : Nat} {name : String} {params returns : List TypedName} {body : Block} :
    (Stmt.func line name params returns body).VisitsSound c call inner all :=
  of_nil fun _ _ _ => by simp

/-- The visits of a conditional are sound if those of its body are. -/
theorem cond (hcall : call.Sound c.dialect) (hlex : call.Lexical c.dialect)
    (hinner : inner.Sound c all) {line : Nat} {test : Expr} {body : Block}
    (hpart : body.VisitsSound c call inner all) :
    (Stmt.cond line test body).VisitsSound c call inner all := by
  intro v inLoop ps s i k hne hv hfit hps h henv hk hlisted
  rw [Stmt.Fits] at h
  rw [Stmt.hooks] at hlisted
  rw [Stmt.visits, Expr.runSingle_lexical hlex hv hfit hps.within h.1]
  refine Ends.onward_step fun s₀ hs₀ visit hvisit => ?_
  have henv₀ := hs₀.holds henv
  have hk₀ := hk.steady henv hs₀
  -- The visits of the test, then those of the body if the test holds.
  rcases List.mem_append.mp hvisit with hvisit | hvisit
  · exact Expr.visits_sound hcall hlex hinner hv hfit hps h.1 henv₀ hk₀ hlisted.left visit
      hvisit
  · refine (Expr.runSingle_sound hcall hv hfit h.1 henv₀).onward
      (fun value t ht visit hvisit => ?_) visit hvisit
    split at hvisit
    · exact absurd hvisit List.not_mem_nil
    · have hright := hlisted.right
      rw [Expr.length_hooks] at hright
      exact hpart hv hfit hps h.2 (ht.holds henv₀)
        ((hk₀.steady henv₀ ht).sub (evaluated_sub _ _ _)) hright visit hvisit

/-- The visits of a switch are sound if those of its cases are, whatever its value. -/
theorem switch (hcall : call.Sound c.dialect) (hlex : call.Lexical c.dialect)
    (hinner : inner.Sound c all) {line : Nat} {subject : Expr} {cases : List Case}
    (hparts : ∀ subject, Case.VisitsSoundSeq c call inner all subject cases) :
    (Stmt.switch line subject cases).VisitsSound c call inner all := by
  intro v inLoop ps s i k hne hv hfit hps h henv hk hlisted
  rw [Stmt.Fits] at h
  rw [Stmt.hooks] at hlisted
  rw [Stmt.visits, Expr.runSingle_lexical hlex hv hfit hps.within h.1]
  refine Ends.onward_step fun s₀ hs₀ visit hvisit => ?_
  have henv₀ := hs₀.holds henv
  have hk₀ := hk.steady henv hs₀
  -- The visits of the subject, then those of the case that is taken.
  rcases List.mem_append.mp hvisit with hvisit | hvisit
  · exact Expr.visits_sound hcall hlex hinner hv hfit hps h.1 henv₀ hk₀ hlisted.left visit
      hvisit
  · refine (Expr.runSingle_sound hcall hv hfit h.1 henv₀).onward (fun value t ht => ?_) visit
      hvisit
    have hright := hlisted.right
    rw [Expr.length_hooks] at hright
    exact hparts value hv hfit hps h.2 (ht.holds henv₀)
      ((hk₀.steady henv₀ ht).sub (evaluated_sub _ _ _)) hright

/-- At the head of a loop nothing is known of what its rounds assign, so what is known there holds
    in front of every round. -/
theorem loop (hcall : call.Sound c.dialect) (hlex : call.Lexical c.dialect)
    (hinner : inner.Sound c all) {line preLine : Nat} {pre : List Stmt} {test : Expr}
    {post body : Block} (hinit : Stmt.VisitsSoundSeq c call inner all pre)
    (hround : body.VisitsSound c call inner all) (hthen : post.VisitsSound c call inner all) :
    (Stmt.loop line ⟨preLine, pre⟩ test post body).VisitsSound c call inner all := by
  intro v inLoop ps s i k hne hv hfit hps h henv hk hlisted
  rcases Stmt.Fits.loop_parts hv hfit h with
    ⟨⟨hin, hfin, hpre⟩, hout, hfout, htest, hbody, hpost⟩
  rw [Stmt.hooks] at hlisted
  have hpsIn := hps.enter hlisted.left
  have hpsOut := hpsIn
  rw [← Sight.functions_afterSeq] at hpsOut
  -- The numbers of the parts of the loop.
  have htestAt := hlisted.right.left
  have hbodyAt := hlisted.right.right.left
  have hpostAt := hlisted.right.right.right
  rw [Stmt.length_hooksSeq] at htestAt hbodyAt hpostAt
  rw [Expr.length_hooks] at hbodyAt hpostAt
  rw [Block.length_hooks] at hpostAt
  have htest' := fun t => Expr.runSingle_sound (s := t) hcall hout hfout htest
  have hbody' := fun t => Block.run_sound (s := t) hcall hout hfout hbody
  have hpost' := fun t => Block.run_sound (s := t) hcall hout hfout hpost
  rw [Stmt.visits]
  dsimp only
  rw [Stmt.runSeq_lexical hlex hin hfin hpsIn.within hpre,
    Expr.runSingle_lexical hlex hout hfout hpsOut.within htest,
    Block.run_lexical hlex hout hfout hpsOut.within hbody,
    Block.run_lexical hlex hout hfout hpsOut.within hpost]
  refine Ends.onward_step fun s₀ hs₀ visit hvisit => ?_
  have henv₀ := hs₀.holds henv
  have henv' := henv₀.enter pre
  have hk₀ := (hk.steady henv hs₀).enter henv₀ pre
  have hne' : (v.enter pre).vars ≠ [] := List.cons_ne_nil _ _
  rcases List.mem_append.mp hvisit with hvisit | hvisit
  · exact hinit hne' hin hfin hpsIn hpre henv' hk₀ hlisted.left visit hvisit
  · refine ((Stmt.runSeq_sound hcall hin hfin hpre henv').and
      (Stmt.runSeq_flow hcall hne' hin hfin hpre henv' hk₀)).onward ?_ visit hvisit
    rintro flow t ⟨ht, hknown⟩
    obtain rfl : flow = .next := by
      by_contra hflow
      exact absurd (ht.leaves hflow) Bool.false_ne_true
    have hhead := (hknown rfl).sub (forget_sub _ (body.assigned ++ post.assigned))
    -- At the head nothing is known about what the rounds assign, so it stays valid.
    refine Run.roundsVisits_sound
      (I := fun u => Environment.Holds ((v.enter pre).afterSeq pre).vars u.env ∧
        ((Stmt.flowSeq c.dialect k pre).forget (body.assigned ++ post.assigned)).Valid c
          ((v.enter pre).afterSeq pre) u) ?_ ?_ _ t ⟨ht.holds, hhead⟩
    · rintro u ⟨hu, hvalid⟩
      refine (Ends.round htest' hbody' hpost' u hu).mono fun _ w hw => ⟨hw.holds, ?_⟩
      exact (hvalid.keeps hu hw.keeps (List.Subset.refl _)).sub (sub_forget_forget _ _)
    · rintro u ⟨hu, hvalid⟩
      have hbehind := (Block.flow_forget_sub (d := c.dialect) (k := Known.evaluated c.dialect
        test ((Stmt.flowSeq c.dialect k pre).forget (body.assigned ++ post.assigned)))
        (List.subset_append_left body.assigned post.assigned)).trans
          (Sub.forget (.refl _) (List.subset_append_left _ _))
      refine Run.roundVisits_sound (evaluated_sub _ _ _) hbehind htest' hbody' ?_ ?_ ?_ hu hvalid
      · exact fun w hw hwk => Expr.visits_sound hcall hlex hinner hout hfout hpsOut htest hw hwk
          htestAt
      · exact fun w hw hwk => hround hout hfout hpsOut hbody hw hwk hbodyAt
      · exact fun w hw hwk => hthen hout hfout hpsOut hpost hw hwk hpostAt

/-- The visits of a nested block are sound. -/
theorem block {b : Block} (hpart : b.VisitsSound c call inner all) :
    (Stmt.block b).VisitsSound c call inner all := by
  intro v inLoop ps s i k hne hv hfit hps h henv hk hlisted
  rw [Stmt.Fits] at h
  rw [Stmt.hooks] at hlisted
  rw [Stmt.visits]
  exact Ends.onward_step fun s₀ hs₀ => hpart hv hfit hps h
    (hs₀.holds henv) (hk.steady henv hs₀) hlisted

theorem brk {line : Nat} : (Stmt.brk line).VisitsSound c call inner all :=
  of_nil fun _ _ _ => by simp

theorem cont {line : Nat} : (Stmt.cont line).VisitsSound c call inner all :=
  of_nil fun _ _ _ => by simp

theorem label {line : Nat} {name : String} : (Stmt.label line name).VisitsSound c call inner all :=
  of_nil fun _ _ _ => by simp

theorem stackAssign {line : Nat} {target : Identifier} :
    (Stmt.stackAssign line target).VisitsSound c call inner all :=
  of_nil fun _ _ _ => by simp

end Stmt.VisitsSound

namespace Case.VisitsSoundSeq

variable {subject : Word}

theorem nil : Case.VisitsSoundSeq c call inner all subject [] := by
  simp [Case.VisitsSoundSeq]

/-- The visits of a default case are sound. -/
theorem default {line : Nat} {body : Block} {rest : List Case}
    (hpart : body.VisitsSound c call inner all) :
    Case.VisitsSoundSeq c call inner all subject (⟨line, none, body⟩ :: rest) := by
  intro v inLoop seen ps s i k hv hfit hps h henv hk hlisted
  rw [Case.FitsSeq] at h
  rw [Case.hooksSeq] at hlisted
  rw [Case.visitsSeq]
  exact hpart hv hfit hps h.1 henv hk hlisted.left

/-- The visits of a case with a value are sound. -/
theorem value {line : Nat} {l : Literal} {body : Block} {rest : List Case}
    (hpart : body.VisitsSound c call inner all)
    (hmore : Case.VisitsSoundSeq c call inner all subject rest) :
    Case.VisitsSoundSeq c call inner all subject (⟨line, some l, body⟩ :: rest) := by
  intro v inLoop seen ps s i k hv hfit hps h henv hk hlisted
  rw [Case.FitsSeq] at h
  rcases h with ⟨w, hw, _, hbody, hrest⟩
  rw [Case.hooksSeq] at hlisted
  have hright := hlisted.right
  rw [Block.length_hooks] at hright
  rw [Case.visitsSeq]
  refine (Ends.literal hw).onward ?_
  rintro _ t ⟨rfl, rfl⟩ visit hvisit
  split at hvisit
  -- The case is taken.
  · exact hpart hv hfit hps hbody henv hk hlisted.left visit hvisit
  · -- The case is passed over, and nothing new was learned from it.
    exact hmore hv hfit hps hrest henv
      (hk.sub ((Block.flow_forget_sub (List.Subset.refl _)).trans (forget_sub _ _))) hright
      visit hvisit

end Case.VisitsSoundSeq

mutual

/-- What is known holds at all places that running a block comes by. -/
theorem Block.visits_sound (hcall : call.Sound c.dialect) (hlex : call.Lexical c.dialect)
    (hinner : inner.Sound c all) : ∀ b : Block, b.VisitsSound c call inner all
  | ⟨_, stmts⟩ => .of_stmts (Stmt.visitsSeq_sound hcall hlex hinner stmts)

/-- The visits of all statements are sound. -/
theorem Stmt.visitsSeq_sound (hcall : call.Sound c.dialect) (hlex : call.Lexical c.dialect)
    (hinner : inner.Sound c all) : ∀ stmts : List Stmt, Stmt.VisitsSoundSeq c call inner all stmts
  | [] => .nil
  | s₁ :: rest => .cons hcall hlex (Stmt.visits_sound hcall hlex hinner s₁)
      (Stmt.visitsSeq_sound hcall hlex hinner rest)

/-- What is known holds at all places that running a statement comes by. -/
theorem Stmt.visits_sound (hcall : call.Sound c.dialect) (hlex : call.Lexical c.dialect)
    (hinner : inner.Sound c all) : ∀ s₁ : Stmt, s₁.VisitsSound c call inner all
  | .expr _ _ => .expr hcall hlex hinner
  | .assign _ _ _ => .assign hcall hlex hinner
  | .decl _ _ none => .decl_none
  | .decl _ _ (some _) => .decl_some hcall hlex hinner
  | .func _ _ _ _ _ => .func
  | .cond _ _ body => .cond hcall hlex hinner (Block.visits_sound hcall hlex hinner body)
  | .switch _ _ cases => .switch hcall hlex hinner (Case.visitsSeq_sound hcall hlex hinner cases)
  | .loop _ ⟨_, pre⟩ _ post body => .loop hcall hlex hinner
      (Stmt.visitsSeq_sound hcall hlex hinner pre) (Block.visits_sound hcall hlex hinner body)
      (Block.visits_sound hcall hlex hinner post)
  | .block b => .block (Block.visits_sound hcall hlex hinner b)
  | .brk _ => .brk
  | .cont _ => .cont
  | .label _ _ => .label
  | .stackAssign _ _ => .stackAssign

/-- The visits of all cases are sound. -/
theorem Case.visitsSeq_sound (hcall : call.Sound c.dialect) (hlex : call.Lexical c.dialect)
    (hinner : inner.Sound c all) : ∀ (cases : List Case) (subject : Word),
    Case.VisitsSoundSeq c call inner all subject cases
  | [], _ => .nil
  | ⟨_, none, body⟩ :: _, _ => .default (Block.visits_sound hcall hlex hinner body)
  | ⟨_, some _, body⟩ :: rest, subject => .value (Block.visits_sound hcall hlex hinner body)
      (Case.visitsSeq_sound hcall hlex hinner rest subject)

end

end Statements

/-- What is known holds at all places that calls come by. A function body is walked
    with nothing known, so it does not matter from where it is called. -/
theorem FunctionDef.visits_sound (c : RunContext) (all : List HookCall) :
    ∀ depth, CallVisits.Sound c all (FunctionDef.visits c depth) := by
  intro depth
  induction depth with
  | zero => exact fun _ _ _ _ _ _ _ _ _ _ _ _ _ visit hvisit => absurd hvisit List.not_mem_nil
  | succ depth ih =>
      intro fs ps name f i args s hfit hnodup hf hps hlisted hargs
      rcases hfit.callee hnodup hf with ⟨around, hidden, hv, haround, hin, _, hbody⟩
      rw [FunctionDef.visits]
      exact Block.visits_sound (FunctionDef.call_sound c depth) (FunctionDef.call_lexical c depth)
        ih f.body hv haround (hps.mono hin) hbody
        (f.frame_holds hargs) Known.valid_nothing hlisted

/-- The walk over a program that is read and accepted makes its calls in the same
    order whatever the pass that changes nothing, and what it shows the pass as
    known holds whenever a run comes by: the variable exists, and evaluating the
    expression gives the value that it has. -/
theorem known_values_hold {d : Dialect} (hd : d.flavour ≠ .loose) {source : String}
    {code : Block} {scopes : Scopes} (hread : parseBlock d source = .ok code)
    (haccept : analyze d code = .ok scopes) (hstay : code.initsStay = true) :
    (∀ (σ : Type) (p : Policy σ) (own : σ), p.Still →
      Flow.run d p own code = (code, (hookCalls d code).foldl p.tell own)) ∧
    ∀ (limits : Limits) (calldata : List UInt8), ∀ visit ∈ visits d limits calldata code,
      ∃ known : Known, (hookCalls d code)[visit.index]? = some ⟨visit.hook, known⟩ ∧
        ∀ x e, (x, e) ∈ known.entries → ∃ w, visit.state.env.get? x = some w ∧
          ∀ (call : Caller) (fs : FunctionScopes),
            e.run ⟨d, limits, true⟩ call fs visit.state = .ok [w] visit.state := by
  have hfits := analyze_fits hd (parseBlock_readable hd hread) hstay haccept
  rw [hookCalls_eq]
  refine ⟨fun σ p own hp => Flow.run_still hp own code, fun limits calldata => ?_⟩
  have hnone : PlacedScopes.Listed d (code.hooks d .nothing) Sight.empty.functions [] :=
    fun name f hf => absurd hf (by rintro ⟨⟩)
  -- The whole block starts without functions, without variables and with nothing known.
  exact Block.visits_sound (c := ⟨d, limits, true⟩) (FunctionDef.call_sound _ limits.maxSteps)
    (FunctionDef.call_lexical _ limits.maxSteps) (FunctionDef.visits_sound _ _ limits.maxSteps)
    code Sight.distinct_empty trivial hnone hfits .nil Known.valid_nothing (List.prefix_refl _)

/-- A variable that keeps its value through the rounds of a loop, and one that
    changes in each of them. -/
theorem known_values_hold_around_loop :
    ∃ code scopes, parseBlock .strictAssembly
        "{ let a := calldatasize()
          for { let i := 0 } lt(i, 3) { i := add(i, 1) } { let b := add(a, i) pop(b) } }"
          = .ok code ∧
      analyze .strictAssembly code = .ok scopes ∧ code.initsStay = true ∧
      ∃ visit ∈ visits .strictAssembly ⟨100, 0x100000⟩ [] code, ∃ known : Known,
        (hookCalls .strictAssembly code)[visit.index]? = some ⟨visit.hook, known⟩ ∧
        known.keys = ["a", "b"] ∧
        ∀ x e, (x, e) ∈ known.entries → ∃ w, visit.state.env.get? x = some w ∧
          ∀ (call : Caller) (fs : FunctionScopes),
            e.run ⟨.strictAssembly, ⟨100, 0x100000⟩, true⟩ call fs visit.state
              = .ok [w] visit.state := by
  refine exists_of_accepted? (fun code => code.initsStay &&
    (visits .strictAssembly ⟨100, 0x100000⟩ [] code).any fun visit =>
      ((hookCalls .strictAssembly code)[visit.index]?).any fun call =>
        call.known.keys = ["a", "b"]) (by decide +kernel) fun code scopes hread haccept htest => ?_
  rw [Bool.and_eq_true, List.any_eq_true] at htest
  rcases htest with ⟨hstay, visit, hvisit, hkeys⟩
  have hhold := (known_values_hold (by decide) hread haccept hstay).2 ⟨100, 0x100000⟩ []
  rcases hhold visit hvisit with ⟨known, hcall, hvalues⟩
  refine ⟨hstay, visit, hvisit, known, hcall, ?_, hvalues⟩
  rw [hcall] at hkeys
  exact of_decide_eq_true hkeys

end YulToolchain
