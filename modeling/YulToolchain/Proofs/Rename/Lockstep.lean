import YulToolchain.Proofs.Execution.Soundness
import YulToolchain.Proofs.Rename.Alpha

/-!
# Names Do Not Matter to a Run

Programs that differ in names run in lockstep.

Two runs are followed side by side. At corresponding places both have made the same
number of steps, have the same machine, and have the same values in variables that
stand side by side. So they go the same way, count the same steps and come to the same
end, be it that of a budget.

Both programs are well formed, and all that is known of well-formed programs is used
for each of them: which variables exist, and that closing a scope does not touch
those outside. What is left to show is that values stay the same. That comes down
to one fact about lists of names and values: a value is found under one of two
names that stand side by side if and only if it is found under the other.

## Main definitions

* `Mirror`: Two states are the same but for the names of variables.
* `Lockstep`: Two states at corresponding places.
* `Caller.Parallel`: Calls of functions that stand side by side.

## Theorems

* `lookup_pairs`: The value under names that stand side by side.
* `Expr.run_alpha`: Expressions have the same values.
* `Block.run_alpha`, `Stmt.run_alpha`: Statements do the same.
* `FunctionDef.call_alpha`: So do calls.
* `interpret_alpha`: Programs that differ in names have the same result.
-/

namespace YulToolchain

open Run

/-- Two states are the same but for the names of variables. -/
structure Mirror (pairs : List (String × String)) (s s' : RunState) : Prop where
  machine : s'.machine = s.machine
  steps : s'.steps = s.steps
  vars : ∀ q ∈ pairs, s'.env.get? q.2 = s.env.get? q.1

/-- Two states at corresponding places. -/
structure Lockstep (p : Pairing) (v v' : Sight) (s s' : RunState) : Prop
    extends Mirror p.vars.flatten s s' where
  holds : Environment.Holds v.vars s.env
  holds' : Environment.Holds v'.vars s'.env

/-- What holds after two expressions were evaluated. -/
structure SameValues (n : Nat) (s s' : RunState) (ws : List Word) (t : RunState)
    (ws' : List Word) (t' : RunState) : Prop where
  values : ws' = ws
  length : ws.length = n
  machine : t'.machine = t.machine
  steps : t'.steps = t.steps
  steady : Steady s t
  steady' : Steady s' t'

/-- What holds after two statements, or lists of them. -/
structure SameFlow (p after : Pairing) (flow : Flow) (t : RunState) (flow' : Flow)
    (t' : RunState) : Prop where
  flows : flow' = flow
  here : Mirror p.vars.flatten t t'
  next : flow = .next → Mirror after.vars.flatten t t'

/-- Calls of functions that stand side by side do the same. -/
def Caller.Parallel (d : Dialect) (call : Caller) : Prop :=
  ∀ (fs : FunctionPairs) (f f' : FunctionDef) (args : List Word) (s s' : RunState),
    fs.firsts.Fit d → fs.seconds.Fit d → (fs.firsts.flatten.map (·.name)).Nodup →
    (fs.seconds.flatten.map (·.name)).Nodup → fs.AlphaEq d → (f, f') ∈ fs.flatten →
    args.length = f.params.length → s'.machine = s.machine → s'.steps = s.steps →
      Both SameMachine (call fs.firsts f args s) (call fs.seconds f' args s') fun ws t ws' t' =>
        ws' = ws ∧ t'.machine = t.machine ∧ t'.steps = t.steps

section Values

variable {p : Pairing} {v v' : Sight} {s s' t t' u u' : RunState} {n m : Nat}
  {ws ws' xs xs' : List Word}

/-- Evaluated expressions leave both runs in lockstep. -/
theorem Lockstep.evaluated (h : Lockstep p v v' s s') (ht : SameValues n s s' ws t ws' t') :
    Lockstep p v v' t t' := by
  refine ⟨⟨ht.machine, ht.steps, fun q hq => ?_⟩, ht.steady.holds h.holds,
    ht.steady'.holds h.holds'⟩
  rw [ht.steady.env, ht.steady'.env]
  exact h.vars q hq

theorem SameValues.trans (h : SameValues n s s' ws t ws' t') (h' : SameValues m t t' xs u xs' u') :
    SameValues m s s' xs u xs' u' :=
  ⟨h'.values, h'.length, h'.machine, h'.steps, h.steady.trans h'.steady,
    h.steady'.trans h'.steady'⟩

theorem SameFlow.stays {flow : Flow} (h : Mirror p.vars.flatten t t') :
    SameFlow p p flow t flow t' := ⟨rfl, h, fun _ => h⟩

/-- A value is found under one of two names that stand side by side if it is found
    under the other. -/
theorem lookup_pairs {x x' : String} : ∀ (names : List ((String × String) × Word)),
    (∀ q ∈ names, q.1.1 = x ↔ q.1.2 = x') →
      (names.map fun q => (q.1.2, q.2)).lookup x' = (names.map fun q => (q.1.1, q.2)).lookup x
  | [], _ => rfl
  | q :: rest, h => by
      have ih := lookup_pairs rest fun r hr => h r (List.mem_cons_of_mem _ hr)
      have hq := h q List.mem_cons_self
      rw [List.map_cons, List.map_cons, List.lookup_cons, List.lookup_cons]
      by_cases hx : q.1.1 = x
      · rw [hq.mp hx, hx, beq_self_eq_true, beq_self_eq_true]
      · rw [beq_eq_false_iff_ne.mpr (Ne.symm hx),
          beq_eq_false_iff_ne.mpr (Ne.symm fun hx' => hx (hq.mpr hx'))]
        exact ih

/-- Giving values to variables that stand side by side keeps the values the same. -/
theorem lookup_zip_pairs {names : List (String × String)} (values : List Word) {x x' : String}
    (h : ∀ q ∈ names, q.1 = x ↔ q.2 = x') :
    ((names.map (·.2)).zip values).reverse.lookup x'
      = ((names.map (·.1)).zip values).reverse.lookup x := by
  have hmap : ∀ g : String × String → String, (names.map g).zip values
      = (names.zip values).map fun q => (g q.1, q.2) := by
    intro g
    rw [List.zip_map_left]
    rfl
  rw [hmap, hmap, ← List.map_reverse, ← List.map_reverse]
  exact lookup_pairs _ fun q hq => h q.1 (List.of_mem_zip (List.mem_reverse.mp hq)).1

end Values

section Steps

variable {c : RunContext} {α β : Type} {m : Run α} {m' : Run β} {p : Pairing} {v v' : Sight}
  {s s' : RunState} {Q : α → RunState → β → RunState → Prop}

/-- Counting a step on both sides. -/
theorem Both.counted (hs : Lockstep p v v' s s')
    (h : ∀ t t', Lockstep p v v' t t' → Both SameMachine (m t) (m' t') Q) :
    Both SameMachine ((step c >>= fun _ => m) s) ((step c >>= fun _ => m') s') Q := by
  refine Both.bind (R := fun _ t _ t' => t = { s with steps := s.steps + 1 } ∧
    t' = { s' with steps := s'.steps + 1 }) ?_ ?_
  · rw [Run.step_eq, Run.step_eq, hs.steps]
    split
    · exact ⟨rfl, hs.machine.symm⟩
    · exact ⟨rfl, rfl⟩
  · rintro _ _ _ _ ⟨rfl, rfl⟩
    exact h _ _ ⟨⟨hs.machine, congrArg (· + 1) hs.steps, hs.vars⟩, hs.holds, hs.holds'⟩

end Steps

section Expressions

variable {c : RunContext} {call : Caller} {p : Pairing} {v v' : Sight}

/-- An instruction does the same on both sides. -/
theorem Both.sameInstruction {op : Instruction} {args : List Word} {s s' : RunState}
    (hstack : op.isStackManipulation = false) (hargs : args.length = op.args)
    (hmachine : s'.machine = s.machine) (hsteps : s'.steps = s.steps) :
    Both SameMachine (Run.instruction c op args s) (Run.instruction c op args s')
      (SameValues op.returns s s') := by
  have hboth : Both SameMachine (Run.instruction c op args s) (Run.instruction c op args s')
      fun ws t ws' t' => ws' = ws ∧ t'.machine = t.machine ∧ t'.steps = t.steps := by
    simp only [Run.instruction, Run.onMachine, Bind.bind, EStateM.bind, hmachine]
    cases op.execute c.limits args s.machine with
    | ok r machine => exact ⟨rfl, rfl, hsteps⟩
    | error halt machine => exact ⟨rfl, rfl⟩
  refine ((hboth.left (Ends.instruction hstack hargs)).right
    (Ends.instruction hstack hargs)).mono ?_
  rintro ws t ws' t' ⟨⟨⟨hvalues, hmachine, hsteps⟩, hlength, hst⟩, _, hst'⟩
  exact ⟨hvalues, hlength, hmachine, hsteps, hst, hst'⟩

/-- Arguments equal up to names are as many. -/
theorem Expr.AlphaEqAll.length {d : Dialect} : ∀ {args args' : List Expr},
    Expr.AlphaEqAll d p args args' → args'.length = args.length
  | [], _, h => by
      cases h
      rfl
  | e :: rest, _, h => by
      cases h with
      | cons he hrest => rw [List.length_cons, List.length_cons, hrest.length]

/-- Literals have no names. -/
theorem Expr.AlphaEqAll.textual {d : Dialect} : ∀ {args args' : List Expr},
    Expr.AlphaEqAll d p args args' → (∀ e ∈ args, e.Textual) → args' = args
  | [], _, h, _ => by
      cases h
      rfl
  | e :: rest, _, h, htext => by
      cases h with
      | cons he hrest =>
          have ih := hrest.textual fun e he => htext e (List.mem_cons_of_mem _ he)
          have htext := htext e List.mem_cons_self
          cases he with
          | literal l => rw [ih]
          | _ => exact False.elim htext

mutual

/-- Expressions that differ in names have the same values. -/
theorem Expr.run_alpha (hcall : call.Sound c.dialect) (hsame : call.Parallel c.dialect)
    (hp : p.Joins c.dialect v v') : ∀ {e e' : Expr} {n : Nat} {s s' : RunState},
    e.AlphaEq c.dialect p e' → e.Yields c.dialect v n → e'.Yields c.dialect v' n →
    Lockstep p v v' s s' →
      Both SameMachine (e.run c call v.functions s) (e'.run c call v'.functions s')
        (SameValues n s s')
  | .literal l, e', n, s, s', halpha, h, _, hs => by
      cases halpha
      rw [Expr.Yields] at h
      rcases h with ⟨⟨w, hw⟩, rfl⟩
      rw [Expr.run_literal hw, Expr.run_literal hw]
      exact ⟨rfl, rfl, hs.machine, hs.steps, .refl s, .refl s'⟩
  | .ident line x, e', n, s, s', halpha, h, _, hs => by
      cases halpha with
      | ident _ line' hx =>
          rw [Expr.Yields] at h
          rcases h with ⟨hvisible, rfl⟩
          rcases hs.holds.get?_some hvisible with ⟨w, hw⟩
          -- The other variable is paired with this one and has its value.
          rw [Expr.run_ident hw, Expr.run_ident ((hs.vars _ hx).trans hw)]
          exact ⟨rfl, rfl, hs.machine, hs.steps, .refl s, .refl s'⟩
  | .instr line op args, e', n, s, s', halpha, h, h', hs => by
      cases halpha with
      | instr _ line' _ hargs =>
          rw [Expr.Yields] at h h'
          rcases h with ⟨hstack, hlength, rfl, hones⟩
          rw [Expr.run, Expr.run]
          refine (Expr.runArgs_alpha hcall hsame hp hargs hones h'.2.2.2 hs).bind
            fun ws t ws' t' hws => ?_
          obtain rfl := hws.values
          exact (Both.sameInstruction hstack (hws.length.trans hlength) hws.machine
            hws.steps).mono fun _ _ _ _ hresult => hws.trans hresult
  | .call line name args, e', n, s, s', halpha, h, h', hs => by
      cases halpha with
      | call _ line' hb hb' hf hargs =>
          rename_i f f' args'
          simp only [Expr.Yields, hb, hb'] at h h'
          -- The names are paired, and so are the functions that they call.
          rcases hp.find? hf with ⟨hfind, hfind'⟩
          rcases h with ⟨g, hg, hlength, rfl, hones⟩
          obtain rfl := Option.some.inj (hfind.symm.trans hg)
          rcases h' with ⟨g', hg', hlength', hreturns, hones'⟩
          obtain rfl := Option.some.inj (hfind'.symm.trans hg')
          rw [Expr.run, Expr.run]
          simp only [hb, hb', hfind, hfind']
          refine (Expr.runArgs_alpha hcall hsame hp hargs hones hones' hs).bind
            fun ws t ws' t' hws => ?_
          obtain rfl := hws.values
          have hcount := hws.length.trans hlength
          have hcount' : ws'.length = f'.params.length := by
            rw [hws.length, ← hlength', hargs.length]
          rw [if_pos hcount, if_pos hcount']
          -- The bodies do the same by what is assumed of calls.
          have hboth := hsame p.functions f f' ws' t t' (hp.functions ▸ hp.fit)
            (hp.functions' ▸ hp.fit') (hp.functions ▸ hp.distinct.functionNames_nodup)
            (hp.functions' ▸ hp.distinct'.functionNames_nodup) hp.bodies hf hcount hws.machine
            hws.steps
          rw [← hp.functions, ← hp.functions'] at hboth
          refine ((hboth.left (hcall v.functions f.name f ws' t hp.fit
            hp.distinct.functionNames_nodup hfind hcount)).right
              (hcall v'.functions f'.name f' ws' t' hp.fit' hp.distinct'.functionNames_nodup hfind'
                hcount')).mono ?_
          rintro xs u xs' u' ⟨⟨⟨hxs, hmachine, hsteps⟩, hn, hst⟩, _, hst'⟩
          exact hws.trans ⟨hxs, hn, hmachine, hsteps, hst, hst'⟩
      | builtin _ line' hb hargs =>
          rename_i b args'
          simp only [Expr.Yields, hb] at h h'
          rcases h with ⟨hlength, rfl, hones⟩
          rcases h' with ⟨_, _, hones'⟩
          rw [Expr.run, Expr.run]
          simp only [hb]
          -- A builtin is an instruction, a question about an object, or has no code.
          rcases Dialect.builtin?_cases hb with ⟨b', hproper, rfl | rfl⟩
          · rcases hproper with ⟨op, hstack, rfl⟩ | rfl | rfl | rfl
            · refine (Expr.runArgs_alpha hcall hsame hp hargs hones hones' hs).bind
                fun ws t ws' t' hws => ?_
              obtain rfl := hws.values
              exact (Both.sameInstruction hstack (hws.length.trans hlength) hws.machine
                hws.steps).mono fun _ _ _ _ hresult => hws.trans hresult
            -- The text of a question is not renamed.
            · obtain rfl := hargs.textual hones
              rcases Run.objectQuery_means hlength hones "datasize" with ⟨w, hw⟩
              refine (congrArg₂ (Both SameMachine · · _) (hw line s) (hw line' s')).mpr ?_
              exact ⟨rfl, rfl, hs.machine, hs.steps, .refl s, .refl s'⟩
            · obtain rfl := hargs.textual hones
              rcases Run.objectQuery_means hlength hones "dataoffset" with ⟨w, hw⟩
              refine (congrArg₂ (Both SameMachine · · _) (hw line s) (hw line' s')).mpr ?_
              exact ⟨rfl, rfl, hs.machine, hs.steps, .refl s, .refl s'⟩
            · refine (Expr.runArgs_alpha hcall hsame hp hargs hones hones' hs).bind
                fun ws t ws' t' hws => ?_
              obtain rfl := hws.values
              have hstack : Instruction.codecopy.isStackManipulation = false := rfl
              exact (Both.sameInstruction hstack (hws.length.trans hlength) hws.machine
                hws.steps).mono fun _ _ _ _ hresult => hws.trans hresult
          · exact ⟨rfl, List.length_replicate, hs.machine, hs.steps, .refl s, .refl s'⟩

/-- Arguments that are equal up to names have the same values. -/
theorem Expr.runArgs_alpha (hcall : call.Sound c.dialect) (hsame : call.Parallel c.dialect)
    (hp : p.Joins c.dialect v v') : ∀ {es es' : List Expr} {s s' : RunState},
    Expr.AlphaEqAll c.dialect p es es' → Expr.YieldOnes c.dialect v es →
    Expr.YieldOnes c.dialect v' es' → Lockstep p v v' s s' →
      Both SameMachine (Expr.runArgs c call v.functions es s)
        (Expr.runArgs c call v'.functions es' s')
        (SameValues es.length s s')
  | [], es', s, s', halpha, _, _, hs => by
      cases halpha
      rw [Expr.runArgs, Expr.runArgs]
      exact ⟨rfl, rfl, hs.machine, hs.steps, .refl s, .refl s'⟩
  | e :: rest, es', s, s', halpha, h, h', hs => by
      cases halpha with
      | cons he hrest =>
          rw [Expr.YieldOnes] at h h'
          rw [Expr.runArgs, Expr.runArgs]
          -- The last ones first.
          refine (Expr.runArgs_alpha hcall hsame hp hrest h.2 h'.2 hs).bind
            fun ws t ws' t' hws => ?_
          obtain rfl := hws.values
          refine (Expr.run_alpha hcall hsame hp he h.1 h'.1 (hs.evaluated hws)).bind
            fun ones u ones' u' hones => ?_
          obtain rfl := hones.values
          refine (Both.single hones.length).bind ?_
          rintro w _ _ _ ⟨_, rfl, rfl, rfl⟩
          refine ⟨rfl, ?_, hones.machine, hones.steps, hws.steady.trans hones.steady,
            hws.steady'.trans hones.steady'⟩
          rw [List.length_cons, List.length_cons, hws.length]

end

theorem Expr.runSingle_alpha (hcall : call.Sound c.dialect) (hsame : call.Parallel c.dialect)
    (hp : p.Joins c.dialect v v') {e e' : Expr} {s s' : RunState}
    (halpha : e.AlphaEq c.dialect p e') (h : e.Yields c.dialect v 1)
    (h' : e'.Yields c.dialect v' 1) (hs : Lockstep p v v' s s') :
    Both SameMachine (e.runSingle c call v.functions s) (e'.runSingle c call v'.functions s')
      fun w t w' t' => w' = w ∧ Lockstep p v v' t t' := by
  rw [Expr.runSingle, Expr.runSingle]
  refine (Expr.run_alpha hcall hsame hp halpha h h' hs).bind fun ws t ws' t' hws => ?_
  obtain rfl := hws.values
  refine (Both.single hws.length).mono ?_
  rintro w _ _ _ ⟨_, rfl, rfl, rfl⟩
  exact ⟨rfl, hs.evaluated hws⟩

end Expressions

section Variables

variable {d : Dialect} {p : Pairing} {v v' : Sight} {s s' : RunState}

/-- Declarations of variables that stand side by side. -/
theorem Mirror.declareAll {names names' : List String} (hs : Lockstep p v v' s s')
    (hp : p.Joins d v v') (hlength : names'.length = names.length) (hfree : v.Free d names)
    (hfree' : v'.Free d names') (values : List Word) :
    Mirror (p.declare (names.zip names')).vars.flatten
      { s with env := s.env.declareAll (names.zip values) }
      { s' with env := s'.env.declareAll (names'.zip values) } := by
  -- Names are declared in pairs, and each pair gets one value.
  refine ⟨hs.machine, hs.steps, fun q hq => ?_⟩
  have hjoins := hp.declare hlength hfree hfree'
  have hvars := hp.vars
  have hvars' := hp.vars'
  have hholds := hs.holds
  have hholds' := hs.holds'
  -- Without a scope nothing is declared.
  rcases hpv : p.vars with _ | ⟨scope, outer⟩
  · simp only [Pairing.declare, hpv] at hq
    exact absurd hq List.not_mem_nil
  · rw [hpv, List.map_cons] at hvars hvars'
    rw [hvars] at hholds
    rw [hvars'] at hholds'
    have hne : s.env ≠ [] := by
      rintro he
      rw [he] at hholds
      cases hholds
    have hne' : s'.env ≠ [] := by
      rintro he
      rw [he] at hholds'
      cases hholds'
    -- A pair is an old one or one of those declared.
    have hmem : ∀ r, r ∈ (p.declare (names.zip names')).vars.flatten ↔
        r ∈ p.vars.flatten ∨ r ∈ names.zip names' := by
      intro r
      simp only [Pairing.declare, hpv, List.flatten_cons, List.mem_append]
      tauto
    -- No old pair shares one of its names with a new pair.
    have hpairs : ∀ r ∈ names.zip names', r.1 = q.1 ↔ r.2 = q.2 := fun r hr =>
      hjoins.unique ((hmem r).mpr (Or.inr hr)) hq
    have hlookup := lookup_zip_pairs values hpairs
    rw [List.map_fst_zip (Nat.le_of_eq hlength.symm), List.map_snd_zip (Nat.le_of_eq hlength)]
      at hlookup
    show (s'.env.declareAll (names'.zip values)).get? q.2
      = (s.env.declareAll (names.zip values)).get? q.1
    rw [Environment.get?_declareAll _ hne, Environment.get?_declareAll _ hne', hlookup]
    congr 1
    rcases (hmem q).mp hq with hold | hnew
    · exact hs.vars q hold
    · -- Before their declaration neither name has a value.
      have hnone : ∀ {w : Sight} {env : Environment} {xs : List String} {x : String},
          w.Free d xs → x ∈ xs → Environment.Holds w.vars env → env.get? x = none := by
        intro w env xs x hfree hx hholds
        rw [← Option.not_isSome_iff_eq_none, hholds.isSome_get?]
        exact fun hmem => (hfree.2 x hx).2.2 (Sight.mem_taken.mpr (Or.inr (Or.inl hmem)))
      rw [hnone hfree (List.of_mem_zip hnew).1 hs.holds,
        hnone hfree' (List.of_mem_zip hnew).2 hs.holds']

/-- Assignments to variables that stand side by side. -/
theorem Both.assignPairs {names : List (String × String)} (hs : Lockstep p v v' s s')
    (hp : p.Joins d v v') (hnames : ∀ q ∈ names, q ∈ p.vars.flatten) (values : List Word) :
    Both SameMachine (Run.assignAll ((names.map (·.1)).zip values) s)
      (Run.assignAll ((names.map (·.2)).zip values) s') fun _ t _ t' =>
        Mirror p.vars.flatten t t' := by
  -- All targets are in sight, so that both assignments succeed.
  have hvisible : ∀ q ∈ (names.map (·.1)).zip values, q.1 ∈ v.visible := by
    intro q hq
    rcases List.mem_map.mp (List.of_mem_zip hq).1 with ⟨r, hr, hrq⟩
    rw [← hrq]
    exact (hp.mem_visible (hnames r hr)).1
  have hvisible' : ∀ q ∈ (names.map (·.2)).zip values, q.1 ∈ v'.visible := by
    intro q hq
    rcases List.mem_map.mp (List.of_mem_zip hq).1 with ⟨r, hr, hrq⟩
    rw [← hrq]
    exact (hp.mem_visible (hnames r hr)).2
  rcases Run.assignAll_eq hvisible hs.holds with ⟨env, hrun, _, hget⟩
  rcases Run.assignAll_eq hvisible' hs.holds' with ⟨env', hrun', _, hget'⟩
  rw [hrun, hrun']
  refine ⟨hs.machine, hs.steps, fun q hq => ?_⟩
  show env'.get? q.2 = env.get? q.1
  -- A name is among the targets where its partner is.
  rw [hget, hget', hs.vars q hq,
    lookup_zip_pairs values fun r hr => hp.unique (hnames r hr) hq]

/-- Entering blocks on both sides. -/
theorem Lockstep.enter (hs : Lockstep p v v' s s') (stmts stmts' : List Stmt) :
    Lockstep (p.enter stmts stmts') (v.enter stmts) (v'.enter stmts')
      { s with env := .empty :: s.env } { s' with env := .empty :: s'.env } :=
  ⟨⟨hs.machine, hs.steps, hs.vars⟩, hs.holds.enter stmts, hs.holds'.enter stmts'⟩

/-- Closing scopes on both sides. -/
theorem Mirror.close {t t' : RunState} (h : Mirror p.vars.flatten t t') (hp : p.Joins d v v')
    (hclose : Closes v t) (hclose' : Closes v' t') :
    Lockstep p v v' { t with env := t.env.tail } { t' with env := t'.env.tail } := by
  refine ⟨⟨h.machine, h.steps, fun q hq => ?_⟩, hclose.holds, hclose'.holds⟩
  have hmem := hp.mem_visible hq
  show Environment.get? q.2 t'.env.tail = Environment.get? q.1 t.env.tail
  rw [hclose.get?_tail hmem.1, hclose'.get?_tail hmem.2]
  exact h.vars q hq

end Variables

section Loops

variable {c : RunContext} {p : Pairing} {v v' : Sight} {test test' : Run Word}
  {body body' post post' : Run Flow}

/-- Rounds of two loops. -/
theorem Both.sameRound
    (htest : ∀ s s', Lockstep p v v' s s' →
      Both SameMachine (test s) (test' s') fun w t w' t' => w' = w ∧ Lockstep p v v' t t')
    (hbody : ∀ s s', Lockstep p v v' s s' →
      Both SameMachine (body s) (body' s')
        fun flow t flow' t' => flow' = flow ∧ Lockstep p v v' t t')
    (hpost : ∀ s s', Lockstep p v v' s s' →
      Both SameMachine (post s) (post' s')
        fun flow t flow' t' => flow' = flow ∧ Lockstep p v v' t t')
    {s s' : RunState} (hs : Lockstep p v v' s s') :
    Both SameMachine (Run.round c test body post s) (Run.round c test' body' post' s')
      fun again t again' t' => again = again' ∧ Lockstep p v v' t t' := by
  rw [Run.round, Run.round]
  -- The test, the body, and the post part unless the body leaves.
  refine Both.counted hs fun s₀ s₀' hs₀ => ?_
  refine (htest s₀ s₀' hs₀).bind ?_
  rintro w t _ t' ⟨rfl, ht⟩
  split
  · exact ⟨rfl, ht⟩
  · refine (hbody t t' ht).bind ?_
    rintro _ u flow u' ⟨rfl, hu⟩
    have hrest : Both SameMachine ((post >>= fun _ => pure true) u)
        ((post' >>= fun _ => pure true) u')
        fun again t again' t' => again = again' ∧ Lockstep p v v' t t' :=
      (hpost u u' hu).bind fun _ _ _ _ hw => ⟨rfl, hw.2⟩
    cases flow with
    | next => exact hrest
    | brk => exact ⟨rfl, hu⟩
    | cont => exact hrest

/-- All rounds of two loops that are equal up to names do the same. -/
theorem Both.sameRounds
    (htest : ∀ s s', Lockstep p v v' s s' →
      Both SameMachine (test s) (test' s') fun w t w' t' => w' = w ∧ Lockstep p v v' t t')
    (hbody : ∀ s s', Lockstep p v v' s s' →
      Both SameMachine (body s) (body' s')
        fun flow t flow' t' => flow' = flow ∧ Lockstep p v v' t t')
    (hpost : ∀ s s', Lockstep p v v' s s' →
      Both SameMachine (post s) (post' s')
        fun flow t flow' t' => flow' = flow ∧ Lockstep p v v' t t')
    (fuel : Nat) {s s' : RunState} (hs : Lockstep p v v' s s') :
    Both SameMachine (Run.rounds fuel (Run.round c test body post) s)
      (Run.rounds fuel (Run.round c test' body' post') s') fun _ t _ t' =>
        Lockstep p v v' t t' := by
  refine Both.rounds (I := Lockstep p v v') (fun t t' ht => ?_) (fun _ _ ht => ht.machine.symm)
    fuel s s' hs
  refine (Both.sameRound htest hbody hpost ht).mono ?_
  rintro again u _ u' ⟨rfl, hu⟩
  cases again <;> exact ⟨rfl, hu⟩

end Loops

section Statements

variable {c : RunContext} {call : Caller}

/-- Declarations, once there are values for them. -/
theorem Both.declarePairs {p : Pairing} {v v' : Sight} {vars vars' : List TypedName}
    {value value' : Option Expr} {line line' : Nat} (hp : p.Joins c.dialect v v')
    (hlength : vars'.length = vars.length) (hfree : v.Free c.dialect (vars.map (·.name)))
    (hfree' : v'.Free c.dialect (vars'.map (·.name))) {ws : List Word}
    (hws : ws.length = vars.length) {t t' : RunState} (ht : Lockstep p v v' t t') :
    Both SameMachine ((if ws.length = vars.length then do
        Run.modifyEnv (Environment.declareAll ((vars.map (·.name)).zip ws))
        return .next
      else Run.fault (.declarationCount line) : Run Flow) t)
      ((if ws.length = vars'.length then do
        Run.modifyEnv (Environment.declareAll ((vars'.map (·.name)).zip ws))
        return .next
      else Run.fault (.declarationCount line') : Run Flow) t')
      (SameFlow p (p.after (.decl line vars value) (.decl line' vars' value'))) := by
  rw [if_pos hws, if_pos (hws.trans hlength.symm)]
  -- The names behind the declaration come in pairs.
  have hnames : (vars'.map (·.name)).length = (vars.map (·.name)).length := by
    rw [List.length_map, List.length_map, hlength]
  have hafter := Mirror.declareAll ht hp hnames hfree hfree' ws
  refine ⟨rfl, ?_, fun _ => hafter⟩
  exact ⟨hafter.machine, hafter.steps, fun q hq => hafter.vars q (p.subset_declare _ hq)⟩

/-- Targets in pairs. -/
theorem Identifier.names_of_forall₂ {p : Pairing} {targets targets' : List Identifier}
    (h : List.Forall₂ (fun t t' => (t.name, t'.name) ∈ p.vars.flatten) targets targets') :
    ∃ names : List (String × String), targets.map (·.name) = names.map (·.1) ∧
      targets'.map (·.name) = names.map (·.2) ∧ ∀ q ∈ names, q ∈ p.vars.flatten := by
  induction h with
  | nil => exact ⟨[], rfl, rfl, fun _ hq => absurd hq List.not_mem_nil⟩
  | cons hhere _ ih =>
      rcases ih with ⟨names, hnames, hnames', hmem⟩
      refine ⟨_ :: names, ?_, ?_, List.forall_mem_cons.mpr ⟨hhere, hmem⟩⟩
      · rw [List.map_cons, List.map_cons, hnames]
      · rw [List.map_cons, List.map_cons, hnames']

/-- Runs of two blocks from corresponding states go the same way. -/
def Block.Parallel (c : RunContext) (call : Caller) (p : Pairing) (v v' : Sight) (b b' : Block) :
    Prop :=
  ∀ s s', Lockstep p v v' s s' →
    Both SameMachine (b.run c call v.functions s) (b'.run c call v'.functions s')
      fun flow t flow' t' => flow' = flow ∧ Lockstep p v v' t t'

/-- So do runs of the cases of two switches. -/
def Case.ParallelSeq (c : RunContext) (call : Caller) (p : Pairing) (v v' : Sight)
    (cases cases' : List Case) : Prop :=
  ∀ value s s', Lockstep p v v' s s' →
    Both SameMachine (Case.runSeq c call v.functions value cases s)
      (Case.runSeq c call v'.functions value cases' s')
      fun flow t flow' t' => flow' = flow ∧ Lockstep p v v' t t'

/-- So do runs of two lists of statements. -/
def Stmt.ParallelSeq (c : RunContext) (call : Caller) (p : Pairing) (v v' : Sight)
    (stmts stmts' : List Stmt) : Prop :=
  ∀ s s', Lockstep p v v' s s' →
    Both SameMachine (Stmt.runSeq c call v.functions stmts s)
      (Stmt.runSeq c call v'.functions stmts' s')
      (SameFlow p (p.afterSeq stmts stmts'))

/-- So do runs of two statements. -/
def Stmt.Parallel (c : RunContext) (call : Caller) (p : Pairing) (v v' : Sight) (s₁ s₁' : Stmt) :
    Prop :=
  ∀ s s', Lockstep p v v' s s' →
    Both SameMachine (s₁.run c call v.functions s) (s₁'.run c call v'.functions s')
      (SameFlow p (p.after s₁ s₁'))

variable {p : Pairing} {v v' : Sight} {inLoop : Bool}

theorem Block.parallel_of_seq (hcall : call.Sound c.dialect) {line line' : Nat}
    {stmts stmts' : List Stmt} (hp : p.Joins c.dialect v v')
    (hin : (p.enter stmts stmts').Joins c.dialect (v.enter stmts) (v'.enter stmts'))
    (h : Stmt.FitsSeq c.dialect (v.enter stmts) inLoop stmts)
    (h' : Stmt.FitsSeq c.dialect (v'.enter stmts') inLoop stmts')
    (hseq : Stmt.ParallelSeq c call (p.enter stmts stmts') (v.enter stmts) (v'.enter stmts')
      stmts stmts') :
    Block.Parallel c call p v v' ⟨line, stmts⟩ ⟨line', stmts'⟩ := by
  intro s s' hs
  have henter := hs.enter stmts stmts'
  rw [Block.run, Block.run]
  refine Both.inScope ?_
  refine (((hseq _ _ henter).left
    (Stmt.runSeq_sound hcall hin.distinct hin.fit h henter.holds)).right
    (Stmt.runSeq_sound hcall hin.distinct' hin.fit' h' henter.holds')).mono ?_
  rintro flow t flow' t' ⟨⟨hflow, hreached⟩, hreached'⟩
  exact ⟨hflow.flows, Mirror.close hflow.here hp hreached.closes hreached'.closes⟩

/-- Statements equal up to names run in parallel, one after the other. -/
theorem Stmt.parallel_cons (hcall : call.Sound c.dialect) {s₁ s₁' : Stmt}
    {rest rest' : List Stmt} (hp : p.Joins c.dialect v v') (h : s₁.Fits c.dialect v inLoop)
    (h' : s₁'.Fits c.dialect v' inLoop) (hs₁ : Stmt.Parallel c call p v v' s₁ s₁')
    (hrest : Stmt.ParallelSeq c call (p.after s₁ s₁') (v.after s₁) (v'.after s₁') rest rest') :
    Stmt.ParallelSeq c call p v v' (s₁ :: rest) (s₁' :: rest') := by
  intro s s' hs
  rw [Stmt.runSeq, Stmt.runSeq]
  refine (((hs₁ s s' hs).left (Stmt.run_sound hcall hp.distinct hp.fit h hs.holds)).right
    (Stmt.run_sound hcall hp.distinct' hp.fit' h' hs.holds')).bind ?_
  rintro flow t flow' t' ⟨⟨hflow, hreached⟩, hreached'⟩
  obtain rfl := hflow.flows
  cases flow' with
  -- Control goes on with the pairs that the first statement has added.
  | next =>
      have ih := hrest t t' ⟨hflow.next rfl, hreached.holds, hreached'.holds⟩
      rw [Sight.functions_after, Sight.functions_after] at ih
      refine ih.mono fun flow u flow' u' hu => ⟨hu.flows, ?_, hu.next⟩
      exact ⟨hu.here.machine, hu.here.steps, fun q hq =>
        hu.here.vars q (p.subset_declare _ hq)⟩
  | brk => exact ⟨rfl, hflow.here, fun hc => absurd hc (by rintro ⟨⟩)⟩
  | cont => exact ⟨rfl, hflow.here, fun hc => absurd hc (by rintro ⟨⟩)⟩

/-- Assignments equal up to names run in parallel. -/
theorem Stmt.parallel_assign (hcall : call.Sound c.dialect) (hsame : call.Parallel c.dialect)
    (hp : p.Joins c.dialect v v') {line line' : Nat} {targets targets' : List Identifier}
    {value value' : Expr}
    (htargets : List.Forall₂ (fun t t' => (t.name, t'.name) ∈ p.vars.flatten) targets targets')
    (hvalue : value.AlphaEq c.dialect p value') (h : value.Yields c.dialect v targets.length)
    (h' : value'.Yields c.dialect v' targets'.length) :
    Stmt.Parallel c call p v v' (.assign line targets value) (.assign line' targets' value') := by
  intro s s' hs
  have hlength : targets'.length = targets.length := htargets.length_eq.symm
  rw [hlength] at h'
  rw [Stmt.run, Stmt.run, Pairing.after_eq rfl]
  refine Both.counted hs fun s₀ s₀' hs₀ => ?_
  refine (Expr.run_alpha hcall hsame hp hvalue h h' hs₀).bind fun ws t ws' t' hws => ?_
  obtain rfl := hws.values
  rw [if_pos hws.length, if_pos (hws.length.trans hlength.symm)]
  rcases Identifier.names_of_forall₂ htargets with ⟨names, hnames, hnames', hmem⟩
  rw [hnames, hnames']
  refine (Both.assignPairs (hs₀.evaluated hws) hp hmem ws').bind fun _ u _ u' hu => ?_
  exact SameFlow.stays hu

/-- Declarations equal up to names run in parallel. -/
theorem Stmt.parallel_decl (hcall : call.Sound c.dialect) (hsame : call.Parallel c.dialect)
    (hp : p.Joins c.dialect v v') {s₁ s₁' : Stmt} (halpha : s₁.AlphaEq c.dialect p s₁')
    (h : s₁.Fits c.dialect v inLoop) (h' : s₁'.Fits c.dialect v' inLoop) {line : Nat}
    {vars : List TypedName} {value : Option Expr} (hs₁ : s₁ = .decl line vars value) :
    Stmt.Parallel c call p v v' s₁ s₁' := by
  intro s s' hs
  cases halpha with
  -- Without a value all names are zero on both sides.
  | zeros line line' hvars =>
      rename_i vars vars'
      rw [Stmt.Fits] at h h'
      rw [Stmt.run, Stmt.run]
      refine Both.counted hs fun s₀ s₀' hs₀ => ?_
      have hzeros : List.replicate vars'.length (0 : Word) = List.replicate vars.length 0 := by
        rw [hvars]
      rw [hzeros]
      exact Both.declarePairs hp hvars h.2 h'.2 List.length_replicate hs₀
  -- With a value both evaluate it first.
  | decl line line' hvars hvalue =>
      rename_i vars vars' value value'
      rw [Stmt.Fits] at h h'
      have hyields' := h'.1 value' rfl
      rw [hvars] at hyields'
      rw [Stmt.run, Stmt.run]
      refine Both.counted hs fun s₀ s₀' hs₀ => ?_
      refine (Expr.run_alpha hcall hsame hp hvalue (h.1 value rfl) hyields' hs₀).bind
        fun ws t ws' t' hws => ?_
      obtain rfl := hws.values
      exact Both.declarePairs hp hvars h.2 h'.2 hws.length (hs₀.evaluated hws)
  | _ => exact absurd hs₁ (by rintro ⟨⟩)

/-- Loops equal up to names run in parallel. -/
theorem Stmt.parallel_loop (hcall : call.Sound c.dialect) (hsame : call.Parallel c.dialect)
    (hp : p.Joins c.dialect v v') {line line' preLine preLine' : Nat} {pre pre' : List Stmt}
    {test test' : Expr} {post post' body body' : Block}
    (hin : (p.enter pre pre').Joins c.dialect (v.enter pre) (v'.enter pre'))
    (hloop : ((p.enter pre pre').afterSeq pre pre').Joins c.dialect ((v.enter pre).afterSeq pre)
      ((v'.enter pre').afterSeq pre'))
    (hfits : Stmt.FitsSeq c.dialect (v.enter pre) false pre)
    (hfits' : Stmt.FitsSeq c.dialect (v'.enter pre') false pre')
    (hyields : test.Yields c.dialect ((v.enter pre).afterSeq pre) 1)
    (hyields' : test'.Yields c.dialect ((v'.enter pre').afterSeq pre') 1)
    (hpre : Stmt.ParallelSeq c call (p.enter pre pre') (v.enter pre) (v'.enter pre') pre pre')
    (htest : test.AlphaEq c.dialect ((p.enter pre pre').afterSeq pre pre') test')
    (hbody : Block.Parallel c call ((p.enter pre pre').afterSeq pre pre')
      ((v.enter pre).afterSeq pre) ((v'.enter pre').afterSeq pre') body body')
    (hpost : Block.Parallel c call ((p.enter pre pre').afterSeq pre pre')
      ((v.enter pre).afterSeq pre) ((v'.enter pre').afterSeq pre') post post') :
    Stmt.Parallel c call p v v' (.loop line ⟨preLine, pre⟩ test post body)
      (.loop line' ⟨preLine', pre'⟩ test' post' body') := by
  intro s s' hs
  have htest' := fun t t' (ht : Lockstep ((p.enter pre pre').afterSeq pre pre') _ _ t t') =>
    Expr.runSingle_alpha hcall hsame hloop htest hyields hyields' ht
  simp only [Block.Parallel, Sight.functions_afterSeq] at htest' hbody hpost
  rw [Stmt.run, Stmt.run, Pairing.after_eq rfl]
  -- Both count a step and open a scope.
  refine Both.counted hs fun s₀ s₀' hs₀ => ?_
  refine Both.bind (R := fun _ t _ t' => Lockstep p v v' t t') ?_
    fun _ _ _ _ ht => SameFlow.stays ht.toMirror
  refine Both.inScope ?_
  have henter := hs₀.enter pre pre'
  refine (((hpre _ _ henter).left
    (Stmt.runSeq_sound hcall hin.distinct hin.fit hfits henter.holds)).right
    (Stmt.runSeq_sound hcall hin.distinct' hin.fit' hfits' henter.holds')).bind ?_
  rintro flow t flow' t' ⟨⟨hflow, hreached⟩, hreached'⟩
  -- The initialisation can not leave the loop, so all its variables are there.
  obtain rfl : flow = .next := by
    by_contra hne
    exact absurd (hreached.leaves hne) Bool.false_ne_true
  obtain rfl := hflow.flows
  have hrounds := Both.sameRounds (c := c) htest' hbody hpost (c.limits.maxSteps + 1)
    ⟨hflow.next rfl, hreached.holds, hreached'.holds⟩
  refine hrounds.mono fun _ u _ u' hu => ?_
  -- Behind the loops the pairs are those from before.
  refine Mirror.close ⟨hu.machine, hu.steps, fun q hq => ?_⟩ hp
    (hu.holds.closes hloop.distinct) (hu.holds'.closes hloop.distinct')
  exact hu.vars q (Pairing.subset_afterSeq _ pre pre' hq)

mutual

/-- Blocks that differ in names do the same. -/
theorem Block.run_alpha (hcall : call.Sound c.dialect) (hsame : call.Parallel c.dialect) :
    ∀ {b b' : Block} {p : Pairing} {v v' : Sight} {inLoop : Bool}, p.Joins c.dialect v v' →
      b.AlphaEq c.dialect p b' → b.Fits c.dialect v inLoop → b'.Fits c.dialect v' inLoop →
        Block.Parallel c call p v v' b b'
  | ⟨line, stmts⟩, _, p, v, v', inLoop, hp, halpha, h, h' => by
      cases halpha with
      | block _ line' hseq =>
          rw [Block.Fits] at h h'
          have hin := hp.enter h.1 h'.1 h.2 h'.2 hseq
          exact Block.parallel_of_seq hcall hp hin h.2 h'.2
            (Stmt.runSeq_alpha hcall hsame hin hseq h.2 h'.2)
termination_by structural b => b

theorem Stmt.runSeq_alpha (hcall : call.Sound c.dialect) (hsame : call.Parallel c.dialect) :
    ∀ {stmts stmts' : List Stmt} {p : Pairing} {v v' : Sight} {inLoop : Bool},
      p.Joins c.dialect v v' → Stmt.AlphaEqSeq c.dialect p stmts stmts' →
      Stmt.FitsSeq c.dialect v inLoop stmts → Stmt.FitsSeq c.dialect v' inLoop stmts' →
        Stmt.ParallelSeq c call p v v' stmts stmts'
  | [], _, p, v, v', inLoop, _, halpha, _, _ => by
      cases halpha
      intro s s' hs
      rw [Stmt.runSeq, Stmt.runSeq]
      exact SameFlow.stays hs.toMirror
  | s₁ :: rest, _, p, v, v', inLoop, hp, halpha, h, h' => by
      cases halpha with
      | cons hs₁ hrest =>
          rw [Stmt.FitsSeq] at h h'
          exact Stmt.parallel_cons hcall hp h.1 h'.1 (Stmt.run_alpha hcall hsame hp hs₁ h.1 h'.1)
            (Stmt.runSeq_alpha hcall hsame (hp.after h.1 h'.1 hs₁) hrest h.2 h'.2)
termination_by structural stmts => stmts

/-- Statements that differ in names do the same. -/
theorem Stmt.run_alpha (hcall : call.Sound c.dialect) (hsame : call.Parallel c.dialect) :
    ∀ {s₁ s₁' : Stmt} {p : Pairing} {v v' : Sight} {inLoop : Bool}, p.Joins c.dialect v v' →
      s₁.AlphaEq c.dialect p s₁' → s₁.Fits c.dialect v inLoop → s₁'.Fits c.dialect v' inLoop →
        Stmt.Parallel c call p v v' s₁ s₁'
  | .expr line e, _, p, v, v', inLoop, hp, halpha, h, h' => by
      cases halpha with
      | expr _ line' he =>
          intro s s' hs
          rw [Stmt.Fits] at h h'
          rw [Stmt.run, Stmt.run, Pairing.after_eq rfl]
          refine Both.counted hs fun s₀ s₀' hs₀ => ?_
          refine (Expr.run_alpha hcall hsame hp he h h' hs₀).bind fun ws t ws' t' hws => ?_
          obtain rfl := hws.values
          -- The expression has no value on either side.
          rw [List.isEmpty_iff_length_eq_zero.mpr hws.length, if_pos rfl, if_pos rfl]
          exact SameFlow.stays (hs₀.evaluated hws).toMirror
  | .assign line targets value, _, p, v, v', inLoop, hp, halpha, h, h' => by
      cases halpha with
      | assign _ line' htargets hvalue =>
          rw [Stmt.Fits] at h h'
          exact Stmt.parallel_assign hcall hsame hp htargets hvalue h.1 h'.1
  | .decl line vars value, _, p, v, v', inLoop, hp, halpha, h, h' =>
      Stmt.parallel_decl hcall hsame hp halpha h h' rfl
  | .func _ _ _ _ _, _, p, v, v', inLoop, _, halpha, _, _ => by
      cases halpha with
      | func _ line' _ name' _ _ _ =>
          intro s s' hs
          rw [Stmt.run, Stmt.run, Pairing.after_eq rfl]
          exact Both.counted hs fun s₀ s₀' hs₀ => SameFlow.stays hs₀.toMirror
  | .cond line test body, _, p, v, v', inLoop, hp, halpha, h, h' => by
      cases halpha with
      | cond _ line' htest hbody =>
          intro s s' hs
          rw [Stmt.Fits] at h h'
          rw [Stmt.run, Stmt.run, Pairing.after_eq rfl]
          refine Both.counted hs fun s₀ s₀' hs₀ => ?_
          refine (Expr.runSingle_alpha hcall hsame hp htest h.1 h'.1 hs₀).bind ?_
          rintro w t _ t' ⟨rfl, ht⟩
          split
          · exact SameFlow.stays ht.toMirror
          · refine (Block.run_alpha hcall hsame hp hbody h.2 h'.2 t t' ht).mono ?_
            rintro flow u _ u' ⟨rfl, hu⟩
            exact SameFlow.stays hu.toMirror
  | .switch line subject cases, _, p, v, v', inLoop, hp, halpha, h, h' => by
      cases halpha with
      | switch _ line' hsubject hcases =>
          intro s s' hs
          rw [Stmt.Fits] at h h'
          rw [Stmt.run, Stmt.run, Pairing.after_eq rfl]
          refine Both.counted hs fun s₀ s₀' hs₀ => ?_
          refine (Expr.runSingle_alpha hcall hsame hp hsubject h.1 h'.1 hs₀).bind ?_
          rintro w t _ t' ⟨rfl, ht⟩
          refine (Case.runSeq_alpha hcall hsame hp hcases h.2 h'.2 _ t t' ht).mono ?_
          rintro flow u _ u' ⟨rfl, hu⟩
          exact SameFlow.stays hu.toMirror
  | .loop line ⟨preLine, pre⟩ test post body, _, p, v, v', inLoop, hp, halpha, h, h' => by
      cases halpha with
      | loop _ line' _ preLine' hpre htest hbody hpost =>
          rw [Stmt.Fits] at h h'
          rcases h with ⟨hfree, hfits, hyields, hround, hclose⟩
          rcases h' with ⟨hfree', hfits', hyields', hround', hclose'⟩
          have hin := hp.enter hfree hfree' hfits hfits' hpre
          -- Behind the init parts the pairs are those declared there as well.
          have hloop := hin.afterSeq hfits hfits' hpre
          exact Stmt.parallel_loop hcall hsame hp hin hloop hfits hfits' hyields hyields'
            (Stmt.runSeq_alpha hcall hsame hin hpre hfits hfits') htest
            (Block.run_alpha hcall hsame hloop hbody hround hround')
            (Block.run_alpha hcall hsame hloop hpost hclose hclose')
  | .brk _, _, p, v, v', inLoop, _, halpha, _, _ => by
      cases halpha with
      | brk _ line' =>
          intro s s' hs
          rw [Stmt.run, Stmt.run, Pairing.after_eq rfl]
          exact Both.counted hs fun s₀ s₀' hs₀ => SameFlow.stays hs₀.toMirror
  | .cont _, _, p, v, v', inLoop, _, halpha, _, _ => by
      cases halpha with
      | cont _ line' =>
          intro s s' hs
          rw [Stmt.run, Stmt.run, Pairing.after_eq rfl]
          exact Both.counted hs fun s₀ s₀' hs₀ => SameFlow.stays hs₀.toMirror
  | .block b, _, p, v, v', inLoop, hp, halpha, h, h' => by
      cases halpha with
      | block hb =>
          intro s s' hs
          rw [Stmt.Fits] at h h'
          rw [Stmt.run, Stmt.run, Pairing.after_eq rfl]
          refine Both.counted hs fun s₀ s₀' hs₀ => ?_
          refine (Block.run_alpha hcall hsame hp hb h h' s₀ s₀' hs₀).mono ?_
          rintro flow u _ u' ⟨rfl, hu⟩
          exact SameFlow.stays hu.toMirror
  | .label _ _, _, _, _, _, _, _, halpha, _, _ => by cases halpha
  | .stackAssign _ _, _, _, _, _, _, _, halpha, _, _ => by cases halpha
termination_by structural s => s

/-- Cases equal up to names run in parallel. -/
theorem Case.runSeq_alpha (hcall : call.Sound c.dialect) (hsame : call.Parallel c.dialect) :
    ∀ {cases cases' : List Case} {p : Pairing} {v v' : Sight} {inLoop : Bool}
      {seen : List Word}, p.Joins c.dialect v v' →
      Case.AlphaEqSeq c.dialect p cases cases' → Case.FitsSeq c.dialect v inLoop seen cases →
      Case.FitsSeq c.dialect v' inLoop seen cases' →
        Case.ParallelSeq c call p v v' cases cases'
  | [], _, p, v, v', _, _, _, halpha, _, _ => by
      cases halpha
      intro value s s' hs
      rw [Case.runSeq, Case.runSeq]
      exact ⟨rfl, hs⟩
  | ⟨line, none, body⟩ :: rest, _, p, v, v', _, _, hp, halpha, h, h' => by
      cases halpha with
      | cons _ line' _ hbody hrest =>
          intro value s s' hs
          rw [Case.FitsSeq] at h h'
          rw [Case.runSeq, Case.runSeq]
          exact Block.run_alpha hcall hsame hp hbody h.1 h'.1 s s' hs
  | ⟨line, some l, body⟩ :: rest, _, p, v, v', _, _, hp, halpha, h, h' => by
      cases halpha with
      | cons _ line' _ hbody hrest =>
          intro value s s' hs
          rw [Case.FitsSeq] at h h'
          rcases h with ⟨w, hw, _, hfits, hmore⟩
          rcases h' with ⟨w', hw', _, hfits', hmore'⟩
          -- The value of a case is a literal, and so the same.
          obtain rfl := Except.ok.inj (hw.symm.trans hw')
          rw [Case.runSeq, Case.runSeq]
          refine Both.bind (R := fun a t a' t' => a = w ∧ a' = w ∧ t = s ∧ t' = s') ?_ ?_
          · rw [Run.literal, hw]
            exact ⟨rfl, rfl, rfl, rfl⟩
          · rintro _ _ _ _ ⟨rfl, rfl, rfl, rfl⟩
            split
            · exact Block.run_alpha hcall hsame hp hbody hfits hfits' _ _ hs
            · exact Case.runSeq_alpha hcall hsame hp hrest hmore hmore' value _ _ hs
termination_by structural cases => cases

end

end Statements

section Calls

theorem FunctionDef.AlphaEq.names_length {d : Dialect} {fs : FunctionPairs} {f f' : FunctionDef}
    (h : f.AlphaEq d fs f') : f'.names.length = f.names.length := by
  simp only [FunctionDef.names, List.length_map, List.length_append, h.params, h.returns]

/-- The variables that two functions start with. -/
theorem FunctionDef.AlphaEq.frames {d : Dialect} {fs : FunctionPairs} {f f' : FunctionDef}
    {v v' : Sight} (h : f.AlphaEq d fs f')
    (hp : Pairing.Joins d ⟨fs, [f.names.zip f'.names]⟩ v v') {args : List Word}
    (hargs : args.length = f.params.length) : ∀ q ∈ f.names.zip f'.names,
      Environment.get? q.2 [f'.frame args] = Environment.get? q.1 [f.frame args] := by
  intro q hq
  have hpairs : ∀ r ∈ f.names.zip f'.names, r.1 = q.1 ↔ r.2 = q.2 := fun r hr =>
    hp.unique (by simpa using hr) (by simpa using hq)
  have hlookup := lookup_zip_pairs (args ++ List.replicate f.returns.length 0) hpairs
  rw [List.map_fst_zip (Nat.le_of_eq h.names_length.symm),
    List.map_snd_zip (Nat.le_of_eq h.names_length)] at hlookup
  rw [f.frame_eq hargs, f'.frame_eq (hargs.trans h.params.symm), h.returns,
    Environment.get?_declareAll _ (List.cons_ne_nil _ _),
    Environment.get?_declareAll _ (List.cons_ne_nil _ _), hlookup]
  rfl

/-- What two functions return. -/
theorem Both.sameResults {f f' : FunctionDef} {env env' : Environment} {s s' : RunState}
    (hparams : f'.params.length = f.params.length)
    (hreturns : f'.returns.length = f.returns.length) (h : Environment.Holds [f.names] env)
    (h' : Environment.Holds [f'.names] env')
    (hvars : ∀ q ∈ f.names.zip f'.names, env'.get? q.2 = env.get? q.1) :
    Both SameMachine (Run.results f env s) (Run.results f' env' s') fun ws t ws' t' =>
      ws' = ws ∧ t = s ∧ t' = s' := by
  cases h with
  | @cons _ frame _ _ hframe hrest =>
    cases h' with
    | @cons _ frame' _ _ hframe' hrest' =>
      cases hrest
      cases hrest'
      rcases Run.results_eq_mapM f frame with ⟨g, hresults, hg⟩
      rcases Run.results_eq_mapM f' frame' with ⟨g', hresults', hg'⟩
      -- Each frame is a single scope, and its results are looked up there.
      have hget : ∀ (x : String) (t : Table String Word), Environment.get? x [t] = t.get? x := by
        intro x t
        rw [Environment.get?_cons, Environment.get?, Option.or_none]
      simp only [hget] at hvars
      -- The result variables are read one by one. The induction is on the first list, with the
      -- second.
      have hall : ∀ vars vars' : List TypedName, vars'.length = vars.length →
          (∀ q ∈ (vars.map (·.name)).zip (vars'.map (·.name)), q ∈ f.names.zip f'.names) →
          Both SameMachine ((vars.mapM g : Run (List Word)) s)
            ((vars'.mapM g' : Run (List Word)) s')
            fun ws t ws' t' => ws' = ws ∧ t = s ∧ t' = s' := by
        intro vars
        induction vars with
        | nil =>
            intro vars' hlength _
            obtain rfl := List.length_eq_zero_iff.mp hlength
            rw [List.mapM_nil, List.mapM_nil]
            exact ⟨rfl, rfl, rfl⟩
        | cons x rest ih =>
            intro vars' hlength hmem
            obtain ⟨x', rest', rfl⟩ := List.exists_cons_of_length_eq_add_one hlength
            rw [List.map_cons, List.map_cons, List.zip_cons_cons, List.forall_mem_cons] at hmem
            have hx := (hframe x.name).mpr (List.of_mem_zip hmem.1).1
            rcases Option.isSome_iff_exists.mp hx with ⟨w, hw⟩
            rw [List.mapM_cons, List.mapM_cons, hg x w hw, hg' x' w ((hvars _ hmem.1).trans hw)]
            refine Both.bind (R := fun a t a' t' => a = w ∧ a' = w ∧ t = s ∧ t' = s')
              ⟨rfl, rfl, rfl, rfl⟩ ?_
            rintro _ _ _ _ ⟨rfl, rfl, rfl, rfl⟩
            refine (ih rest' (Nat.succ.inj hlength) hmem.2).bind ?_
            rintro ws _ _ _ ⟨rfl, rfl, rfl⟩
            exact ⟨rfl, rfl, rfl⟩
      rw [hresults, hresults']
      refine hall f.returns f'.returns hreturns fun q hq => ?_
      rw [FunctionDef.names, FunctionDef.names, List.map_append, List.map_append,
        List.zip_append (by rw [List.length_map, List.length_map, hparams])]
      exact List.mem_append_right _ hq

/-- Calls of functions that differ in names do the same. -/
theorem FunctionDef.call_alpha (c : RunContext) :
    ∀ depth, Caller.Parallel c.dialect (FunctionDef.call c depth) := by
  intro depth
  -- The induction is on the depth of calls. At zero both give up.
  induction depth with
  | zero =>
      intro fs f f' args s s' _ _ _ _ _ _ _ hmachine _
      exact ⟨rfl, hmachine.symm⟩
  | succ depth ih =>
      intro fs f f' args s s' hfit hfit' hnodup hnodup' halpha hmem hargs hmachine hsteps
      rcases Pairing.Joins.callee hfit hfit' hnodup hnodup' halpha hmem with
        ⟨around, v, v', hf, hp, hvars, hvars', hin, hin', hbody, hbody'⟩
      -- A body does not depend on functions out of its sight.
      have hlexical := Block.run_lexical (FunctionDef.call_lexical c depth) hp.distinct hp.fit hin
        hbody
      have hlexical' := Block.run_lexical (FunctionDef.call_lexical c depth) hp.distinct' hp.fit'
        hin' hbody'
      rw [FunctionDef.call, FunctionDef.call, hlexical, hlexical']
      refine Both.bind (R := fun outer t outer' t' => outer = s.env ∧ outer' = s'.env ∧
        t = { s with env := [f.frame args] } ∧ t' = { s' with env := [f'.frame args] })
        ⟨rfl, rfl, rfl, rfl⟩ ?_
      rintro _ _ _ _ ⟨rfl, rfl, rfl, rfl⟩
      -- Both frames start with the arguments, and with zeros for the results.
      have hstart : Lockstep ⟨around, [f.names.zip f'.names]⟩ v v'
          { s with env := [f.frame args] } { s' with env := [f'.frame args] } := by
        refine ⟨⟨hmachine, hsteps, fun q hq => ?_⟩, ?_, ?_⟩
        · exact hf.frames hp hargs q (by simpa using hq)
        · rw [hvars]
          exact f.frame_holds hargs
        · rw [hvars']
          exact f'.frame_holds (hargs.trans hf.params.symm)
      have hrun := Block.run_alpha (FunctionDef.call_sound c depth) ih
        hp hf.body hbody hbody' _ _ hstart
      -- Both bodies do the same by the induction.
      refine hrun.bind ?_
      rintro flow t _ t' ⟨rfl, ht⟩
      refine Both.bind (R := fun inner u inner' u' => inner = t.env ∧ inner' = t'.env ∧
        u = { t with env := s.env } ∧ u' = { t' with env := s'.env }) ⟨rfl, rfl, rfl, rfl⟩ ?_
      rintro _ _ _ _ ⟨rfl, rfl, rfl, rfl⟩
      -- The results are read from both frames.
      refine (Both.sameResults hf.params hf.returns (hvars ▸ ht.holds) (hvars' ▸ ht.holds')
        fun q hq => ht.vars q (by simpa using hq)).mono ?_
      rintro ws _ _ _ ⟨rfl, rfl, rfl⟩
      exact ⟨rfl, ht.machine, ht.steps⟩

/-- Programs that differ in names have the same result, whatever the budget. -/
theorem interpret_alpha {d : Dialect} {code code' : Block} (h : code.Fits d .empty false)
    (h' : code'.Fits d .empty false) (halpha : code.AlphaEq d .empty code') (limits : Limits)
    (calldata : List UInt8) :
    interpret d limits calldata code' = interpret d limits calldata code := by
  -- Both runs start with nothing in sight.
  have hstart : Lockstep .empty .empty .empty ⟨.initial calldata, 0, []⟩
      ⟨.initial calldata, 0, []⟩ :=
    ⟨⟨rfl, rfl, fun _ hq => absurd hq List.not_mem_nil⟩, .nil, .nil⟩
  have hboth := Block.run_alpha (c := ⟨d, limits, true⟩) (FunctionDef.call_sound _ limits.maxSteps)
    (FunctionDef.call_alpha _ limits.maxSteps) (Pairing.Joins.empty d) halpha h h' _ _ hstart
  have hfunctions : Sight.empty.functions = [] := rfl
  rw [hfunctions] at hboth
  simp only [interpret]
  generalize code.run _ _ [] _ = r at hboth ⊢
  generalize code'.run _ _ [] _ = r' at hboth ⊢
  -- Runs with one outcome have one result.
  cases r with
  | ok flow s =>
      cases r' with
      | ok flow' s' =>
          rcases hboth with ⟨_, hs⟩
          simp only [hs.machine]
      | error halt s' => exact False.elim hboth
  | error halt s =>
      cases r' with
      | ok flow' s' => exact False.elim hboth
      | error halt' s' =>
          rcases hboth with ⟨rfl, hmachine⟩
          cases halt with
          | ended why => simp only [hmachine]
          | failed why => rfl

end Calls

end YulToolchain
