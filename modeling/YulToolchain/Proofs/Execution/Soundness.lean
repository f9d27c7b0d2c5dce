import YulToolchain.Proofs.Execution.Environment
import YulToolchain.Proofs.Execution.Lexical
import YulToolchain.Proofs.Execution.Operation
import YulToolchain.Proofs.Static.Analyzed

/-!
# Well-Formed Code Does Not Go Wrong

Code that fits runs without any of the faults that the analysis is there to rule
out.

The invariant relates the variables that exist at run time to those in sight,
scope by scope. A statement that goes on with the next one has declared just what
the text says. A statement that leaves a loop may have declared less, but nothing
that was in sight before is lost, so the enclosing block can close its scope as if
nothing had happened.

Besides that, a run keeps every variable that it does not assign. This is what all
knowledge about variables rests on, and comes for free with the invariant.

## Main definitions

* `Steady`: Variables and call data are as before.
* `Keeps`: The variables that are not assigned are as before.
* `Caller.Sound`, `Reached`: What holds after a call and after a statement.
* `Closes`: A scope can be closed without any effect outside of it.
* `Block.KeepsOrder`, `Stmt.KeepsOrder`: Running code keeps the variables in order.

## Theorems

* `Expr.run_sound`: Expressions have as many values as the text says.
* `Stmt.KeepsOrder.assign`, `Stmt.KeepsOrder.loop` and so on: One for each kind of statement, from
  what is known of its parts.
* `Block.run_sound`, `Stmt.runSeq_sound`, `Stmt.run_sound`: Statements keep the
  variables in order.
* `FunctionDef.call_sound`: Calls return as many values as the function has return
  variables.
-/

namespace YulToolchain

/-- Variables and call data are as before. -/
structure Steady (s t : RunState) : Prop where
  env : t.env = s.env
  calldata : t.machine.calldata = s.machine.calldata

theorem Steady.refl (s : RunState) : Steady s s := ⟨rfl, rfl⟩

theorem Steady.trans {s t u : RunState} (h : Steady s t) (h' : Steady t u) : Steady s u :=
  ⟨h'.env.trans h.env, h'.calldata.trans h.calldata⟩

theorem Steady.holds {vars : List (List String)} {s t : RunState} (h : Steady s t)
    (henv : Environment.Holds vars s.env) : Environment.Holds vars t.env := by
  rw [h.env]
  exact henv

/-- Counting a step. -/
theorem Ends.stepped {α : Type} {c : RunContext} {m : Run α} {s : RunState}
    {Q : α → RunState → Prop} (h : ∀ t, Steady s t → Ends (m t) Q) :
    Ends ((Run.step c >>= fun _ => m) s) Q := by
  refine Ends.step.bind ?_
  rintro _ _ rfl
  exact h _ ⟨rfl, rfl⟩

/-- A new scope has no variables yet. -/
theorem Environment.Holds.enter {v : Sight} {s : RunState} (h : Environment.Holds v.vars s.env)
    (stmts : List Stmt) : Environment.Holds (v.enter stmts).vars
      ({ s with env := .empty :: s.env } : RunState).env := h.push

/-- The call data and those of some variables that are not among the given names
    are as before. -/
structure Keeps (visible names : List String) (s t : RunState) : Prop where
  calldata : t.machine.calldata = s.machine.calldata
  same : ∀ x ∈ visible, x ∉ names → t.env.get? x = s.env.get? x

namespace Keeps

variable {visible visible' names names' : List String} {s t u : RunState}

theorem of_steady (h : Steady s t) : Keeps visible names s t :=
  ⟨h.calldata, fun x _ _ => by rw [h.env]⟩

/-- Kept one after the other, with more in sight later. -/
theorem trans (h : Keeps visible names s t) (h' : Keeps visible' names' t u)
    (hvisible : visible ⊆ visible') : Keeps visible (names ++ names') s u := by
  refine ⟨h'.calldata.trans h.calldata, fun x hx hn => ?_⟩
  rw [List.mem_append, not_or] at hn
  rw [h'.same x (hvisible hx) hn.2, h.same x hx hn.1]

theorem mono (h : Keeps visible names s t) (hnames : names ⊆ names') :
    Keeps visible names' s t :=
  ⟨h.calldata, fun x hx hn => h.same x hx fun hx' => hn (hnames hx')⟩

/-- Giving values to some variables leaves all others as they were. -/
theorem of_lookup {values : List Word} (hst : Steady s t)
    (hdata : u.machine.calldata = t.machine.calldata)
    (hget : ∀ x ∈ visible,
      u.env.get? x = ((names.zip values).reverse.lookup x).or (t.env.get? x)) :
    Keeps visible names s u := by
  refine ⟨hdata.trans hst.calldata, fun x hx hn => ?_⟩
  have hx' : x ∉ (names.zip values).map (·.1) := by
    intro hmem
    rcases List.mem_map.mp hmem with ⟨p, hp, rfl⟩
    exact hn (List.of_mem_zip hp).1
  rw [hget x hx, lookup_reverse_eq_none hx', Option.none_or, hst.env]

end Keeps

/-- Calls of well-formed functions return as many values as the functions have
    return variables. -/
def Caller.Sound (d : Dialect) (call : Caller) : Prop :=
  ∀ (fs : FunctionScopes) (name : String) (f : FunctionDef) (args : List Word) (s : RunState),
    fs.Fit d → (fs.flatten.map (·.name)).Nodup → fs.find? name = some f →
    args.length = f.params.length →
      Ends (call fs f args s) fun values t => values.length = f.returns.length ∧ Steady s t

section Expressions

variable {c : RunContext} {call : Caller} {v : Sight}

/-- An instruction leaves as many words as it says. -/
theorem Ends.instruction {op : Instruction} {args : List Word} {s : RunState}
    (hstack : op.isStackManipulation = false) (hargs : args.length = op.args) :
    Ends (Run.instruction c op args s) fun values t => values.length = op.returns ∧ Steady s t := by
  have h := op.execute_performs c.limits hstack hargs s.machine
  simp only [Run.instruction, Run.onMachine, Bind.bind, EStateM.bind]
  cases hr : op.execute c.limits args s.machine with
  | ok r machine =>
      rw [hr] at h
      exact ⟨h.ends, rfl, h.advances.calldata⟩
  | error halt machine =>
      rw [hr] at h
      exact h.ends

theorem Ends.literal {l : Literal} {w : Word} (h : l.value = .ok w) {s : RunState} :
    Ends (Run.literal l s) fun w' t => w' = w ∧ t = s := by
  rw [Run.literal, h]
  exact ⟨rfl, rfl⟩

theorem Ends.single {line : Nat} {values : List Word} {s : RunState} (h : values.length = 1) :
    Ends (Run.single line values s) fun value t => values = [value] ∧ t = s := by
  match values, h with
  | [_], _ => exact ⟨rfl, rfl⟩

/-- A question about an object depends on the text of the question alone. -/
theorem Run.objectQuery_means {args : List Expr} (hlength : args.length = 1)
    (htext : ∀ e ∈ args, e.Textual) (function : String) :
    ∃ w, ∀ line t, Run.objectQuery line function args t = .ok [w] t := by
  match args, hlength with
  | [e], _ =>
      have he := htext e List.mem_cons_self
      cases e with
      | literal l =>
          rcases he.2 with ⟨bytes, hbytes⟩
          simp only [Run.objectQuery, hbytes]
          exact ⟨_, fun _ _ => rfl⟩
      | _ => exact False.elim he

/-- A question about an object is answered if it names one. -/
theorem Ends.objectQuery {line : Nat} {function : String} {args : List Expr} {s : RunState}
    (hlength : args.length = 1) (htext : ∀ e ∈ args, e.Textual) :
    Ends (Run.objectQuery line function args s) fun values t =>
      values.length = 1 ∧ Steady s t := by
  rcases Run.objectQuery_means hlength htext function with ⟨w, hw⟩
  rw [hw line s]
  exact ⟨rfl, .refl s⟩

/-- A variable that has a value. -/
theorem Expr.run_ident {call : Caller} {fs : FunctionScopes} {line : Nat} {x : String} {w : Word}
    {s : RunState} (h : s.env.get? x = some w) :
    (Expr.ident line x).run c call fs s = .ok [w] s := by
  simp only [Expr.run, Bind.bind, EStateM.bind, Run.variableValue_some h]
  rfl

theorem Expr.run_literal {call : Caller} {fs : FunctionScopes} {l : Literal} {w : Word}
    {s : RunState} (h : l.value = .ok w) : (Expr.literal l).run c call fs s = .ok [w] s := by
  simp only [Expr.run, Run.literal, h]
  rfl

/-- A single value on both sides. -/
theorem Both.single {H : RunState → RunState → Prop} {line line' : Nat} {values : List Word}
    {s s' : RunState} (h : values.length = 1) :
    Both H (Run.single line values s) (Run.single line' values s') fun w t w' t' =>
      values = [w] ∧ w' = w ∧ t = s ∧ t' = s' := by
  match values, h with
  | [_], _ => exact ⟨rfl, rfl, rfl, rfl⟩

mutual

/-- A well-formed expression has as many values as the text says. -/
theorem Expr.run_sound (hcall : call.Sound c.dialect) (hv : v.Distinct)
    (hfit : v.functions.Fit c.dialect) : ∀ {e : Expr} {n : Nat} {s : RunState},
    e.Yields c.dialect v n → Environment.Holds v.vars s.env →
      -- By recursion on the expression; nothing but the machine changes.
      Ends (e.run c call v.functions s) fun values t => values.length = n ∧ Steady s t
  | .literal l, n, s, h, _ => by
      rw [Expr.Yields] at h
      rcases h with ⟨⟨w, hw⟩, rfl⟩
      rw [Expr.run_literal hw]
      exact ⟨rfl, .refl s⟩
  | .ident line x, n, s, h, henv => by
      rw [Expr.Yields] at h
      rcases h with ⟨hx, rfl⟩
      rcases henv.get?_some hx with ⟨w, hw⟩
      rw [Expr.run_ident hw]
      exact ⟨rfl, .refl s⟩
  | .instr _ op args, n, s, h, henv => by
      rw [Expr.Yields] at h
      rcases h with ⟨hstack, hlength, rfl, hargs⟩
      rw [Expr.run]
      refine (Expr.runArgs_sound hcall hv hfit hargs henv).bind fun values t ht => ?_
      refine (Ends.instruction hstack (ht.1.trans hlength)).mono fun values' u hu => ?_
      exact ⟨hu.1, ht.2.trans hu.2⟩
  | .call line name args, n, s, h, henv => by
      simp only [Expr.Yields] at h
      rw [Expr.run]
      rcases hb : c.dialect.builtin? name with _ | b
      -- A function is called with as many arguments as it takes.
      · simp only [hb] at h ⊢
        rcases h with ⟨f, hf, hlength, rfl, hargs⟩
        simp only [hf]
        refine (Expr.runArgs_sound hcall hv hfit hargs henv).bind fun values t ht => ?_
        rw [if_pos (ht.1.trans hlength)]
        refine (hcall v.functions name f values t hfit hv.functionNames_nodup hf
          (ht.1.trans hlength)).mono fun values' u hu => ?_
        exact ⟨hu.1, ht.2.trans hu.2⟩
      · simp only [hb] at h ⊢
        rcases h with ⟨hlength, rfl, hargs⟩
        -- A builtin is an instruction, a query or an effect on the stack.
        rcases Dialect.builtin?_cases hb with ⟨b', hproper, rfl | rfl⟩
        · rcases hproper with ⟨op, hstack, rfl⟩ | rfl | rfl | rfl
          · refine (Expr.runArgs_sound hcall hv hfit hargs henv).bind fun values t ht => ?_
            refine (Ends.instruction hstack (ht.1.trans hlength)).mono fun values' u hu => ?_
            exact ⟨hu.1, ht.2.trans hu.2⟩
          · exact Ends.objectQuery hlength hargs
          · exact Ends.objectQuery hlength hargs
          · refine (Expr.runArgs_sound hcall hv hfit hargs henv).bind fun values t ht => ?_
            have hstack : Instruction.codecopy.isStackManipulation = false := rfl
            refine (Ends.instruction hstack (ht.1.trans hlength)).mono fun values' u hu => ?_
            exact ⟨hu.1, ht.2.trans hu.2⟩
        · exact ⟨List.length_replicate, .refl s⟩

/-- Arguments give as many values. -/
theorem Expr.runArgs_sound (hcall : call.Sound c.dialect) (hv : v.Distinct)
    (hfit : v.functions.Fit c.dialect) : ∀ {es : List Expr} {s : RunState},
    Expr.YieldOnes c.dialect v es → Environment.Holds v.vars s.env →
      Ends (Expr.runArgs c call v.functions es s) fun values t =>
        values.length = es.length ∧ Steady s t
  | [], s, _, _ => by
      rw [Expr.runArgs]
      exact ⟨rfl, .refl s⟩
  | e :: rest, s, h, henv => by
      rw [Expr.YieldOnes] at h
      rw [Expr.runArgs]
      refine (Expr.runArgs_sound hcall hv hfit h.2 henv).bind fun values t ht => ?_
      refine (Expr.run_sound hcall hv hfit h.1 (ht.2.holds henv)).bind fun ones u hu => ?_
      refine (Ends.single hu.1).bind ?_
      rintro value _ ⟨_, rfl⟩
      refine ⟨?_, ht.2.trans hu.2⟩
      rw [List.length_cons, List.length_cons, ht.1]

end

/-- A single value. -/
theorem Expr.runSingle_sound (hcall : call.Sound c.dialect) (hv : v.Distinct)
    (hfit : v.functions.Fit c.dialect) {e : Expr} {s : RunState}
    (h : e.Yields c.dialect v 1) (henv : Environment.Holds v.vars s.env) :
    Ends (e.runSingle c call v.functions s) fun _ t => Steady s t := by
  rw [Expr.runSingle]
  refine (Expr.run_sound hcall hv hfit h henv).bind fun values t ht => ?_
  refine (Ends.single ht.1).mono ?_
  rintro value _ ⟨_, rfl⟩
  exact ht.2

end Expressions

/-- The variables assigned by some statements and inside them. -/
def Stmt.assignedSeq (stmts : List Stmt) : List String :=
  (Stmt.allStmtsSeq stmts).flatMap Stmt.assignsHere

/-- The variables assigned by a statement and inside it. -/
def Stmt.assignedIn (s : Stmt) : List String :=
  s.assignsHere ++ s.allInner.flatMap Stmt.assignsHere

/-- The variables assigned inside some cases. -/
def Case.assignedSeq (cases : List Case) : List String :=
  (Case.allStmtsSeq cases).flatMap Stmt.assignsHere

/-- Assigned names of the first statement and of the others. -/
@[simp]
theorem Stmt.assignedSeq_cons (s : Stmt) (rest : List Stmt) :
    Stmt.assignedSeq (s :: rest) = s.assignedIn ++ Stmt.assignedSeq rest := by
  simp only [Stmt.assignedSeq, Stmt.assignedIn, Stmt.allStmtsSeq, List.flatMap_cons,
    List.flatMap_append, List.append_assoc]

/-- Assigned names of the first case and of the others. -/
@[simp]
theorem Case.assignedSeq_cons (line : Nat) (value : Option Literal) (body : Block)
    (rest : List Case) :
    Case.assignedSeq (⟨line, value, body⟩ :: rest) = body.assigned ++ Case.assignedSeq rest := by
  simp only [Case.assignedSeq, Block.assigned, Case.allStmtsSeq, List.flatMap_append]

theorem Block.assigned_eq (line : Nat) (stmts : List Stmt) :
    (⟨line, stmts⟩ : Block).assigned = Stmt.assignedSeq stmts := by
  simp only [Block.assigned, Block.allStmts, Stmt.assignedSeq]

/-- What holds after a statement or several. Something new may have been declared,
    which is exactly what the text says if control goes on with the next
    statement. -/
structure Reached (v after : Sight) (inLoop : Bool) (names : List String) (s : RunState)
    (flow : Flow) (t : RunState) : Prop where
  declared : ∃ extra, (∀ x ∈ extra, x ∉ v.taken) ∧
    Environment.Holds (v.declare extra).vars t.env ∧ (flow = .next → v.declare extra = after)
  leaves : flow ≠ .next → inLoop = true
  keeps : Keeps v.visible names s t

/-- What holds after a block: just the variables from before exist. -/
structure Left (v : Sight) (inLoop : Bool) (names : List String) (s : RunState) (flow : Flow)
    (t : RunState) : Prop where
  holds : Environment.Holds v.vars t.env
  leaves : flow ≠ .next → inLoop = true
  keeps : Keeps v.visible names s t

section Reach

variable {v after : Sight} {inLoop : Bool} {names : List String} {s t : RunState} {flow : Flow}

/-- Where nothing is declared, leaving is reaching. -/
theorem Left.reached (h : Left v inLoop names s flow t) : Reached v v inLoop names s flow t := by
  refine ⟨⟨[], fun x hx => absurd hx (List.not_mem_nil), ?_, fun _ => v.declare_nil⟩, h.leaves,
    h.keeps⟩
  rw [v.declare_nil]
  exact h.holds

/-- Falling through leaves the variables that were declared. -/
theorem Reached.holds (h : Reached v after inLoop names s .next t) :
    Environment.Holds after.vars t.env := by
  rcases h.declared with ⟨extra, _, henv, hafter⟩
  rw [← hafter rfl]
  exact henv

/-- One statement after another. -/
theorem Reached.next {v' : Sight} {names' : List String} {u : RunState} {flow' : Flow}
    (h : Reached v v' inLoop names s .next t) (h' : Reached v' after inLoop names' t flow' u) :
    Reached v after inLoop (names ++ names') s flow' u := by
  -- Both parts declare something, the second one in the sight of the first.
  rcases h.declared with ⟨extra, hextra, _, hv'⟩
  rcases h'.declared with ⟨extra', hextra', henv', hafter⟩
  obtain rfl := hv' rfl
  -- What was taken stays taken.
  have hsub : ∀ x ∈ v.taken, x ∈ (v.declare extra).taken := by
    intro x hx
    rw [Sight.mem_taken] at hx ⊢
    rw [Sight.functionNames, Sight.functions_declare, Sight.hidden_declare]
    rcases hx with hx | hx | hx
    · exact Or.inl hx
    · exact Or.inr (Or.inl (v.visible_subset_declare extra hx))
    · exact Or.inr (Or.inr hx)
  refine ⟨⟨extra ++ extra', ?_, ?_, ?_⟩, h'.leaves,
    h.keeps.trans h'.keeps (v.visible_subset_declare extra)⟩
  · intro x hx
    rcases List.mem_append.mp hx with hx | hx
    · exact hextra x hx
    · exact fun hx' => hextra' x hx (hsub x hx')
  · rw [← Sight.declare_declare]
    exact henv'
  -- Falling through both.
  · intro hflow
    rw [← Sight.declare_declare, hafter hflow]

/-- A statement that leaves a loop. -/
theorem Reached.stop {v' : Sight} {names' : List String} (h : Reached v v' inLoop names s flow t)
    (hflow : flow ≠ .next) (hnames : names ⊆ names') : Reached v after inLoop names' s flow t := by
  rcases h.declared with ⟨extra, hextra, henv, _⟩
  exact ⟨⟨extra, hextra, henv, fun hnext => absurd hnext hflow⟩, h.leaves, h.keeps.mono hnames⟩

theorem Reached.mono {names' : List String} (h : Reached v after inLoop names s flow t)
    (hnames : names ⊆ names') : Reached v after inLoop names' s flow t :=
  ⟨h.declared, h.leaves, h.keeps.mono hnames⟩

/-- Wherever control goes on after a block, the variables are in order. -/
theorem Left.anyway {inLoop' : Bool} (h : Left v inLoop names s flow t) :
    Left v inLoop' names s .next t :=
  ⟨h.holds, fun hflow => absurd rfl hflow, h.keeps⟩

/-- Closing a scope leaves just the variables from before. -/
theorem Reached.close {stmts : List Stmt}
    (h : Reached (v.enter stmts) after inLoop names { s with env := .empty :: s.env } flow t) :
    Left v inLoop names s flow { t with env := t.env.tail } := by
  rcases h.declared with ⟨extra, hextra, henv, _⟩
  have hvars : ((v.enter stmts).declare extra).vars = extra :: v.vars := rfl
  rw [hvars] at henv
  refine ⟨henv.tail, h.leaves, h.keeps.calldata, fun x hx hn => ?_⟩
  have hx' : x ∉ extra := fun hmem =>
    hextra x hmem (Sight.mem_taken.mpr (Or.inr (Or.inl hx)))
  rw [show ({ t with env := t.env.tail } : RunState).env = t.env.tail from rfl,
    henv.get?_tail hx', h.keeps.same x hx hn]
  rfl

end Reach

/-- Leaving a scope drops its variables. -/
theorem Ends.inScope {α : Type} {m : Run α} {s : RunState} {Q : α → RunState → Prop}
    (h : Ends (m { s with env := .empty :: s.env }) fun a t => Q a { t with env := t.env.tail }) :
    Ends (Run.inScope m s) Q := by
  rw [Run.inScope]
  refine Ends.bind (P := fun _ t => t = { s with env := .empty :: s.env }) rfl ?_
  rintro _ _ rfl
  refine h.bind fun a t ht => ?_
  exact ht

/-- A scope can be closed without any effect on the variables outside of it. -/
def Closes (v : Sight) (t : RunState) : Prop :=
  ∃ extra, (∀ x ∈ extra, x ∉ v.visible) ∧ Environment.Holds (extra :: v.vars) t.env

theorem Closes.get?_tail {v : Sight} {t : RunState} (h : Closes v t) {x : String}
    (hx : x ∈ v.visible) : Environment.get? x t.env.tail = t.env.get? x := by
  rcases h with ⟨extra, hextra, hholds⟩
  exact hholds.get?_tail fun hmem => hextra x hmem hx

theorem Closes.holds {v : Sight} {t : RunState} (h : Closes v t) :
    Environment.Holds v.vars t.env.tail := by
  rcases h with ⟨extra, _, hholds⟩
  exact hholds.tail

/-- Statements of a block close its scope. -/
theorem Reached.closes {v after : Sight} {stmts : List Stmt} {inLoop : Bool}
    {names : List String} {s t : RunState} {flow : Flow}
    (h : Reached (v.enter stmts) after inLoop names s flow t) : Closes v t := by
  rcases h.declared with ⟨extra, hextra, hholds, _⟩
  refine ⟨extra, fun x hx hmem => hextra x hx ?_, hholds⟩
  exact Sight.mem_taken.mpr (Or.inr (Or.inl hmem))

/-- Behind the initialisation of a loop its scope has just what was declared there. -/
theorem Environment.Holds.closes {v : Sight} {stmts : List Stmt} {t : RunState}
    (hv : ((v.enter stmts).afterSeq stmts).Distinct)
    (h : Environment.Holds ((v.enter stmts).afterSeq stmts).vars t.env) : Closes v t := by
  rw [Sight.afterSeq_eq] at hv h
  refine ⟨Stmt.declaredSeq stmts, fun x hx hmem => ?_, h⟩
  have hnodup := hv.visible_nodup
  have hvisible : ((v.enter stmts).declare (Stmt.declaredSeq stmts)).visible
      = Stmt.declaredSeq stmts ++ v.visible := rfl
  rw [hvisible, List.nodup_append] at hnodup
  exact hnodup.2.2 x hx x hmem rfl

/-- Both runs leave their scopes. -/
theorem Both.inScope {α β : Type} {H : RunState → RunState → Prop} {m : Run α} {m' : Run β}
    {s s' : RunState} {Q : α → RunState → β → RunState → Prop}
    (h : Both H (m { s with env := .empty :: s.env }) (m' { s' with env := .empty :: s'.env })
      fun a t b t' => Q a { t with env := t.env.tail } b { t' with env := t'.env.tail }) :
    Both H (Run.inScope m s) (Run.inScope m' s') Q := by
  rw [Run.inScope, Run.inScope]
  refine Both.bind (R := fun _ t _ t' => t = { s with env := .empty :: s.env } ∧
    t' = { s' with env := .empty :: s'.env }) ⟨rfl, rfl⟩ ?_
  rintro _ _ _ _ ⟨rfl, rfl⟩
  exact h.bind fun a t b t' ht => ht

/-- Assignments to variables in sight succeed and change just those. -/
theorem Run.assignAll_eq {v : Sight} : ∀ {pairs : List (String × Word)} {s : RunState},
    (∀ p ∈ pairs, p.1 ∈ v.visible) → Environment.Holds v.vars s.env →
      ∃ env, Run.assignAll pairs s = .ok () { s with env } ∧ Environment.Holds v.vars env ∧
        ∀ x, env.get? x = (pairs.reverse.lookup x).or (s.env.get? x)
  | [], s, _, henv => ⟨s.env, rfl, henv, fun _ => rfl⟩
  | (x, w) :: rest, s, hvisible, henv => by
      -- The first assignment finds its variable, the others find theirs.
      rcases henv.assign? (w := w) (hvisible _ List.mem_cons_self) with ⟨env, hassign, henv'⟩
      have hone : Run.assign x w s = .ok () { s with env } := Run.assign_some hassign
      have hrest := Run.assignAll_eq (s := { s with env })
        (fun p hp => hvisible p (List.mem_cons_of_mem _ hp)) henv'
      rcases hrest with ⟨env', hrun, hholds, hget⟩
      refine ⟨env', ?_, hholds, fun y => ?_⟩
      · simp only [Run.assignAll, Bind.bind, EStateM.bind, hone]
        exact hrun
      · rw [hget y, Environment.get?_assign? hassign, List.reverse_cons, List.lookup_append]
        -- The last assignment to a name is what counts.
        cases List.lookup y rest.reverse with
        | some _ => rfl
        | none =>
            simp only [Option.none_or, List.lookup_cons, List.lookup_nil]
            by_cases h : y = x
            · simp only [h, if_true, beq_self_eq_true, Option.some_or]
            · simp only [h, if_false, beq_eq_false_iff_ne.mpr h, Option.none_or]

/-- Assigning variables in sight. -/
theorem Ends.assignAll {v : Sight} {pairs : List (String × Word)} {s : RunState}
    (hpairs : ∀ p ∈ pairs, p.1 ∈ v.visible) (henv : Environment.Holds v.vars s.env) :
    Ends (Run.assignAll pairs s) fun _ t => t.machine = s.machine ∧
      Environment.Holds v.vars t.env ∧
      ∀ x, t.env.get? x = (pairs.reverse.lookup x).or (s.env.get? x) := by
  rcases Run.assignAll_eq hpairs henv with ⟨env, hrun, hholds, hget⟩
  rw [hrun]
  exact ⟨rfl, hholds, hget⟩

/-- Declarations of names that are free add just those. -/
theorem Reached.declareAll {d : Dialect} {v : Sight} {inLoop : Bool} {names' : List String}
    {s t : RunState} {pairs : List (String × Word)} {names : List String}
    (hfree : v.Free d names) (hnames : pairs.map (·.1) = names)
    (henv : Environment.Holds v.vars s.env) (hst : Steady s t) :
    Reached v (v.declare names) inLoop names' s .next
      { t with env := t.env.declareAll pairs } := by
  have hholds := hst.holds henv
  refine ⟨⟨names, fun x hx => (hfree.2 x hx).2.2, ?_, fun _ => rfl⟩, fun hflow => absurd rfl hflow,
    hst.calldata, fun x hx _ => ?_⟩
  -- There may be no scope to declare in, when nothing is declared either.
  · rcases v with ⟨functions, _ | ⟨scope, outer⟩, hidden⟩
    · rw [show t.env = [] from List.forall₂_nil_left_iff.mp hholds]
      have hnil : ∀ pairs, Environment.declareAll pairs [] = [] := by
        intro pairs
        induction pairs with
        | nil => rfl
        | cons _ _ ih => exact ih
      rw [show ({ t with env := Environment.declareAll pairs [] } : RunState).env
        = Environment.declareAll pairs [] from rfl, hnil]
      exact .nil
    · rw [← hnames]
      exact Environment.Holds.declareAll pairs hholds
  -- Otherwise a variable in sight is not among the new names.
  · have hne : t.env ≠ [] := by
      intro hnil
      have := (hholds.isSome_get? x).mpr hx
      rw [hnil] at this
      exact absurd this Bool.noConfusion
    have hx' : x ∉ pairs.map (·.1) := by
      rw [hnames]
      exact fun hmem => (hfree.2 x hmem).2.2 (Sight.mem_taken.mpr (Or.inr (Or.inl hx)))
    rw [show ({ t with env := t.env.declareAll pairs } : RunState).env = t.env.declareAll pairs
      from rfl, Environment.get?_declareAll pairs hne, lookup_reverse_eq_none hx', hst.env]
    rfl

section Statements

variable {c : RunContext} {call : Caller}

/-- Steady before leaving. -/
theorem Left.of_steady {v : Sight} {inLoop : Bool} {names : List String} {s t u : RunState}
    {flow : Flow} (h' : Left v inLoop names t flow u) (h : Steady s t) :
    Left v inLoop names s flow u :=
  ⟨h'.holds, h'.leaves, h'.keeps.calldata.trans h.calldata, fun x hx hn => by
    rw [h'.keeps.same x hx hn, h.env]⟩

theorem Left.next {v : Sight} {inLoop : Bool} {names : List String} {s t : RunState}
    (henv : Environment.Holds v.vars s.env) (h : Steady s t) : Left v inLoop names s .next t :=
  ⟨by rw [h.env]; exact henv, fun hflow => absurd rfl hflow, .of_steady h⟩

/-- One block after another. -/
theorem Left.trans {v : Sight} {inLoop : Bool} {names names' : List String} {s t u : RunState}
    {flow : Flow} (h : Left v inLoop names s .next t) (h' : Left v inLoop names' t flow u) :
    Left v inLoop (names ++ names') s flow u :=
  ⟨h'.holds, h'.leaves, h.keeps.trans h'.keeps (List.Subset.refl _)⟩

theorem Left.mono {v : Sight} {inLoop : Bool} {names names' : List String} {s t : RunState}
    {flow : Flow} (h : Left v inLoop names s flow t) (hnames : names ⊆ names') :
    Left v inLoop names' s flow t :=
  ⟨h.holds, h.leaves, h.keeps.mono hnames⟩

/-- A round of a loop keeps the variables in order. -/
theorem Ends.round {v : Sight} {test : Run Word} {body post : Run Flow}
    {names names' : List String}
    (htest : ∀ t, Environment.Holds v.vars t.env → Ends (test t) fun _ u => Steady t u)
    (hbody : ∀ t, Environment.Holds v.vars t.env → Ends (body t) (Left v true names t))
    (hpost : ∀ t, Environment.Holds v.vars t.env → Ends (post t) (Left v false names' t))
    (t : RunState) (henv : Environment.Holds v.vars t.env) :
    Ends (Run.round c test body post t) fun _ u => Left v false (names ++ names') t .next u := by
  rw [Run.round]
  -- The step, then the condition.
  refine Ends.stepped fun t₀ ht₀ => ?_
  refine (htest t₀ (ht₀.holds henv)).bind fun value t₁ ht₁ => ?_
  have hst := ht₀.trans ht₁
  -- The word of the condition decides.
  split
  · exact Ends.pure (Left.next henv hst)
  · refine (hbody t₁ (hst.holds henv)).bind fun flow t₂ ht₂ => ?_
    have hleft : Left v false names t .next t₂ := (ht₂.of_steady hst).anyway
    have hrest : Ends ((post >>= fun _ => Pure.pure true) t₂) fun _ u =>
        Left v false (names ++ names') t .next u :=
      (hpost t₂ ht₂.holds).bind fun _ u hu => hleft.trans hu.anyway
    -- Unless it breaks, the body is followed by the post part.
    cases flow with
    | next => exact hrest
    | brk => exact Ends.pure (hleft.mono (List.subset_append_left _ _))
    | cont => exact hrest

/-- The rounds of a loop keep the variables in order. -/
theorem Ends.loop {v : Sight} {test : Run Word} {body post : Run Flow}
    {names names' : List String}
    (htest : ∀ t, Environment.Holds v.vars t.env → Ends (test t) fun _ u => Steady t u)
    (hbody : ∀ t, Environment.Holds v.vars t.env → Ends (body t) (Left v true names t))
    (hpost : ∀ t, Environment.Holds v.vars t.env → Ends (post t) (Left v false names' t))
    (fuel : Nat) (t : RunState) (henv : Environment.Holds v.vars t.env) :
    Ends (Run.rounds fuel (Run.round c test body post) t) fun _ u =>
      Left v false (names ++ names') t .next u := by
  refine Ends.rounds (I := fun u => Left v false (names ++ names') t .next u) ?_ fuel t
    (Left.next henv (.refl t))
  intro u hu
  refine (Ends.round htest hbody hpost u hu.holds).mono fun again w hw => ?_
  have hall := (hu.trans hw).mono (List.append_subset.mpr ⟨List.Subset.refl _,
    List.Subset.refl _⟩)
  cases again <;> exact hall

/-- Running a block where it is well formed keeps the variables in order. -/
def Block.KeepsOrder (c : RunContext) (call : Caller) (b : Block) : Prop :=
  ∀ ⦃v : Sight⦄ ⦃inLoop : Bool⦄ ⦃s : RunState⦄,
    v.Distinct → v.functions.Fit c.dialect →
    b.Fits c.dialect v inLoop → Environment.Holds v.vars s.env →
      Ends (b.run c call v.functions s) (Left v inLoop b.assigned s)

/-- Running statements where they are well formed keeps the variables in order. -/
def Stmt.KeepsOrderSeq (c : RunContext) (call : Caller) (stmts : List Stmt) : Prop :=
  ∀ ⦃v : Sight⦄ ⦃inLoop : Bool⦄ ⦃s : RunState⦄,
    v.Distinct → v.functions.Fit c.dialect →
    Stmt.FitsSeq c.dialect v inLoop stmts → Environment.Holds v.vars s.env →
      Ends (Stmt.runSeq c call v.functions stmts s)
        (Reached v (v.afterSeq stmts) inLoop (Stmt.assignedSeq stmts) s)

/-- Running a statement where it is well formed keeps the variables in order. -/
def Stmt.KeepsOrder (c : RunContext) (call : Caller) (s₁ : Stmt) : Prop :=
  ∀ ⦃v : Sight⦄ ⦃inLoop : Bool⦄ ⦃s : RunState⦄,
    v.Distinct → v.functions.Fit c.dialect →
    s₁.Fits c.dialect v inLoop → Environment.Holds v.vars s.env →
      Ends (s₁.run c call v.functions s) (Reached v (v.after s₁) inLoop s₁.assignedIn s)

/-- Running the cases of a switch where they are well formed keeps the variables in order. -/
def Case.KeepsOrderSeq (c : RunContext) (call : Caller) (subject : Word)
    (cases : List Case) : Prop :=
  ∀ ⦃v : Sight⦄ ⦃inLoop : Bool⦄ ⦃seen : List Word⦄ ⦃s : RunState⦄,
    v.Distinct → v.functions.Fit c.dialect → Case.FitsSeq c.dialect v inLoop seen cases →
    Environment.Holds v.vars s.env →
      Ends (Case.runSeq c call v.functions subject cases s)
        (Left v inLoop (Case.assignedSeq cases) s)

/-- A block keeps the order if its statements do. -/
theorem Block.KeepsOrder.of_stmts {line : Nat} {stmts : List Stmt}
    (hinner : Stmt.KeepsOrderSeq c call stmts) : Block.KeepsOrder c call ⟨line, stmts⟩ := by
  intro v inLoop s hv hfit h henv
  rw [Block.Fits] at h
  rw [Block.run, Block.assigned_eq]
  refine Ends.inScope ?_
  exact (hinner (Sight.distinct_enter hv h.1) (.enter hv hfit h.1 h.2) h.2
    (henv.enter stmts)).mono fun flow t ht => ht.close

namespace Stmt.KeepsOrderSeq

theorem nil : Stmt.KeepsOrderSeq c call [] := by
  intro v inLoop s _ _ _ henv
  rw [Stmt.runSeq]
  exact Ends.pure (Left.next henv (.refl s)).reached

/-- What the first statement reaches is where the others start. -/
theorem cons {s₁ : Stmt} {rest : List Stmt} (hone : s₁.KeepsOrder c call)
    (hmore : Stmt.KeepsOrderSeq c call rest) : Stmt.KeepsOrderSeq c call (s₁ :: rest) := by
  intro v inLoop s hv hfit h henv
  rw [Stmt.FitsSeq] at h
  rw [Stmt.runSeq, Stmt.assignedSeq_cons, Sight.afterSeq_cons]
  refine (hone hv hfit h.1 henv).bind fun flow t ht => ?_
  cases flow with
  | next =>
      have hrest := hmore (Stmt.Fits.distinct_after hv h.1)
        (by rw [Sight.functions_after]; exact hfit) h.2 ht.holds
      rw [Sight.functions_after] at hrest
      exact hrest.mono fun flow' u hu => ht.next hu
  | brk => exact ht.stop (by rintro ⟨⟩) (List.subset_append_left _ _)
  | cont => exact ht.stop (by rintro ⟨⟩) (List.subset_append_left _ _)

end Stmt.KeepsOrderSeq

namespace Stmt.KeepsOrder

/-- An expression that is a statement yields nothing. -/
theorem expr (hcall : call.Sound c.dialect) {line : Nat} {e : Expr} :
    (Stmt.expr line e).KeepsOrder c call := by
  intro v inLoop s hv hfit h henv
  rw [Stmt.Fits] at h
  rw [Stmt.run]
  refine Ends.stepped fun s₀ hs₀ => ?_
  refine (Expr.run_sound hcall hv hfit h (hs₀.holds henv)).bind fun values t ht => ?_
  rw [List.isEmpty_iff_length_eq_zero.mpr ht.1, if_pos rfl]
  exact (Left.next henv (hs₀.trans ht.2)).reached

/-- The value is computed and assigned to variables in sight. -/
theorem assign (hcall : call.Sound c.dialect) {line : Nat} {targets : List Identifier}
    {value : Expr} : (Stmt.assign line targets value).KeepsOrder c call := by
  intro v inLoop s hv hfit h henv
  rw [Stmt.Fits] at h
  rw [Stmt.run]
  refine Ends.stepped fun s₀ hs₀ => ?_
  refine (Expr.run_sound hcall hv hfit h.1 (hs₀.holds henv)).bind fun values t ht => ?_
  have hst := hs₀.trans ht.2
  rw [if_pos ht.1]
  -- Targets are in sight.
  have hpairs : ∀ p ∈ (targets.map (·.name)).zip values, p.1 ∈ v.visible := by
    intro p hp
    rcases List.mem_map.mp (List.of_mem_zip hp).1 with ⟨target, htarget, hname⟩
    rw [← hname]
    exact h.2 target htarget
  refine (Ends.assignAll hpairs (hst.holds henv)).bind ?_
  rintro _ u ⟨hmachine, hholds, hget⟩
  refine Left.reached ⟨hholds, fun hflow => absurd rfl hflow, ?_⟩
  exact (Keeps.of_lookup hst (by rw [hmachine]) fun x _ => hget x).mono
    (List.subset_append_left _ _)

/-- The value, or zeros, for the new variables. -/
theorem decl (hcall : call.Sound c.dialect) {line : Nat} {vars : List TypedName}
    {value : Option Expr} : (Stmt.decl line vars value).KeepsOrder c call := by
  intro v inLoop s hv hfit h henv
  rw [Stmt.Fits] at h
  rw [Stmt.run]
  refine Ends.stepped fun s₀ hs₀ => ?_
  -- Either way there are as many values as variables.
  have hrest : ∀ (values : List Word) (t : RunState),
      values.length = vars.length ∧ Steady s₀ t →
      Ends ((if values.length = vars.length then do
          Run.modifyEnv (Environment.declareAll ((vars.map (·.name)).zip values))
          return .next
        else Run.fault (.declarationCount line) : Run Flow) t)
        (Reached v (v.declare (vars.map (·.name))) inLoop
          (Stmt.assignedIn (.decl line vars value)) s) := by
    intro values t ht
    rw [if_pos ht.1]
    refine Ends.ok (Reached.declareAll h.2 ?_ henv (hs₀.trans ht.2))
    rw [List.map_fst_zip]
    rw [List.length_map]
    exact Nat.le_of_eq ht.1.symm
  cases value with
  | none => exact hrest _ _ ⟨List.length_replicate, .refl s₀⟩
  | some e => exact (Expr.run_sound hcall hv hfit (h.1 e rfl) (hs₀.holds henv)).bind hrest

/-- A definition does nothing when it is reached. -/
theorem func {line : Nat} {name : String} {params returns : List TypedName} {body : Block} :
    (Stmt.func line name params returns body).KeepsOrder c call := by
  intro v inLoop s _ _ _ henv
  rw [Stmt.run]
  exact Ends.stepped fun s₀ hs₀ => Ends.pure (Left.next henv hs₀).reached

/-- The body is run in a scope of its own, or not at all. -/
theorem cond (hcall : call.Sound c.dialect) {line : Nat} {test : Expr} {body : Block}
    (hinner : body.KeepsOrder c call) : (Stmt.cond line test body).KeepsOrder c call := by
  intro v inLoop s hv hfit h henv
  rw [Stmt.Fits] at h
  rw [Stmt.run]
  refine Ends.stepped fun s₀ hs₀ => ?_
  refine (Expr.runSingle_sound hcall hv hfit h.1 (hs₀.holds henv)).bind fun value t ht => ?_
  have hst := hs₀.trans ht
  split
  · exact Ends.pure (Left.next henv hst).reached
  · exact (hinner hv hfit h.2 (hst.holds henv)).mono fun flow u hu =>
      (hu.of_steady hst).reached

/-- One of the bodies is run. -/
theorem switch (hcall : call.Sound c.dialect) {line : Nat} {subject : Expr} {cases : List Case}
    (hinner : ∀ subject, Case.KeepsOrderSeq c call subject cases) :
    (Stmt.switch line subject cases).KeepsOrder c call := by
  intro v inLoop s hv hfit h henv
  rw [Stmt.Fits] at h
  rw [Stmt.run]
  refine Ends.stepped fun s₀ hs₀ => ?_
  refine (Expr.runSingle_sound hcall hv hfit h.1 (hs₀.holds henv)).bind fun value t ht => ?_
  have hst := hs₀.trans ht
  exact (hinner value hv hfit h.2 (hst.holds henv)).mono fun flow u hu =>
    (hu.of_steady hst).reached

/-- The rounds begin and end with the variables that the initialisation leaves, and behind them its
    scope is closed. -/
theorem loop (hcall : call.Sound c.dialect) {line preLine : Nat} {pre : List Stmt} {test : Expr}
    {post body : Block} (hround : body.KeepsOrder c call) (hthen : post.KeepsOrder c call)
    (hinit : Stmt.KeepsOrderSeq c call pre) :
    (Stmt.loop line ⟨preLine, pre⟩ test post body).KeepsOrder c call := by
  intro v inLoop s hv hfit h henv
  rcases Stmt.Fits.loop_parts hv hfit h with
    ⟨⟨hin, hfin, hpre⟩, hout, hfout, htest, hbody, hpost⟩
  -- The parts of the loop, each in the sight that the init block leaves.
  have htest' := fun t => Expr.runSingle_sound (s := t) hcall hout hfout htest
  have hbody' := fun t => hround (s := t) hout hfout hbody
  have hpost' := fun t => hthen (s := t) hout hfout hpost
  simp only [Sight.functions_afterSeq] at htest' hbody' hpost'
  rw [Stmt.run]
  refine Ends.stepped fun s₀ hs₀ => ?_
  have henv' := (hs₀.holds henv).enter pre
  refine Ends.bind (P := fun _ t => Left v inLoop
    (Stmt.assignedSeq pre ++ (body.assigned ++ post.assigned)) s₀ .next t) ?_ ?_
  · refine Ends.inScope ?_
    refine (hinit hin hfin hpre henv').bind fun flow t ht => ?_
    -- No jump leaves the init block.
    obtain rfl : flow = .next := by
      by_contra hflow
      exact absurd (ht.leaves hflow) Bool.false_ne_true
    refine (Ends.loop htest' hbody' hpost' _ t ht.holds).mono fun _ u hu => ?_
    exact (ht.next hu.reached).close.anyway
  · intro _ t ht
    refine Ends.pure (Reached.mono (ht.of_steady hs₀).reached ?_)
    -- The names assigned in a loop are those of its three parts.
    simp only [Stmt.assignedIn, Stmt.assignsHere, Stmt.allInner, Block.allStmts,
      List.nil_append, List.flatMap_append, Stmt.assignedSeq, Block.assigned,
      List.append_assoc]
    exact List.Subset.refl _

/-- A break leaves the body. -/
theorem brk {line : Nat} : (Stmt.brk line).KeepsOrder c call := by
  intro v inLoop s _ _ h henv
  rw [Stmt.Fits] at h
  rw [Stmt.run]
  exact Ends.stepped fun s₀ hs₀ =>
    Ends.pure (Left.reached ⟨hs₀.holds henv, fun _ => h, .of_steady hs₀⟩)

/-- A continue leaves the body. -/
theorem cont {line : Nat} : (Stmt.cont line).KeepsOrder c call := by
  intro v inLoop s _ _ h henv
  rw [Stmt.Fits] at h
  rw [Stmt.run]
  exact Ends.stepped fun s₀ hs₀ =>
    Ends.pure (Left.reached ⟨hs₀.holds henv, fun _ => h, .of_steady hs₀⟩)

/-- A block that stands as a statement. -/
theorem block {b : Block} (hinner : b.KeepsOrder c call) : (Stmt.block b).KeepsOrder c call := by
  intro v inLoop s hv hfit h henv
  rw [Stmt.Fits] at h
  rw [Stmt.run]
  exact Ends.stepped fun s₀ hs₀ => (hinner hv hfit h (hs₀.holds henv)).mono
    fun flow u hu => (hu.of_steady hs₀).reached

-- What is in loose assembly only is not well formed.
theorem label {line : Nat} {name : String} : (Stmt.label line name).KeepsOrder c call := by
  intro _ _ _ _ _ h _
  rw [Stmt.Fits] at h
  exact False.elim h

/-- Assignments from the stack do not fit. -/
theorem stackAssign {line : Nat} {target : Identifier} :
    (Stmt.stackAssign line target).KeepsOrder c call := by
  intro _ _ _ _ _ h _
  rw [Stmt.Fits] at h
  exact False.elim h

end Stmt.KeepsOrder

namespace Case.KeepsOrderSeq

variable {subject : Word}

theorem nil : Case.KeepsOrderSeq c call subject [] := by
  intro v inLoop _ s _ _ _ henv
  rw [Case.runSeq]
  exact Ends.pure (Left.next henv (.refl s))

/-- The default is run. -/
theorem default {line : Nat} {body : Block} {rest : List Case} (hinner : body.KeepsOrder c call) :
    Case.KeepsOrderSeq c call subject (⟨line, none, body⟩ :: rest) := by
  intro v inLoop _ s hv hfit h henv
  rw [Case.FitsSeq] at h
  rw [Case.runSeq, Case.assignedSeq_cons]
  exact (hinner hv hfit h.1 henv).mono fun flow t ht =>
    ⟨ht.holds, ht.leaves, ht.keeps.mono (List.subset_append_left _ _)⟩

/-- The case that is equal is run, or one of the others. -/
theorem value {line : Nat} {l : Literal} {body : Block} {rest : List Case}
    (hinner : body.KeepsOrder c call) (hmore : Case.KeepsOrderSeq c call subject rest) :
    Case.KeepsOrderSeq c call subject (⟨line, some l, body⟩ :: rest) := by
  intro v inLoop _ s hv hfit h henv
  rw [Case.FitsSeq] at h
  rcases h with ⟨w, hw, _, hbody, hrest⟩
  rw [Case.runSeq, Case.assignedSeq_cons]
  refine (Ends.literal hw).bind ?_
  rintro _ _ ⟨rfl, rfl⟩
  split
  · exact (hinner hv hfit hbody henv).mono fun flow t ht =>
      ⟨ht.holds, ht.leaves, ht.keeps.mono (List.subset_append_left _ _)⟩
  · exact (hmore hv hfit hrest henv).mono fun flow t ht =>
      ⟨ht.holds, ht.leaves, ht.keeps.mono (List.subset_append_right _ _)⟩

end Case.KeepsOrderSeq

mutual

/-- A well-formed block keeps the variables in order. -/
theorem Block.run_sound (hcall : call.Sound c.dialect) : ∀ {b : Block}, b.KeepsOrder c call
  | ⟨_, _⟩ => .of_stmts (Stmt.runSeq_sound hcall)

theorem Stmt.runSeq_sound (hcall : call.Sound c.dialect) : ∀ {stmts : List Stmt},
    Stmt.KeepsOrderSeq c call stmts
  | [] => .nil
  | _ :: _ => .cons (Stmt.run_sound hcall) (Stmt.runSeq_sound hcall)

/-- A well-formed statement keeps the variables in order. -/
theorem Stmt.run_sound (hcall : call.Sound c.dialect) : ∀ {s₁ : Stmt}, s₁.KeepsOrder c call
  | .expr _ _ => .expr hcall
  | .assign _ _ _ => .assign hcall
  | .decl _ _ _ => .decl hcall
  | .func _ _ _ _ _ => .func
  | .cond _ _ _ => .cond hcall (Block.run_sound hcall)
  | .switch _ _ _ => .switch hcall fun subject => Case.runSeq_sound hcall subject
  | .loop _ ⟨_, _⟩ _ _ _ => .loop hcall (Block.run_sound hcall) (Block.run_sound hcall)
      (Stmt.runSeq_sound hcall)
  | .brk _ => .brk
  | .cont _ => .cont
  | .block _ => .block (Block.run_sound hcall)
  | .label _ _ => .label
  | .stackAssign _ _ => .stackAssign

/-- Cases keep the order. -/
theorem Case.runSeq_sound (hcall : call.Sound c.dialect) (subject : Word) :
    ∀ {cases : List Case}, Case.KeepsOrderSeq c call subject cases
  | [] => .nil
  | ⟨_, none, _⟩ :: _ => .default (Block.run_sound hcall)
  | ⟨_, some _, _⟩ :: _ => .value (Block.run_sound hcall) (Case.runSeq_sound hcall subject)

end

/-- The rounds of a well-formed loop keep the variables in order. -/
theorem Stmt.rounds_sound (hcall : call.Sound c.dialect) {v : Sight} {test : Expr}
    {body post : Block} (hv : v.Distinct) (hfit : v.functions.Fit c.dialect)
    (htest : test.Yields c.dialect v 1) (hbody : body.Fits c.dialect v true)
    (hpost : post.Fits c.dialect v false) (fuel : Nat) {s : RunState}
    (henv : Environment.Holds v.vars s.env) :
    Ends (Run.rounds fuel (Run.round c (test.runSingle c call v.functions)
        (body.run c call v.functions) (post.run c call v.functions)) s) fun _ t =>
      Left v false (body.assigned ++ post.assigned) s .next t :=
  Ends.loop (fun _ => Expr.runSingle_sound hcall hv hfit htest)
    (fun _ => Block.run_sound hcall hv hfit hbody) (fun _ => Block.run_sound hcall hv hfit hpost)
    fuel s henv

end Statements

/-- The results are read one after the other. -/
theorem Run.results_eq_mapM (f : FunctionDef) (frame : Table String Word) :
    ∃ g : TypedName → Run Word, Run.results f [frame] = f.returns.mapM g ∧
      ∀ x w, frame.get? x.name = some w → g x = Pure.pure w := by
  refine ⟨_, rfl, fun x w h => ?_⟩
  have hlast : ([frame].getLast (List.cons_ne_nil _ _)).get? x.name = some w := h
  rw [hlast]

/-- A function returns the values of its return variables. -/
theorem Run.results_eq {f : FunctionDef} {env : Environment} (h : Environment.Holds [f.names] env) :
    ∃ values, List.Forall₂ (fun x w => env.get? x.name = some w) f.returns values ∧
      ∀ s, Run.results f env s = .ok values s := by
  cases h with
  | @cons _ frame _ _ hframe hrest =>
      cases hrest
      rcases Run.results_eq_mapM f frame with ⟨g, hresults, hg⟩
      -- Every return variable has a value in the frame.
      have hall : ∀ vars : List TypedName, (∀ x ∈ vars, x.name ∈ f.names) → ∃ values,
          List.Forall₂ (fun x w => Environment.get? x.name [frame] = some w) vars values ∧
          ∀ s, (vars.mapM g : Run (List Word)) s = .ok values s := by
        intro vars
        induction vars with
        | nil => exact fun _ => ⟨[], .nil, fun _ => rfl⟩
        | cons x rest ih =>
            intro hnames
            rcases ih fun y hy => hnames y (List.mem_cons_of_mem _ hy) with ⟨values, hvalues, hrun⟩
            have hx := (hframe x.name).mpr (hnames x List.mem_cons_self)
            rcases Option.isSome_iff_exists.mp hx with ⟨w, hw⟩
            refine ⟨w :: values, .cons ?_ hvalues, fun s => ?_⟩
            · rw [Environment.get?_cons, hw]
              rfl
            · rw [List.mapM_cons, hg x w hw]
              show EStateM.bind (List.mapM _ rest) (fun values => Pure.pure (w :: values)) s = _
              rw [EStateM.bind, hrun s]
              rfl
      rw [hresults]
      exact hall f.returns fun x hx => List.mem_map_of_mem (List.mem_append_right _ hx)

/-- As many results as return variables. -/
theorem Ends.results {f : FunctionDef} {env : Environment} {s : RunState}
    (h : Environment.Holds [f.names] env) :
    Ends (Run.results f env s) fun values t => values.length = f.returns.length ∧ t = s := by
  rcases Run.results_eq h with ⟨values, hvalues, hrun⟩
  rw [hrun s]
  exact ⟨hvalues.length_eq.symm, rfl⟩

/-- Calls return as many values as the function has return variables, and leave
    the variables of the caller alone. -/
theorem FunctionDef.call_sound (c : RunContext) :
    ∀ depth, Caller.Sound c.dialect (FunctionDef.call c depth) := by
  intro depth
  induction depth with
  -- Without depth left the call gives up.
  | zero => exact fun _ _ _ _ _ _ _ _ _ => trivial
  | succ depth ih =>
      intro fs name f args s hfit hnodup hf hargs
      -- The body is resolved in the scopes in which the function was found.
      rcases hfit.callee hnodup hf with ⟨around, hidden, hv, haround, hin, _, hbody⟩
      have hlexical := Block.run_lexical (FunctionDef.call_lexical c depth) hv haround hin hbody
      rw [FunctionDef.call]
      refine Ends.bind (P := fun outer t => outer = s.env ∧ t = { s with env := [f.frame args] })
        ⟨rfl, rfl⟩ ?_
      rintro _ _ ⟨rfl, rfl⟩
      -- The frame holds the parameters and the return variables.
      have hframe : Environment.Holds [f.names]
          ({ s with env := [f.frame args] } : RunState).env := f.frame_holds hargs
      rw [hlexical]
      refine (Block.run_sound ih hv haround hbody hframe).bind
        fun _ t ht => ?_
      refine Ends.bind (P := fun inner u => inner = t.env ∧ u = { t with env := s.env })
        ⟨rfl, rfl⟩ ?_
      rintro _ _ ⟨rfl, rfl⟩
      refine (Ends.results ht.holds).mono ?_
      rintro values _ ⟨hlength, rfl⟩
      exact ⟨hlength, rfl, ht.keeps.calldata⟩

end YulToolchain
