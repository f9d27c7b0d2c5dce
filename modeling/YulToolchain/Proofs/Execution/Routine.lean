import YulToolchain.Proofs.Execution.Outcome
import Mathlib.Tactic.Common

/-!
# Routines

What running a piece of code consists of.

The interpreter follows the text of a program, and most of what it does on the way only
concerns the variables. To the rest of the state there are four ways only: a step is
counted, an instruction is executed, a function is called, or the rounds of a loop are
run. A routine says in which order a run turns to these, without saying how calls and
loops come to an end. The first two can be told from the routine alone. What a call or
a loop does depends on how it is understood, and there is more than one way: the
interpreter bounds the depth of calls and the number of rounds, and a derivation as in
`Routine.Runs` has to be finite.

Whatever is true of all routines is true of all programs, and there are six cases to
look at and not one for every form of code.

## Main definitions

* `Run.OnVariables`: A computation concerns the variables only.
* `Routine`: What running a piece of code consists of.
* `Routine.run`: A routine as the interpreter understands it.
* `Expr.routine`, `Stmt.routine`, `Block.routine`: The routines of code.
* `FunctionDef.routine`: The routine of a call.

## Theorems

* `Expr.run_eq_routine`, `Stmt.run_eq_routine`, `Block.run_eq_routine`: The interpreter runs
  the routine of the code.
* `FunctionDef.call_eq_routine`: A call runs the routine of the function.
-/

namespace YulToolchain

/-- A computation concerns the variables only: it ends with a value or with a fault that it
    reports, and either way the rest of the state stays the same. -/
def Run.OnVariables {α : Type} (m : Run α) : Prop := ∀ s,
  (∃ a env, m s = .ok a { s with env := env }) ∨
    ∃ why : RunFault, why.breaksOff = false ∧
      ∃ env, m s = .error (.failed why) { s with env := env }

namespace Run.OnVariables

variable {α β : Type}

theorem pure (a : α) : OnVariables (Pure.pure a : Run α) := fun s => Or.inl ⟨a, s.env, rfl⟩

theorem fault {why : RunFault} (h : why.breaksOff = false) :
    OnVariables (Run.fault why : Run α) :=
  fun s => Or.inr ⟨why, h, s.env, rfl⟩

/-- One after the other. -/
theorem bind {m : Run α} {f : α → Run β} (hm : OnVariables m) (hf : ∀ a, OnVariables (f a)) :
    OnVariables (m >>= f) := by
  intro s
  simp only [Bind.bind, EStateM.bind]
  rcases hm s with ⟨a, env, hvalue⟩ | ⟨why, hwhy, env, hfault⟩
  · rw [hvalue]
    exact hf a { s with env := env }
  · rw [hfault]
    exact Or.inr ⟨why, hwhy, env, rfl⟩

theorem modifyEnv (f : Environment → Environment) : OnVariables (Run.modifyEnv f) :=
  fun s => Or.inl ⟨(), f s.env, rfl⟩

theorem replaceEnv (env : Environment) : OnVariables (Run.replaceEnv env) :=
  fun s => Or.inl ⟨s.env, env, rfl⟩

/-- A literal is read. -/
theorem literal (l : Literal) : OnVariables (Run.literal l) := by
  rw [Run.literal]
  cases l.value with
  | ok w => exact pure w
  | error why => exact fault rfl

/-- A variable is read. -/
theorem variableValue (line : Nat) (name : String) :
    OnVariables (Run.variableValue line name) := by
  intro s
  cases h : s.env.get? name with
  | some value => exact Or.inl ⟨value, s.env, Run.variableValue_some h⟩
  | none => exact Or.inr ⟨_, rfl, s.env, Run.variableValue_none h⟩

/-- A variable is assigned. -/
theorem assign (name : String) (value : Word) : OnVariables (Run.assign name value) := by
  intro s
  cases h : s.env.assign? name value with
  | some env => exact Or.inl ⟨(), env, Run.assign_some h⟩
  | none => exact Or.inr ⟨_, rfl, s.env, Run.assign_none h⟩

theorem assignAll (pairs : List (String × Word)) : OnVariables (Run.assignAll pairs) := by
  induction pairs with
  | nil => exact pure ()
  | cons pair rest ih => exact (assign pair.1 pair.2).bind fun _ => ih

/-- A single value is asked for. -/
theorem single (line : Nat) (values : List Word) : OnVariables (Run.single line values) := by
  match values with
  | [] => exact fault rfl
  | [value] => exact pure value
  | _ :: _ :: _ => exact fault rfl

/-- An object is asked for. -/
theorem objectQuery (line : Nat) (function : String) (args : List Expr) :
    OnVariables (Run.objectQuery line function args) := by
  unfold Run.objectQuery
  split
  · rename_i l
    cases l.stringBytes with
    | ok bytes => exact pure _
    | error why => exact fault rfl
  · exact fault rfl

/-- Results are read. -/
theorem results (f : FunctionDef) (env : Environment) : OnVariables (Run.results f env) := by
  rw [Run.results]
  cases env.getLast? with
  | none => exact fault rfl
  | some frame =>
      simp only
      induction f.returns with
      | nil => exact pure _
      | cons v rest ih =>
          rw [List.mapM_cons]
          refine bind ?_ fun value => ih.bind fun values => pure _
          cases frame.get? v.name with
          | none => exact fault rfl
          | some value => exact pure value

end Run.OnVariables

/-- What running a piece of code consists of. -/
inductive Routine : Type → Type 1 where
  /-- Does something with the variables. -/
  | vars {α : Type} (m : Run α) (h : m.OnVariables) : Routine α
  /-- Counts a step. -/
  | step : Routine Unit
  /-- Executes an instruction. -/
  | instruction (op : Instruction) (args : List Word) : Routine (List Word)
  /-- Calls a function with functions in sight. -/
  | call (functions : FunctionScopes) (f : FunctionDef) (args : List Word) : Routine (List Word)
  /-- Repeats a round until it returns false. A round begins with a step. -/
  | loop (round : Routine Bool) : Routine Unit
  /-- Does one thing after another. -/
  | bind {α β : Type} (m : Routine α) (f : α → Routine β) : Routine β

namespace Routine

instance : Monad Routine where
  pure a := .vars (pure a) (.pure a)
  bind := .bind

variable {α β : Type}

/-- Stops because of something that has no meaning, and reports it. -/
def fault (why : RunFault) (h : why.breaksOff = false) : Routine α :=
  .vars (Run.fault why) (.fault h)

/-- The only one of some values. -/
def single (line : Nat) (values : List Word) : Routine Word :=
  .vars (Run.single line values) (.single line values)

/-- A routine with a scope of its own for variables. -/
def inScope (m : Routine α) : Routine α := do
  vars (Run.modifyEnv (.empty :: ·)) (.modifyEnv _)
  let a ← m
  vars (Run.modifyEnv List.tail) (.modifyEnv _)
  return a

/-- A routine as the interpreter understands it, given what calls do. -/
def run (c : RunContext) (call : Caller) : {α : Type} → Routine α → Run α
  | _, .vars m _ => m
  | _, .step => Run.step c
  | _, .instruction op args => Run.instruction c op args
  | _, .call functions f args => call functions f args
  | _, .loop round => Run.rounds (c.limits.maxSteps + 1) do
    Run.step c
    round.run c call
  | _, .bind m f => m.run c call >>= fun a => (f a).run c call

end Routine

open Routine

mutual

/-- The routine of an expression. -/
def Expr.routine (d : Dialect) (functions : FunctionScopes) : Expr → Routine (List Word)
  | .literal l => do
    let w ← vars (Run.literal l) (.literal l)
    return [w]
  | .ident line name => do
    let value ← vars (Run.variableValue line name) (.variableValue line name)
    return [value]
  | .instr _ op args => do
    let values ← Expr.routineArgs d functions args
    instruction op values
  | .call line name args => match d.builtin? name with
    | some b => match b.code with
      | .instruction op => do
        let values ← Expr.routineArgs d functions args
        instruction op values
      | .dataSize => vars (Run.objectQuery line b.name args) (.objectQuery line b.name args)
      | .dataOffset => vars (Run.objectQuery line b.name args) (.objectQuery line b.name args)
      | .dataCopy => do
        let values ← Expr.routineArgs d functions args
        instruction .codecopy values
      | .stackEffectOnly => return List.replicate b.returns 0
    | none => match functions.find? name with
      | none => fault (.unknownFunction name line) rfl
      | some f => do
        let values ← Expr.routineArgs d functions args
        if values.length = f.params.length then Routine.call functions f values
        else fault (.argumentCount f.name line) rfl

/-- The routine of arguments. -/
def Expr.routineArgs (d : Dialect) (functions : FunctionScopes) :
    List Expr → Routine (List Word)
  | [] => pure []
  | e :: rest => do
    let values ← Expr.routineArgs d functions rest
    let own ← Expr.routine d functions e
    let value ← single e.line own
    return value :: values

end

/-- The routine of an expression with a single value. -/
def Expr.routineSingle (d : Dialect) (functions : FunctionScopes) (e : Expr) : Routine Word := do
  let values ← e.routine d functions
  single e.line values

/-- What a round of a loop does after its step. -/
def Routine.round (test : Routine Word) (body post : Routine Flow) : Routine Bool := do
  let value ← test
  if value = 0 then return false
  else match ← body with
    | .brk => return false
    | _ =>
      let _ ← post
      return true

mutual

/-- The routine of a block. -/
def Block.routine (d : Dialect) (functions : FunctionScopes) : Block → Routine Flow
  | ⟨line, stmts⟩ =>
    inScope (Stmt.routineSeq d ((⟨line, stmts⟩ : Block).functions :: functions) stmts)

/-- The routine of some statements. -/
def Stmt.routineSeq (d : Dialect) (functions : FunctionScopes) : List Stmt → Routine Flow
  | [] => return .next
  | s :: rest => do
    match ← Stmt.routine d functions s with
    | .next => Stmt.routineSeq d functions rest
    | flow => return flow

/-- The routine of a statement. -/
def Stmt.routine (d : Dialect) (functions : FunctionScopes) : Stmt → Routine Flow
  | .expr line e => do
    step
    let values ← e.routine d functions
    if values.isEmpty then return .next else fault (.valuesLeft line) rfl
  | .assign line targets value => do
    step
    let values ← value.routine d functions
    if values.length = targets.length then
      vars (Run.assignAll ((targets.map (·.name)).zip values)) (.assignAll _)
      return .next
    else fault (.assignmentCount line) rfl
  | .decl line names value => do
    step
    let values ← match value with
      | some e => e.routine d functions
      | none => pure (List.replicate names.length 0)
    if values.length = names.length then
      vars (Run.modifyEnv (Environment.declareAll ((names.map (·.name)).zip values)))
        (.modifyEnv _)
      return .next
    else fault (.declarationCount line) rfl
  | .func _ _ _ _ _ => do
    step
    return .next
  | .cond _ test body => do
    step
    let value ← test.routineSingle d functions
    if value = 0 then return .next else Block.routine d functions body
  | .switch _ subject cases => do
    step
    let value ← subject.routineSingle d functions
    Case.routineSeq d functions value cases
  | .loop _ ⟨line, pre⟩ test post body => do
    step
    let functions := (⟨line, pre⟩ : Block).functions :: functions
    inScope do
      let _ ← Stmt.routineSeq d functions pre
      loop (Routine.round (test.routineSingle d functions) (Block.routine d functions body)
        (Block.routine d functions post))
    return .next
  | .brk _ => do
    step
    return .brk
  | .cont _ => do
    step
    return .cont
  | .block b => do
    step
    Block.routine d functions b
  | .label line _ => do
    step
    fault (.looseAssembly line) rfl
  | .stackAssign line _ => do
    step
    fault (.looseAssembly line) rfl

/-- The routine of the first case of a switch that has a value or is the default. -/
def Case.routineSeq (d : Dialect) (functions : FunctionScopes) (value : Word) :
    List Case → Routine Flow
  | [] => return .next
  | ⟨_, none, body⟩ :: _ => Block.routine d functions body
  | ⟨_, some l, body⟩ :: rest => do
    let w ← vars (Run.literal l) (.literal l)
    if w = value then Block.routine d functions body
    else Case.routineSeq d functions value rest

end

/-- The routine of a call. -/
def FunctionDef.routine (d : Dialect) (functions : FunctionScopes) (f : FunctionDef)
    (args : List Word) : Routine (List Word) := do
  let outer ← vars (Run.replaceEnv [f.frame args]) (.replaceEnv _)
  let _ ← f.body.routine d functions
  let inner ← vars (Run.replaceEnv outer) (.replaceEnv _)
  vars (Run.results f inner) (.results f inner)

section Interpreter

variable {c : RunContext} {call : Caller}

/-- Computations with a condition are the same if those after the condition are. -/
theorem Routine.run_ite {α : Type} {p : Prop} [Decidable p] {m m' : Run α} {r r' : Routine α}
    (h : m = r.run c call) (h' : m' = r'.run c call) :
    (if p then m else m') = (if p then r else r').run c call := by
  by_cases hp : p
  · rw [if_pos hp, if_pos hp, h]
  · rw [if_neg hp, if_neg hp, h']

mutual

/-- The interpreter evaluates an expression by its routine. -/
theorem Expr.run_eq_routine (functions : FunctionScopes) : ∀ e : Expr,
    e.run c call functions = (e.routine c.dialect functions).run c call
  | .literal l => by
      rw [Expr.run, Expr.routine]
      rfl
  | .ident line name => by
      rw [Expr.run, Expr.routine]
      rfl
  | .instr _ op args => by
      rw [Expr.run, Expr.routine, Expr.runArgs_eq_routine functions args]
      rfl
  -- What is called decides, on both sides alike.
  | .call line name args => by
      rw [Expr.run, Expr.routine]
      cases c.dialect.builtin? name with
      | some b =>
          simp only [Expr.runArgs_eq_routine functions args]
          cases b.code <;> rfl
      | none =>
          cases functions.find? name with
          | none => rfl
          | some f =>
              simp only [Expr.runArgs_eq_routine functions args]
              exact bind_congr fun values => Routine.run_ite rfl rfl

/-- The same for arguments. -/
theorem Expr.runArgs_eq_routine (functions : FunctionScopes) : ∀ es : List Expr,
    Expr.runArgs c call functions es = (Expr.routineArgs c.dialect functions es).run c call
  | [] => by
      rw [Expr.runArgs, Expr.routineArgs]
      rfl
  | e :: rest => by
      rw [Expr.runArgs, Expr.routineArgs, Expr.runArgs_eq_routine functions rest,
        Expr.run_eq_routine functions e]
      rfl

end

theorem Expr.runSingle_eq_routine (functions : FunctionScopes) (e : Expr) :
    e.runSingle c call functions = (e.routineSingle c.dialect functions).run c call := by
  rw [Expr.runSingle, Expr.run_eq_routine]
  rfl

/-- The interpreter counts a step and then does what else belongs to a round. -/
theorem Run.round_eq_routine (test : Routine Word) (body post : Routine Flow) :
    Run.round c (test.run c call) (body.run c call) (post.run c call)
      = (Run.step c >>= fun _ => (Routine.round test body post).run c call) := by
  refine bind_congr fun _ => bind_congr fun value => Routine.run_ite rfl ?_
  refine bind_congr fun flow => ?_
  cases flow <;> rfl

mutual

/-- The interpreter runs a block by its routine. -/
theorem Block.run_eq_routine : ∀ (b : Block) (functions : FunctionScopes),
    b.run c call functions = (b.routine c.dialect functions).run c call
  | ⟨line, stmts⟩, functions => by
      rw [Block.run, Block.routine, Stmt.runSeq_eq_routine stmts]
      rfl

/-- The same for statements in a row. -/
theorem Stmt.runSeq_eq_routine : ∀ (stmts : List Stmt) (functions : FunctionScopes),
    Stmt.runSeq c call functions stmts = (Stmt.routineSeq c.dialect functions stmts).run c call
  | [], functions => by
      rw [Stmt.runSeq, Stmt.routineSeq]
      rfl
  | s :: rest, functions => by
      rw [Stmt.runSeq, Stmt.routineSeq, Stmt.run_eq_routine s]
      refine bind_congr fun flow => ?_
      cases flow with
      | next => exact Stmt.runSeq_eq_routine rest functions
      | brk => rfl
      | cont => rfl

/-- The interpreter runs a statement by its routine. -/
theorem Stmt.run_eq_routine : ∀ (s : Stmt) (functions : FunctionScopes),
    s.run c call functions = (s.routine c.dialect functions).run c call
  | .expr line e, functions => by
      rw [Stmt.run, Stmt.routine, Expr.run_eq_routine]
      exact bind_congr fun _ => bind_congr fun values => Routine.run_ite rfl rfl
  | .assign line targets value, functions => by
      rw [Stmt.run, Stmt.routine, Expr.run_eq_routine]
      exact bind_congr fun _ => bind_congr fun values => Routine.run_ite rfl rfl
  | .decl line names value, functions => by
      rw [Stmt.run, Stmt.routine]
      -- The value or the zeros, then the declaration.
      refine bind_congr fun _ => ?_
      cases value with
      | none => exact bind_congr fun values => Routine.run_ite rfl rfl
      | some e =>
          simp only [Expr.run_eq_routine]
          exact bind_congr fun values => Routine.run_ite rfl rfl
  | .func _ _ _ _ _, functions => by
      rw [Stmt.run, Stmt.routine]
      rfl
  | .cond _ test body, functions => by
      rw [Stmt.run, Stmt.routine, Expr.runSingle_eq_routine]
      exact bind_congr fun _ => bind_congr fun value =>
        Routine.run_ite rfl (Block.run_eq_routine body functions)
  | .switch _ subject cases, functions => by
      rw [Stmt.run, Stmt.routine, Expr.runSingle_eq_routine]
      exact bind_congr fun _ => bind_congr fun value => Case.runSeq_eq_routine value cases functions
  | .loop _ ⟨line, pre⟩ test post body, functions => by
      -- The three parts of the loop, and one round of it.
      rw [Stmt.run, Stmt.routine]
      simp only [Stmt.runSeq_eq_routine pre, Expr.runSingle_eq_routine, Block.run_eq_routine body,
        Block.run_eq_routine post, Run.round_eq_routine]
      rfl
  | .brk _, functions => by
      rw [Stmt.run, Stmt.routine]
      rfl
  | .cont _, functions => by
      rw [Stmt.run, Stmt.routine]
      rfl
  | .block b, functions => by
      rw [Stmt.run, Stmt.routine, Block.run_eq_routine b]
      rfl
  | .label line _, functions => by
      rw [Stmt.run, Stmt.routine]
      rfl
  | .stackAssign line _, functions => by
      rw [Stmt.run, Stmt.routine]
      rfl

/-- The same for cases. -/
theorem Case.runSeq_eq_routine (value : Word) :
    ∀ (cases : List Case) (functions : FunctionScopes), Case.runSeq c call functions value cases
      = (Case.routineSeq c.dialect functions value cases).run c call
  | [], functions => by
      rw [Case.runSeq, Case.routineSeq]
      rfl
  | ⟨_, none, body⟩ :: _, functions => by
      rw [Case.runSeq, Case.routineSeq, Block.run_eq_routine body]
  | ⟨_, some l, body⟩ :: rest, functions => by
      rw [Case.runSeq, Case.routineSeq]
      exact bind_congr fun w => Routine.run_ite (Block.run_eq_routine body functions)
        (Case.runSeq_eq_routine value rest functions)

end

/-- A call runs the routine of the function. -/
theorem FunctionDef.call_eq_routine (depth : Nat) (functions : FunctionScopes) (f : FunctionDef)
    (args : List Word) : FunctionDef.call c (depth + 1) functions f args
      = (f.routine c.dialect functions args).run c (FunctionDef.call c depth) := by
  rw [FunctionDef.call, Block.run_eq_routine]
  rfl

end Interpreter

end YulToolchain
