import YulToolchain.Dialect
import YulToolchain.Execution.Environment
import YulToolchain.Execution.Operation

/-!
# The Interpreter

The meaning of a program: what running it does.

Every statement and every round of a loop is a step, and the number of steps is
limited, so every run ends. The interpreter is written so that this is plain.
It recurses over the code, and takes what it can not recurse over as given: what
a call does. `FunctionDef.call` closes the circle by recursion on the depth of
calls. A call deeper than there are steps can not happen, since there is a step
before each one, and neither can there be more rounds of a loop than steps. Both
bounds are there also for a run whose steps are not held against the budget; such
a run only serves to compare runs that need different numbers of steps.

The functions in sight only ever change with the block that is executed, so they
are an argument, whereas variables are part of the state.

## Main definitions

* `Run`: Computations of the interpreter.
* `Expr.run`, `Stmt.run`, `Block.run`: The meaning of code, given the meaning of
  calls.
* `FunctionDef.call`: The meaning of calls.
* `interpret`: The result of a program.
-/

namespace YulToolchain

/-- The state of the interpreter. -/
structure RunState where
  /-- The machine state. -/
  machine : MachineState
  /-- How many steps were made. -/
  steps : Nat
  /-- The variables in sight. -/
  env : Environment

/-- A computation of the interpreter. -/
abbrev Run := EStateM Halt RunState

/-- How control goes on after a statement. -/
inductive Flow where
  /-- With the next statement. -/
  | next
  /-- Behind the innermost loop. -/
  | brk
  /-- With the `post` block of the innermost loop. -/
  | cont
deriving DecidableEq, Repr

/-- What stays the same during a run. -/
structure RunContext where
  /-- The dialect of the code. -/
  dialect : Dialect
  /-- The budget. -/
  limits : Limits
  /-- Whether the steps are held against the budget. If not, it still bounds the
      rounds of each loop and the depth of calls. -/
  metered : Bool

/-- What a call does with the functions in sight and the arguments. -/
abbrev Caller := FunctionScopes → FunctionDef → List Word → Run (List Word)

namespace Run

/-- Stops because of something that has no meaning. -/
def fault {α : Type} (why : RunFault) : Run α := throw (.failed why)

/-- Stops because the budget of steps is used up. -/
def outOfSteps {α : Type} : Run α := throw (.ended .stepLimit)

/-- Counts a step. -/
def step (c : RunContext) : Run Unit := do
  modify fun s => { s with steps := s.steps + 1 }
  if c.metered && c.limits.maxSteps < (← get).steps then outOfSteps

/-- Runs a computation over the machine state. -/
def onMachine {α : Type} (m : OnMachine α) : Run α := fun ⟨machine, steps, env⟩ =>
  match m machine with
  | .ok a machine => .ok a ⟨machine, steps, env⟩
  | .error halt machine => .error halt ⟨machine, steps, env⟩

/-- Changes the variables. -/
def modifyEnv (f : Environment → Environment) : Run Unit :=
  modify fun s => { s with env := f s.env }

/-- Replaces the variables and returns those from before. -/
def replaceEnv (env : Environment) : Run Environment :=
  modifyGet fun s => (s.env, { s with env })

/-- Runs a computation with a scope of its own for variables. -/
def inScope {α : Type} (m : Run α) : Run α := do
  modifyEnv (.empty :: ·)
  let a ← m
  modifyEnv List.tail
  return a

/-- The word a literal denotes. -/
def literal (l : Literal) : Run Word :=
  match l.value with
  | .ok w => pure w
  | .error why => fault (.literal why)

/-- The value of a variable. -/
def variableValue (line : Nat) (name : String) : Run Word := do
  match (← get).env.get? name with
  | some value => return value
  | none => fault (.unknownVariable name line)

/-- Assigns to a variable. -/
def assign (name : String) (value : Word) : Run Unit := do
  match (← get).env.assign? name value with
  | some env => modifyEnv fun _ => env
  | none => fault (.unknownTarget name)

/-- Assigns to variables, from the first to the last. -/
def assignAll : List (String × Word) → Run Unit
  | [] => pure ()
  | (name, value) :: rest => do
    assign name value
    assignAll rest

/-- The only one of some values. -/
def single (line : Nat) : List Word → Run Word
  | [value] => pure value
  | values => fault (.singleValueExpected line values.length)

/-- Executes an instruction. -/
def instruction (c : RunContext) (op : Instruction) (args : List Word) : Run (List Word) := do
  return (← onMachine (op.execute c.limits args)).toList

/-- What the environment answers about a named object. -/
def objectQuery (line : Nat) (function : String) : List Expr → Run (List Word)
  | [.literal l] => match l.stringBytes with
    | .ok bytes => return [Keccak.hashWord (Text.bytes function.toList ++ bytes)]
    | .error why => fault (.literal why)
  | _ => fault (.objectNameExpected function line)

/-- A round of a loop. It returns whether there is another one. -/
def round (c : RunContext) (test : Run Word) (body post : Run Flow) : Run Bool := do
  step c
  let value ← test
  if value = 0 then return false
  else match ← body with
    | .brk => return false
    | _ =>
      let _ ← post
      return true

/-- Runs the rounds of a loop until one of them returns false. The first
    argument bounds their number. -/
def rounds : Nat → Run Bool → Run Unit
  | 0, _ => outOfSteps
  | fuel + 1, round => do
    if ← round then rounds fuel round

/-- The values of the return variables of a function when it returns. -/
def results (f : FunctionDef) (env : Environment) : Run (List Word) :=
  match env.getLast? with
  | none => fault (.lostFrame f.name)
  | some frame => f.returns.mapM fun v => match frame.get? v.name with
    | some value => pure value
    | none => fault (.lostReturnVariable v.name)

end Run

open Run

mutual

/-- The values of an expression. -/
def Expr.run (c : RunContext) (call : Caller) (functions : FunctionScopes) :
    Expr → Run (List Word)
  | .literal l => do return [← Run.literal l]
  | .ident line name => do return [← variableValue line name]
  | .instr _ op args => do
    let values ← Expr.runArgs c call functions args
    instruction c op values
  | .call line name args => match c.dialect.builtin? name with
    | some b => match b.code with
      | .instruction op => do
        let values ← Expr.runArgs c call functions args
        instruction c op values
      | .dataSize => objectQuery line b.name args
      | .dataOffset => objectQuery line b.name args
      | .dataCopy => do
        let values ← Expr.runArgs c call functions args
        instruction c .codecopy values
      | .stackEffectOnly => return List.replicate b.returns 0
    | none => match functions.find? name with
      | none => fault (.unknownFunction name line)
      | some f => do
        let values ← Expr.runArgs c call functions args
        if values.length = f.params.length then call functions f values
        else fault (.argumentCount f.name line)

/-- The values of arguments, the first one first. They are evaluated from the
    last to the first. -/
def Expr.runArgs (c : RunContext) (call : Caller) (functions : FunctionScopes) :
    List Expr → Run (List Word)
  | [] => pure []
  | e :: rest => do
    let values ← Expr.runArgs c call functions rest
    let value ← single e.line (← Expr.run c call functions e)
    return value :: values

end

/-- The only value of an expression. -/
def Expr.runSingle (c : RunContext) (call : Caller) (functions : FunctionScopes) (e : Expr) :
    Run Word := do
  single e.line (← e.run c call functions)

mutual

/-- Runs a block in a scope of its own. -/
def Block.run (c : RunContext) (call : Caller) (functions : FunctionScopes) : Block → Run Flow
  | ⟨line, stmts⟩ =>
    inScope (Stmt.runSeq c call ((⟨line, stmts⟩ : Block).functions :: functions) stmts)

/-- Runs statements up to the first one after which control does not go on with
    the next. -/
def Stmt.runSeq (c : RunContext) (call : Caller) (functions : FunctionScopes) :
    List Stmt → Run Flow
  | [] => return .next
  | s :: rest => do
    match ← Stmt.run c call functions s with
    | .next => Stmt.runSeq c call functions rest
    | flow => return flow

/-- Runs a statement. -/
def Stmt.run (c : RunContext) (call : Caller) (functions : FunctionScopes) : Stmt → Run Flow
  | .expr line e => do
    step c
    let values ← e.run c call functions
    if values.isEmpty then return .next else fault (.valuesLeft line)
  | .assign line targets value => do
    step c
    let values ← value.run c call functions
    if values.length = targets.length then
      assignAll ((targets.map (·.name)).zip values)
      return .next
    else fault (.assignmentCount line)
  | .decl line vars value => do
    step c
    let values ← match value with
      | some e => e.run c call functions
      | none => pure (List.replicate vars.length 0)
    if values.length = vars.length then
      modifyEnv (Environment.declareAll ((vars.map (·.name)).zip values))
      return .next
    else fault (.declarationCount line)
  | .func _ _ _ _ _ => do
    step c
    return .next
  | .cond _ test body => do
    step c
    let value ← test.runSingle c call functions
    if value = 0 then return .next else Block.run c call functions body
  | .switch _ subject cases => do
    step c
    let value ← subject.runSingle c call functions
    Case.runSeq c call functions value cases
  | .loop _ ⟨line, pre⟩ test post body => do
    step c
    let functions := (⟨line, pre⟩ : Block).functions :: functions
    inScope do
      let _ ← Stmt.runSeq c call functions pre
      rounds (c.limits.maxSteps + 1)
        (round c (test.runSingle c call functions) (Block.run c call functions body)
          (Block.run c call functions post))
    return .next
  | .brk _ => do
    step c
    return .brk
  | .cont _ => do
    step c
    return .cont
  | .block b => do
    step c
    Block.run c call functions b
  | .label line _ => do
    step c
    fault (.looseAssembly line)
  | .stackAssign line _ => do
    step c
    fault (.looseAssembly line)

/-- Runs the first case of a switch that has a value or is the default. -/
def Case.runSeq (c : RunContext) (call : Caller) (functions : FunctionScopes) (value : Word) :
    List Case → Run Flow
  | [] => return .next
  | ⟨_, none, body⟩ :: _ => Block.run c call functions body
  | ⟨_, some l, body⟩ :: rest => do
    let w ← Run.literal l
    if w = value then Block.run c call functions body
    else Case.runSeq c call functions value rest

end

/-- Calls a function: runs its body with nothing but its own variables in sight,
    and returns the values of its return variables. The first argument bounds
    the depth of calls. -/
def FunctionDef.call (c : RunContext) : Nat → Caller
  | 0, _, _, _ => outOfSteps
  | depth + 1, functions, f, args => do
    let outer ← replaceEnv [f.frame args]
    let _ ← f.body.run c (FunctionDef.call c depth) functions
    let inner ← replaceEnv outer
    results f inner

/-- The result of a program. -/
structure RunResult where
  /-- The machine state at the end. -/
  state : MachineState
  /-- Why execution ended before the end of the code, if it did. -/
  termination : Option Termination
deriving DecidableEq

/-- Runs a program with call data within a budget. -/
def interpret (d : Dialect) (limits : Limits) (calldata : List UInt8) (code : Block) :
    Except RunFault RunResult :=
  let c : RunContext := ⟨d, limits, true⟩
  match code.run c (FunctionDef.call c limits.maxSteps) [] ⟨.initial calldata, 0, []⟩ with
  | .ok _ s => .ok ⟨s.machine, none⟩
  | .error (.ended t) s => .ok ⟨s.machine, some t⟩
  | .error (.failed why) _ => .error why

end YulToolchain
