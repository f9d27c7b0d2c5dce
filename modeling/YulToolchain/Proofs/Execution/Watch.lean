import YulToolchain.Analysis
import YulToolchain.Execution.Interpreter

/-!
# Watching the Loops of a Run

A run with notes about the loops that are left.

The interpreter passes on how control goes on after a statement as a value, and any
code that runs a block may use that value or drop it. What became of a `break` can not
be seen from the result of a run. Here runs take notes: whenever a `break` or
`continue` is executed, and whenever a loop ends or goes on because of one.

A note names the loop it is about. Loops are numbered inside the body they stand in, as
their scopes are, and bodies of functions are told apart by how many more calls may be
made, since no two of those that are being executed have the same number of calls
left. The loop that a `break` belongs to is known from the text: code generation jumps
to the labels of the same one.

Nothing but the notes is added. `watch_eq` says that a run that is watched has the same
result as one that is not.

## Main definitions

* `LoopEvent`: What is noted.
* `Watch`: Computations that take notes.
* `Expr.watch`, `Stmt.watch`, `Block.watch`: Code that is watched.
* `FunctionDef.watchCall`: Calls that are watched.
* `watch`: The result of a program, with notes.

## Theorems

* `Erases.bind`: Sequencing.
* `Block.watch_erases`, `Stmt.watch_erases`: Notes change nothing.
* `watch_eq`: The result of a program is the same.
-/

namespace YulToolchain

/-- What is noted about a loop. The depth is that of the calls. -/
inductive LoopEvent where
  /-- A `break` or `continue` is executed, in the body of a loop if there is one. -/
  | left (depth : Nat) (loop : Option Nat) (flow : Flow)
  /-- A loop ends because its body was left. -/
  | ended (depth loop : Nat)
  /-- A loop goes on with its `post` block because its body was left. -/
  | resumed (depth loop : Nat)
deriving DecidableEq, Repr

/-- A computation of the interpreter that takes notes. -/
abbrev Watch := EStateM Halt (RunState × List LoopEvent)

/-- What a call does that is watched. -/
abbrev WatchCaller := FunctionScopes → FunctionDef → List Word → Watch (List Word)

namespace Watch

/-- Does something that there is nothing to note about. -/
def silently {α : Type} (m : Run α) : Watch α := fun (s, notes) =>
  match m s with
  | .ok a t => .ok a (t, notes)
  | .error halt t => .error halt (t, notes)

/-- Takes a note. -/
def note (e : LoopEvent) : Watch Unit := modify fun (s, notes) => (s, notes ++ [e])

/-- Runs a computation with a scope of its own for variables. -/
def inScope {α : Type} (m : Watch α) : Watch α := do
  silently (Run.modifyEnv (.empty :: ·))
  let a ← m
  silently (Run.modifyEnv List.tail)
  return a

/-- A round of a loop. It returns whether there is another one. -/
def round (c : RunContext) (depth loop : Nat) (test : Watch Word) (body post : Watch Flow) :
    Watch Bool := do
  silently (Run.step c)
  let value ← test
  if value = 0 then return false
  else match ← body with
    | .brk =>
      note (.ended depth loop)
      return false
    | .cont =>
      note (.resumed depth loop)
      let _ ← post
      return true
    | .next =>
      let _ ← post
      return true

/-- Runs the rounds of a loop until one of them returns false. The first
    argument bounds their number. -/
def rounds : Nat → Watch Bool → Watch Unit
  | 0, _ => silently Run.outOfSteps
  | fuel + 1, round => do
    if ← round then rounds fuel round

end Watch

open Watch

mutual

/-- The values of an expression. -/
def Expr.watch (c : RunContext) (call : WatchCaller) (functions : FunctionScopes) :
    Expr → Watch (List Word)
  | .literal l => silently do return [← Run.literal l]
  | .ident line name => silently do return [← Run.variableValue line name]
  | .instr _ op args => do
    let values ← Expr.watchArgs c call functions args
    silently (Run.instruction c op values)
  | .call line name args => match c.dialect.builtin? name with
    | some b => match b.code with
      | .instruction op => do
        let values ← Expr.watchArgs c call functions args
        silently (Run.instruction c op values)
      | .dataSize => silently (Run.objectQuery line b.name args)
      | .dataOffset => silently (Run.objectQuery line b.name args)
      | .dataCopy => do
        let values ← Expr.watchArgs c call functions args
        silently (Run.instruction c .codecopy values)
      | .stackEffectOnly => return List.replicate b.returns 0
    | none => match functions.find? name with
      | none => silently (Run.fault (.unknownFunction name line))
      | some f => do
        let values ← Expr.watchArgs c call functions args
        if values.length = f.params.length then call functions f values
        else silently (Run.fault (.argumentCount f.name line))

/-- The values of arguments, the first one first. -/
def Expr.watchArgs (c : RunContext) (call : WatchCaller) (functions : FunctionScopes) :
    List Expr → Watch (List Word)
  | [] => pure []
  | e :: rest => do
    let values ← Expr.watchArgs c call functions rest
    let own ← Expr.watch c call functions e
    let value ← silently (Run.single e.line own)
    return value :: values

end

/-- The only value of an expression. -/
def Expr.watchSingle (c : RunContext) (call : WatchCaller) (functions : FunctionScopes)
    (e : Expr) : Watch Word := do
  let values ← e.watch c call functions
  silently (Run.single e.line values)

mutual

/-- Runs a block that stands in the body of a loop, if there is one, and whose scope has
    a number. -/
def Block.watch (c : RunContext) (call : WatchCaller) (depth : Nat) (functions : FunctionScopes)
    (around : Option Nat) (id : Nat) : Block → Watch Flow
  | ⟨line, stmts⟩ =>
    inScope (Stmt.watchSeq c call depth ((⟨line, stmts⟩ : Block).functions :: functions) around
      (id + 1) stmts)

/-- Runs statements up to the first one after which control does not go on with
    the next. -/
def Stmt.watchSeq (c : RunContext) (call : WatchCaller) (depth : Nat) (functions : FunctionScopes)
    (around : Option Nat) (next : Nat) : List Stmt → Watch Flow
  | [] => return .next
  | s :: rest => do
    match ← Stmt.watch c call depth functions around next s with
    | .next => Stmt.watchSeq c call depth functions around (next + s.scopeCount) rest
    | flow => return flow

/-- Runs a statement. Only the body of a loop stands in it. -/
def Stmt.watch (c : RunContext) (call : WatchCaller) (depth : Nat) (functions : FunctionScopes)
    (around : Option Nat) (next : Nat) : Stmt → Watch Flow
  | .expr line e => do
    silently (Run.step c)
    let values ← e.watch c call functions
    if values.isEmpty then return .next else silently (Run.fault (.valuesLeft line))
  | .assign line targets value => do
    silently (Run.step c)
    let values ← value.watch c call functions
    if values.length = targets.length then
      silently (Run.assignAll ((targets.map (·.name)).zip values))
      return .next
    else silently (Run.fault (.assignmentCount line))
  | .decl line vars value => do
    silently (Run.step c)
    let values ← match value with
      | some e => e.watch c call functions
      | none => pure (List.replicate vars.length 0)
    if values.length = vars.length then
      silently (Run.modifyEnv (Environment.declareAll ((vars.map (·.name)).zip values)))
      return .next
    else silently (Run.fault (.declarationCount line))
  | .func _ _ _ _ _ => do
    silently (Run.step c)
    return .next
  | .cond _ test body => do
    silently (Run.step c)
    let value ← test.watchSingle c call functions
    if value = 0 then return .next else Block.watch c call depth functions around next body
  | .switch _ subject cases => do
    silently (Run.step c)
    let value ← subject.watchSingle c call functions
    Case.watchSeq c call depth functions around next value cases
  | .loop _ ⟨line, pre⟩ test post body => do
    silently (Run.step c)
    let functions := (⟨line, pre⟩ : Block).functions :: functions
    let bodyScope := next + 1 + Stmt.scopeCountSeq pre
    inScope do
      let _ ← Stmt.watchSeq c call depth functions around (next + 1) pre
      rounds (c.limits.maxSteps + 1)
        (Watch.round c depth next (test.watchSingle c call functions)
          (Block.watch c call depth functions (some next) bodyScope body)
          (Block.watch c call depth functions around (bodyScope + body.scopeCount) post))
    return .next
  | .brk _ => do
    silently (Run.step c)
    note (.left depth around .brk)
    return .brk
  | .cont _ => do
    silently (Run.step c)
    note (.left depth around .cont)
    return .cont
  | .block b => do
    silently (Run.step c)
    Block.watch c call depth functions around next b
  | .label line _ => do
    silently (Run.step c)
    silently (Run.fault (.looseAssembly line))
  | .stackAssign line _ => do
    silently (Run.step c)
    silently (Run.fault (.looseAssembly line))

/-- Runs the first case of a switch that has a value or is the default. -/
def Case.watchSeq (c : RunContext) (call : WatchCaller) (depth : Nat) (functions : FunctionScopes)
    (around : Option Nat) (next : Nat) (value : Word) : List Case → Watch Flow
  | [] => return .next
  | ⟨_, none, body⟩ :: _ => Block.watch c call depth functions around next body
  | ⟨_, some l, body⟩ :: rest => do
    let w ← silently (Run.literal l)
    if w = value then Block.watch c call depth functions around next body
    else Case.watchSeq c call depth functions around (next + body.scopeCount) value rest

end

/-- Calls a function. The loops of its body are its own, and it stands in none. -/
def FunctionDef.watchCall (c : RunContext) : Nat → WatchCaller
  | 0, _, _, _ => silently Run.outOfSteps
  | depth + 1, functions, f, args => do
    let outer ← silently (Run.replaceEnv [f.frame args])
    let _ ← f.body.watch c (FunctionDef.watchCall c depth) depth functions none 0
    let inner ← silently (Run.replaceEnv outer)
    silently (Run.results f inner)

/-- Runs a program with call data within a budget, and returns the notes with the
    result. -/
def watch (d : Dialect) (limits : Limits) (calldata : List UInt8) (code : Block) :
    Except RunFault RunResult × List LoopEvent :=
  let c : RunContext := ⟨d, limits, true⟩
  match code.watch c (FunctionDef.watchCall c limits.maxSteps) limits.maxSteps [] none 0
      (⟨.initial calldata, 0, []⟩, []) with
  | .ok _ (s, notes) => (.ok ⟨s.machine, none⟩, notes)
  | .error (.ended t) (s, notes) => (.ok ⟨s.machine, some t⟩, notes)
  | .error (.failed why) (_, notes) => (.error why, notes)

/-- The outcome of a run without the notes. -/
def withoutNotes {α : Type} : EStateM.Result Halt (RunState × List LoopEvent) α →
    EStateM.Result Halt RunState α
  | .ok a (s, _) => .ok a s
  | .error halt (s, _) => .error halt s

/-- A computation that takes notes does the same as one that does not. -/
def Erases {α : Type} (w : Watch α) (m : Run α) : Prop :=
  ∀ s notes, withoutNotes (w (s, notes)) = m s

/-- Calls that are watched do the same as those that are not. -/
def WatchCaller.Erases (wcall : WatchCaller) (call : Caller) : Prop :=
  ∀ functions f args, YulToolchain.Erases (wcall functions f args) (call functions f args)

section Erasing

variable {α β : Type}

theorem Erases.pure (a : α) : Erases (pure a) (pure a) := fun _ _ => rfl

/-- One after the other. -/
theorem Erases.bind {w : Watch α} {m : Run α} {f : α → Watch β} {g : α → Run β}
    (hw : Erases w m) (hf : ∀ a, Erases (f a) (g a)) : Erases (w >>= f) (m >>= g) := by
  intro s notes
  have hs := hw s notes
  simp only [Bind.bind, EStateM.bind]
  cases hr : w (s, notes) with
  | ok a t =>
      rw [hr] at hs
      rw [← hs]
      exact hf a t.1 t.2
  | error halt t =>
      rw [hr] at hs
      rw [← hs]
      rfl

theorem Erases.silently (m : Run α) : Erases (silently m) m := by
  intro s notes
  rw [Watch.silently]
  cases m s <;> rfl

/-- Taking a note on the way changes nothing. -/
theorem Erases.noted {w : Watch α} {m : Run α} (e : LoopEvent) (h : Erases w m) :
    Erases (do note e; w) m := fun s notes => h s (notes ++ [e])

/-- Either way. -/
theorem Erases.ite {p : Prop} [Decidable p] {w w' : Watch α} {m m' : Run α} (h : Erases w m)
    (h' : Erases w' m') : Erases (if p then w else w') (if p then m else m') := by
  split
  · exact h
  · exact h'

theorem Erases.inScope {w : Watch α} {m : Run α} (h : Erases w m) :
    Erases (Watch.inScope w) (Run.inScope m) :=
  (Erases.silently _).bind fun _ => h.bind fun a => (Erases.silently _).bind fun _ => .pure a

/-- One round of a loop. -/
theorem Erases.round {c : RunContext} {depth loop : Nat} {test : Watch Word} {test' : Run Word}
    {body post : Watch Flow} {body' post' : Run Flow} (htest : Erases test test')
    (hbody : Erases body body') (hpost : Erases post post') :
    Erases (Watch.round c depth loop test body post) (Run.round c test' body' post') := by
  refine (Erases.silently _).bind fun _ => htest.bind fun value => Erases.ite (.pure false) ?_
  refine hbody.bind fun flow => ?_
  cases flow with
  | next => exact hpost.bind fun _ => .pure true
  | brk => exact (Erases.pure false).noted _
  | cont => exact (hpost.bind fun _ => .pure true).noted _

/-- Several rounds. -/
theorem Erases.rounds {w : Watch Bool} {m : Run Bool} (h : Erases w m) : ∀ fuel : Nat,
    Erases (Watch.rounds fuel w) (Run.rounds fuel m)
  | 0 => Erases.silently _
  | fuel + 1 => by
      rw [Watch.rounds, Run.rounds]
      exact h.bind fun another => Erases.ite (Erases.rounds h fuel) (.pure ())

end Erasing

section Code

variable {c : RunContext} {wcall : WatchCaller} {call : Caller}

mutual

/-- Expressions are the same without the watch. -/
theorem Expr.watch_erases (hcall : wcall.Erases call) (functions : FunctionScopes) :
    ∀ e : Expr, Erases (e.watch c wcall functions) (e.run c call functions)
  | .literal l => by
      rw [Expr.watch, Expr.run]
      exact .silently _
  | .ident line name => by
      rw [Expr.watch, Expr.run]
      exact .silently _
  | .instr line op args => by
      rw [Expr.watch, Expr.run]
      exact (Expr.watchArgs_erases hcall functions args).bind fun values => .silently _
  | .call line name args => by
      rw [Expr.watch, Expr.run]
      rcases c.dialect.builtin? name with _ | b
      · dsimp only
        -- Both runs call the same function, or find none.
        rcases functions.find? name with _ | f
        · exact .silently _
        · exact (Expr.watchArgs_erases hcall functions args).bind fun values =>
            Erases.ite (hcall functions f values) (.silently _)
      · dsimp only
        rcases b.code with op | _ | _ | _ | _
        · exact (Expr.watchArgs_erases hcall functions args).bind fun values => .silently _
        · exact .silently _
        · exact .silently _
        · exact (Expr.watchArgs_erases hcall functions args).bind fun values => .silently _
        · exact .pure _

/-- So are arguments. -/
theorem Expr.watchArgs_erases (hcall : wcall.Erases call) (functions : FunctionScopes) :
    ∀ args : List Expr,
      Erases (Expr.watchArgs c wcall functions args) (Expr.runArgs c call functions args)
  | [] => by
      rw [Expr.watchArgs, Expr.runArgs]
      exact .pure []
  | e :: rest => by
      rw [Expr.watchArgs, Expr.runArgs]
      exact (Expr.watchArgs_erases hcall functions rest).bind fun values =>
        (Expr.watch_erases hcall functions e).bind fun own =>
          (Erases.silently _).bind fun value => .pure _

end

theorem Expr.watchSingle_erases (hcall : wcall.Erases call) (functions : FunctionScopes)
    (e : Expr) : Erases (e.watchSingle c wcall functions) (e.runSingle c call functions) :=
  (Expr.watch_erases hcall functions e).bind fun _ => .silently _

mutual

/-- So are blocks. -/
theorem Block.watch_erases (hcall : wcall.Erases call) (depth : Nat) : ∀ (b : Block)
    (functions : FunctionScopes) (around : Option Nat) (id : Nat),
      Erases (b.watch c wcall depth functions around id) (b.run c call functions)
  | ⟨line, stmts⟩, functions, around, id => by
      rw [Block.watch, Block.run]
      exact (Stmt.watchSeq_erases hcall depth stmts _ around _).inScope

/-- So are statements in a row. -/
theorem Stmt.watchSeq_erases (hcall : wcall.Erases call) (depth : Nat) : ∀ (stmts : List Stmt)
    (functions : FunctionScopes) (around : Option Nat) (next : Nat),
      Erases (Stmt.watchSeq c wcall depth functions around next stmts)
        (Stmt.runSeq c call functions stmts)
  | [], functions, around, next => by
      rw [Stmt.watchSeq, Stmt.runSeq]
      exact .pure _
  | s :: rest, functions, around, next => by
      rw [Stmt.watchSeq, Stmt.runSeq]
      refine (Stmt.watch_erases hcall depth s functions around next).bind fun flow => ?_
      cases flow with
      | next => exact Stmt.watchSeq_erases hcall depth rest functions around _
      | brk => exact .pure _
      | cont => exact .pure _

/-- Watching a statement changes nothing. -/
theorem Stmt.watch_erases (hcall : wcall.Erases call) (depth : Nat) : ∀ (s : Stmt)
    (functions : FunctionScopes) (around : Option Nat) (next : Nat),
      Erases (s.watch c wcall depth functions around next) (s.run c call functions)
  | .expr line e, functions, around, next => by
      rw [Stmt.watch, Stmt.run]
      exact (Erases.silently _).bind fun _ => (Expr.watch_erases hcall functions e).bind fun _ =>
        Erases.ite (.pure _) (.silently _)
  | .assign line targets value, functions, around, next => by
      rw [Stmt.watch, Stmt.run]
      exact (Erases.silently _).bind fun _ =>
        (Expr.watch_erases hcall functions value).bind fun _ =>
          Erases.ite ((Erases.silently _).bind fun _ => .pure _) (.silently _)
  | .decl line vars value, functions, around, next => by
      rw [Stmt.watch, Stmt.run]
      -- What comes behind the value, or behind the zeros.
      have hrest : ∀ values : List Word, Erases
          (if values.length = vars.length then do
            Watch.silently
              (Run.modifyEnv (Environment.declareAll ((vars.map (·.name)).zip values)))
            return .next
          else Watch.silently (Run.fault (.declarationCount line)))
          (if values.length = vars.length then do
            Run.modifyEnv (Environment.declareAll ((vars.map (·.name)).zip values))
            return Flow.next
          else Run.fault (.declarationCount line)) := fun values =>
        Erases.ite ((Erases.silently _).bind fun _ => .pure _) (.silently _)
      refine (Erases.silently _).bind fun _ => ?_
      cases value with
      | none => exact (Erases.pure _).bind hrest
      | some e => exact (Expr.watch_erases hcall functions e).bind hrest
  | .func line name params returns body, functions, around, next => by
      rw [Stmt.watch, Stmt.run]
      exact (Erases.silently _).bind fun _ => .pure _
  | .cond line test body, functions, around, next => by
      rw [Stmt.watch, Stmt.run]
      exact (Erases.silently _).bind fun _ =>
        (Expr.watchSingle_erases hcall functions test).bind fun _ =>
          Erases.ite (.pure _) (Block.watch_erases hcall depth body functions around next)
  | .switch line subject cases, functions, around, next => by
      rw [Stmt.watch, Stmt.run]
      exact (Erases.silently _).bind fun _ =>
        (Expr.watchSingle_erases hcall functions subject).bind fun value =>
          Case.watchSeq_erases hcall depth value cases functions around next
  | .loop line ⟨preLine, pre⟩ test post body, functions, around, next => by
      rw [Stmt.watch, Stmt.run]
      refine (Erases.silently _).bind fun _ => Erases.bind ?_ fun _ => .pure _
      -- The loop is watched around its rounds only.
      refine Erases.inScope ((Stmt.watchSeq_erases hcall depth pre _ around _).bind fun _ => ?_)
      exact Erases.rounds (Erases.round (Expr.watchSingle_erases hcall _ test)
        (Block.watch_erases hcall depth body _ _ _) (Block.watch_erases hcall depth post _ _ _)) _
  | .brk line, functions, around, next => by
      rw [Stmt.watch, Stmt.run]
      exact (Erases.silently _).bind fun _ => (Erases.pure _).noted _
  | .cont line, functions, around, next => by
      rw [Stmt.watch, Stmt.run]
      exact (Erases.silently _).bind fun _ => (Erases.pure _).noted _
  | .block b, functions, around, next => by
      rw [Stmt.watch, Stmt.run]
      exact (Erases.silently _).bind fun _ => Block.watch_erases hcall depth b functions around next
  | .label line name, functions, around, next => by
      rw [Stmt.watch, Stmt.run]
      exact (Erases.silently _).bind fun _ => .silently _
  | .stackAssign line target, functions, around, next => by
      rw [Stmt.watch, Stmt.run]
      exact (Erases.silently _).bind fun _ => .silently _

/-- So are cases. -/
theorem Case.watchSeq_erases (hcall : wcall.Erases call) (depth : Nat) (value : Word) :
    ∀ (cases : List Case) (functions : FunctionScopes) (around : Option Nat) (next : Nat),
      Erases (Case.watchSeq c wcall depth functions around next value cases)
        (Case.runSeq c call functions value cases)
  | [], functions, around, next => by
      rw [Case.watchSeq, Case.runSeq]
      exact .pure _
  | ⟨_, none, body⟩ :: rest, functions, around, next => by
      rw [Case.watchSeq, Case.runSeq]
      exact Block.watch_erases hcall depth body functions around next
  | ⟨_, some l, body⟩ :: rest, functions, around, next => by
      rw [Case.watchSeq, Case.runSeq]
      exact (Erases.silently _).bind fun _ =>
        Erases.ite (Block.watch_erases hcall depth body functions around next)
          (Case.watchSeq_erases hcall depth value rest functions around _)

end

/-- So are calls of any depth. -/
theorem FunctionDef.watchCall_erases : ∀ depth : Nat,
    (FunctionDef.watchCall c depth).Erases (FunctionDef.call c depth)
  | 0, functions, f, args => Erases.silently _
  | depth + 1, functions, f, args => by
      rw [FunctionDef.watchCall, FunctionDef.call]
      exact (Erases.silently _).bind fun _ =>
        (Block.watch_erases (FunctionDef.watchCall_erases depth) depth f.body functions none 0).bind
          fun _ => (Erases.silently _).bind fun _ => .silently _

end Code

/-- A run that is watched has the same result. -/
theorem watch_eq (d : Dialect) (limits : Limits) (calldata : List UInt8) (code : Block) :
    (watch d limits calldata code).1 = interpret d limits calldata code := by
  have hcall := FunctionDef.watchCall_erases (c := ⟨d, limits, true⟩) limits.maxSteps
  have h := Block.watch_erases (c := ⟨d, limits, true⟩) hcall limits.maxSteps code [] none 0
    ⟨.initial calldata, 0, []⟩ []
  simp only [watch, interpret]
  rw [← h]
  split <;> rename_i hr <;> rw [hr] <;> rfl

end YulToolchain
