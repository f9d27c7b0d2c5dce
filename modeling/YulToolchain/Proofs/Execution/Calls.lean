import YulToolchain.Execution.Interpreter
import YulToolchain.Proofs.Rename.Respell

/-!
# The Calls of a Run

Which functions a run calls, from where.

The interpreter picks the function to call from the blocks that are being executed, those of
the callers included. To tell which definition it picks, the functions in sight are listed
together with where they are defined. A place is told by the number of its scope, as
everywhere else, and a function by the declaration of its name.

`Block.traced` follows the interpreter in this way and notes every call when the function is
picked. Without the notes it does the same: every line is that of the interpreter, and
`Retraces` is how this is proved, along with what is known of the calls.

## Main definitions

* `LocatedFunction`: A function with its declaration and the number of its scope.
* `Block.located`: The functions defined in a block, at whatever depth.
* `ExecutedCall`: A call from some place, with the function that is picked.
* `Expr.traced`, `Stmt.traced`, `Block.traced`: Evaluation and execution with notes.
* `traceCalls`: The run of a program, and the calls in it.
* `Retraces`: A computation with notes does the same as one without.

## Theorems

* `Retraces.bind`, `Retraces.rounds`: Retracing one step after another.
* `Block.located_declared`: Functions are told apart by their declarations.
-/

namespace YulToolchain

/-- A function with where it is defined. -/
structure LocatedFunction where
  /-- The function. -/
  function : FunctionDef
  /-- The declaration of its name. -/
  target : Declaration
  /-- The number of the scope of its parameters. -/
  own : Nat

/-- The functions of the blocks around a place, the innermost block first. -/
abbrev LocatedScopes := List (List LocatedFunction)

namespace LocatedScopes

/-- The functions without their places. -/
def functions (ls : LocatedScopes) : FunctionScopes := ls.map fun here => here.map (·.function)

/-- The function with a name. -/
def find? (name : String) : LocatedScopes → Option LocatedFunction
  | [] => none
  | here :: outer => match here.reverse.find? (·.function.name == name) with
    | some f => some f
    | none => find? name outer

end LocatedScopes

/-- The function that a statement in a scope defines. -/
def Stmt.located? (scope next : Nat) (s : Stmt) : Option LocatedFunction :=
  s.function?.map fun f => ⟨f, ⟨scope, f.name⟩, next⟩

/-- The functions that statements in a scope define. -/
def Stmt.locatedSeq (scope next : Nat) : List Stmt → List LocatedFunction
  | [] => []
  | s :: rest => (s.located? scope next).toList ++ Stmt.locatedSeq scope (next + s.scopeCount) rest

mutual

/-- The functions defined in a block with a number, at whatever depth. -/
def Block.located (id : Nat) : Block → List LocatedFunction
  | ⟨_, stmts⟩ => Stmt.allLocatedSeq id (id + 1) stmts

/-- The functions defined in statements in a scope, at whatever depth. -/
def Stmt.allLocatedSeq (scope next : Nat) : List Stmt → List LocatedFunction
  | [] => []
  | s :: rest => (s.located? scope next).toList ++ s.innerLocated next
      ++ Stmt.allLocatedSeq scope (next + s.scopeCount) rest

/-- The functions defined inside a statement. -/
def Stmt.innerLocated (next : Nat) : Stmt → List LocatedFunction
  | .func _ _ _ _ body => body.located (next + 1)
  | .cond _ _ body => body.located next
  | .switch _ _ cases => Case.locatedSeq next cases
  | .loop _ ⟨_, pre⟩ _ post body =>
    Stmt.allLocatedSeq next (next + 1) pre ++ body.located (next + 1 + Stmt.scopeCountSeq pre)
      ++ post.located (next + 1 + Stmt.scopeCountSeq pre + body.scopeCount)
  | .block b => b.located next
  | _ => []

/-- The functions defined in the cases of a switch. -/
def Case.locatedSeq (next : Nat) : List Case → List LocatedFunction
  | [] => []
  | ⟨_, _, body⟩ :: rest => body.located next ++ Case.locatedSeq (next + body.scopeCount) rest

end

/-- A call that is executed. -/
structure ExecutedCall where
  /-- The number of the scope in which the call stands. -/
  site : Nat
  /-- The name that is called. -/
  name : String
  /-- The function that is picked. -/
  callee : LocatedFunction

/-- A run that notes calls. -/
abbrev Traced := EStateM Halt (RunState × List ExecutedCall)

/-- What a call does with the functions in sight and the arguments. -/
abbrev TracedCaller := LocatedScopes → LocatedFunction → List Word → Traced (List Word)

namespace Traced

/-- Does something without calls. -/
def quietly {α : Type} (m : Run α) : Traced α := fun (s, calls) =>
  match m s with
  | .ok a t => .ok a (t, calls)
  | .error halt t => .error halt (t, calls)

/-- Notes a call. -/
def note (call : ExecutedCall) : Traced Unit := modify fun (s, calls) => (s, calls ++ [call])

/-- Runs a computation with a scope of its own for variables. -/
def inScope {α : Type} (m : Traced α) : Traced α := do
  quietly (Run.modifyEnv (.empty :: ·))
  let a ← m
  quietly (Run.modifyEnv List.tail)
  return a

/-- A round of a loop. It returns whether there is another one. -/
def round (c : RunContext) (test : Traced Word) (body post : Traced Flow) : Traced Bool := do
  quietly (Run.step c)
  let value ← test
  if value = 0 then return false
  else match ← body with
    | .brk => return false
    | _ =>
      let _ ← post
      return true

/-- Runs the rounds of a loop until one of them returns false. -/
def rounds : Nat → Traced Bool → Traced Unit
  | 0, _ => quietly Run.outOfSteps
  | fuel + 1, round => do
    if ← round then rounds fuel round

end Traced

open Traced

mutual

/-- The values of an expression in a scope. -/
def Expr.traced (c : RunContext) (call : TracedCaller) (ls : LocatedScopes) (scope : Nat) :
    Expr → Traced (List Word)
  | .literal l => quietly do return [← Run.literal l]
  | .ident line name => quietly do return [← Run.variableValue line name]
  | .instr _ op args => do
    let values ← Expr.tracedArgs c call ls scope args
    quietly (Run.instruction c op values)
  | .call line name args => match c.dialect.builtin? name with
    | some b => match b.code with
      | .instruction op => do
        let values ← Expr.tracedArgs c call ls scope args
        quietly (Run.instruction c op values)
      | .dataSize => quietly (Run.objectQuery line b.name args)
      | .dataOffset => quietly (Run.objectQuery line b.name args)
      | .dataCopy => do
        let values ← Expr.tracedArgs c call ls scope args
        quietly (Run.instruction c .codecopy values)
      | .stackEffectOnly => return List.replicate b.returns 0
    | none => match ls.find? name with
      | none => quietly (Run.fault (.unknownFunction name line))
      | some f => do
        note ⟨scope, name, f⟩
        let values ← Expr.tracedArgs c call ls scope args
        if values.length = f.function.params.length then call ls f values
        else quietly (Run.fault (.argumentCount f.function.name line))

/-- The values of arguments in a scope. -/
def Expr.tracedArgs (c : RunContext) (call : TracedCaller) (ls : LocatedScopes) (scope : Nat) :
    List Expr → Traced (List Word)
  | [] => pure []
  | e :: rest => do
    let values ← Expr.tracedArgs c call ls scope rest
    let own ← Expr.traced c call ls scope e
    let value ← quietly (Run.single e.line own)
    return value :: values

end

/-- The only value of an expression in a scope. -/
def Expr.tracedSingle (c : RunContext) (call : TracedCaller) (ls : LocatedScopes) (scope : Nat)
    (e : Expr) : Traced Word := do
  let values ← e.traced c call ls scope
  quietly (Run.single e.line values)

mutual

/-- Runs a block with a number. -/
def Block.traced (c : RunContext) (call : TracedCaller) (ls : LocatedScopes) (id : Nat) :
    Block → Traced Flow
  | ⟨_, stmts⟩ =>
    inScope (Stmt.tracedSeq c call (Stmt.locatedSeq id (id + 1) stmts :: ls) id (id + 1) stmts)

/-- Runs statements in a scope up to the first one after which control does not go on with the
    next. -/
def Stmt.tracedSeq (c : RunContext) (call : TracedCaller) (ls : LocatedScopes)
    (scope next : Nat) : List Stmt → Traced Flow
  | [] => return .next
  | s :: rest => do
    match ← Stmt.traced c call ls scope next s with
    | .next => Stmt.tracedSeq c call ls scope (next + s.scopeCount) rest
    | flow => return flow

/-- Runs a statement in a scope. -/
def Stmt.traced (c : RunContext) (call : TracedCaller) (ls : LocatedScopes) (scope next : Nat) :
    Stmt → Traced Flow
  | .expr line e => do
    quietly (Run.step c)
    let values ← e.traced c call ls scope
    if values.isEmpty then return .next else quietly (Run.fault (.valuesLeft line))
  | .assign line targets value => do
    quietly (Run.step c)
    let values ← value.traced c call ls scope
    if values.length = targets.length then
      quietly (Run.assignAll ((targets.map (·.name)).zip values))
      return .next
    else quietly (Run.fault (.assignmentCount line))
  | .decl line vars value => do
    quietly (Run.step c)
    let values ← match value with
      | some e => e.traced c call ls scope
      | none => pure (List.replicate vars.length 0)
    if values.length = vars.length then
      quietly (Run.modifyEnv (Environment.declareAll ((vars.map (·.name)).zip values)))
      return .next
    else quietly (Run.fault (.declarationCount line))
  | .func _ _ _ _ _ => do
    quietly (Run.step c)
    return .next
  | .cond _ test body => do
    quietly (Run.step c)
    let value ← test.tracedSingle c call ls scope
    if value = 0 then return .next else Block.traced c call ls next body
  | .switch _ subject cases => do
    quietly (Run.step c)
    let value ← subject.tracedSingle c call ls scope
    Case.tracedSeq c call ls next value cases
  | .loop _ ⟨_, pre⟩ test post body => do
    quietly (Run.step c)
    let ls := Stmt.locatedSeq next (next + 1) pre :: ls
    let bodyScope := next + 1 + Stmt.scopeCountSeq pre
    inScope do
      let _ ← Stmt.tracedSeq c call ls next (next + 1) pre
      rounds (c.limits.maxSteps + 1)
        (round c (test.tracedSingle c call ls next) (Block.traced c call ls bodyScope body)
          (Block.traced c call ls (bodyScope + body.scopeCount) post))
    return .next
  | .brk _ => do
    quietly (Run.step c)
    return .brk
  | .cont _ => do
    quietly (Run.step c)
    return .cont
  | .block b => do
    quietly (Run.step c)
    Block.traced c call ls next b
  | .label line _ => do
    quietly (Run.step c)
    quietly (Run.fault (.looseAssembly line))
  | .stackAssign line _ => do
    quietly (Run.step c)
    quietly (Run.fault (.looseAssembly line))

/-- Runs the first case of a switch that has a value or is the default. -/
def Case.tracedSeq (c : RunContext) (call : TracedCaller) (ls : LocatedScopes) (next : Nat)
    (value : Word) : List Case → Traced Flow
  | [] => return .next
  | ⟨_, none, body⟩ :: _ => Block.traced c call ls next body
  | ⟨_, some l, body⟩ :: rest => do
    let w ← quietly (Run.literal l)
    if w = value then Block.traced c call ls next body
    else Case.tracedSeq c call ls (next + body.scopeCount) value rest

end

/-- Calls a function. The first argument bounds the depth of calls. -/
def FunctionDef.tracedCall (c : RunContext) : Nat → TracedCaller
  | 0, _, _, _ => quietly Run.outOfSteps
  | depth + 1, ls, f, args => do
    let outer ← quietly (Run.replaceEnv [f.function.frame args])
    let _ ← f.function.body.traced c (FunctionDef.tracedCall c depth) ls (f.own + 1)
    let inner ← quietly (Run.replaceEnv outer)
    quietly (Run.results f.function inner)

/-- Runs a program with call data within a budget, and lists the calls that are executed, in
    their order. -/
def traceCalls (d : Dialect) (limits : Limits) (calldata : List UInt8) (code : Block) :
    Except RunFault RunResult × List ExecutedCall :=
  let c : RunContext := ⟨d, limits, true⟩
  match code.traced c (FunctionDef.tracedCall c limits.maxSteps) [] 0
      (⟨.initial calldata, 0, []⟩, []) with
  | .ok _ (s, calls) => (.ok ⟨s.machine, none⟩, calls)
  | .error (.ended t) (s, calls) => (.ok ⟨s.machine, some t⟩, calls)
  | .error (.failed why) (_, calls) => (.error why, calls)

/-- The outcome of a run together with calls. -/
def withCalls {α : Type} (calls : List ExecutedCall) :
    EStateM.Result Halt RunState α → EStateM.Result Halt (RunState × List ExecutedCall) α
  | .ok a s => .ok a (s, calls)
  | .error halt s => .error halt (s, calls)

/-- A computation that notes calls does the same as one that does not, and the calls it notes
    have a property. -/
def Retraces {α : Type} (P : ExecutedCall → Prop) (w : Traced α) (m : Run α) : Prop :=
  ∀ s calls, ∃ more, (∀ call ∈ more, P call) ∧ w (s, calls) = withCalls (calls ++ more) (m s)

section Retracing

variable {P : ExecutedCall → Prop} {α β : Type}

theorem Retraces.pure (a : α) : Retraces P (pure a) (pure a) := fun s calls =>
  ⟨[], fun _ h => absurd h List.not_mem_nil, by rw [List.append_nil]; rfl⟩

/-- What makes no calls is retraced without notes. -/
theorem Retraces.quietly (m : Run α) : Retraces P (quietly m) m := by
  intro s calls
  refine ⟨[], fun _ h => absurd h List.not_mem_nil, ?_⟩
  rw [List.append_nil, Traced.quietly]
  cases m s <;> rfl

/-- Retraced one after the other. -/
theorem Retraces.bind {w : Traced α} {m : Run α} {f : α → Traced β} {g : α → Run β}
    (hw : Retraces P w m) (hf : ∀ a, Retraces P (f a) (g a)) :
    Retraces P (w >>= f) (m >>= g) := by
  intro s calls
  rcases hw s calls with ⟨first, hfirst, heq⟩
  simp only [Bind.bind, EStateM.bind, heq]
  cases m s with
  | error halt t => exact ⟨first, hfirst, rfl⟩
  | ok a t =>
      rcases hf a t (calls ++ first) with ⟨second, hsecond, heq'⟩
      refine ⟨first ++ second, fun call hcall => ?_, ?_⟩
      · exact (List.mem_append.mp hcall).elim (hfirst call) (hsecond call)
      · rw [List.append_assoc] at heq'
        exact heq'

/-- Noting a call on the way changes nothing else. -/
theorem Retraces.noted {w : Traced α} {m : Run α} {call : ExecutedCall} (hcall : P call)
    (h : Retraces P w m) : Retraces P (do note call; w) m := by
  intro s calls
  rcases h s (calls ++ [call]) with ⟨more, hmore, heq⟩
  refine ⟨call :: more, List.forall_mem_cons.mpr ⟨hcall, hmore⟩, ?_⟩
  rw [List.append_assoc, List.singleton_append] at heq
  exact heq

/-- Either way retraced. -/
theorem Retraces.ite {p : Prop} [Decidable p] {w w' : Traced α} {m m' : Run α}
    (h : Retraces P w m) (h' : Retraces P w' m') :
    Retraces P (if p then w else w') (if p then m else m') := by
  split
  · exact h
  · exact h'

theorem Retraces.inScope {w : Traced α} {m : Run α} (h : Retraces P w m) :
    Retraces P (Traced.inScope w) (Run.inScope m) :=
  (Retraces.quietly _).bind fun _ => h.bind fun a => (Retraces.quietly _).bind fun _ => .pure a

/-- One round of a loop is retraced. -/
theorem Retraces.round {c : RunContext} {test : Traced Word} {test' : Run Word}
    {body post : Traced Flow} {body' post' : Run Flow} (htest : Retraces P test test')
    (hbody : Retraces P body body') (hpost : Retraces P post post') :
    Retraces P (Traced.round c test body post) (Run.round c test' body' post') := by
  refine (Retraces.quietly _).bind fun _ => htest.bind fun value => Retraces.ite (.pure false) ?_
  refine hbody.bind fun flow => ?_
  cases flow with
  | brk => exact .pure false
  | next | cont => exact hpost.bind fun _ => .pure true

/-- So are several. -/
theorem Retraces.rounds {w : Traced Bool} {m : Run Bool} (h : Retraces P w m) (fuel : Nat) :
    Retraces P (Traced.rounds fuel w) (Run.rounds fuel m) := by
  induction fuel with
  | zero => exact Retraces.quietly _
  | succ fuel ih =>
      rw [Traced.rounds, Run.rounds]
      exact h.bind fun another => Retraces.ite ih (.pure ())

end Retracing

section Located

/-- What is found with its place is what is found without. -/
theorem LocatedScopes.find?_functions (name : String) : ∀ ls : LocatedScopes,
    ls.functions.find? name = (ls.find? name).map (·.function)
  | [] => rfl
  | here :: outer => by
      have hhere : findFunction? name (here.map (·.function))
          = (here.reverse.find? (·.function.name == name)).map (·.function) := by
        rw [findFunction?, ← List.map_reverse, List.find?_map]
        rfl
      have hcons : functions (here :: outer) = here.map (·.function) :: functions outer := rfl
      rw [hcons, FunctionScopes.find?, hhere, find?_functions name outer, find?]
      cases here.reverse.find? (·.function.name == name) <;> rfl

/-- The located functions of statements are their functions. -/
theorem Stmt.map_locatedSeq (scope : Nat) : ∀ (stmts : List Stmt) (next : Nat),
    (Stmt.locatedSeq scope next stmts).map (·.function) = stmts.filterMap Stmt.function?
  | [], _ => rfl
  | s :: rest, next => by
      rw [Stmt.locatedSeq, List.map_append, Stmt.map_locatedSeq scope rest, List.filterMap_cons,
        Stmt.located?]
      cases s.function? <;> rfl

mutual

/-- The functions of a block are declared in it. -/
theorem Block.located_declared : ∀ (b : Block) (id : Nat),
    ((b.located id).map (·.target)).Sublist (b.declarations id)
  | ⟨_, stmts⟩, id => Stmt.allLocatedSeq_declared stmts id (id + 1)

/-- The places of functions are among the declarations, in the same order. -/
theorem Stmt.allLocatedSeq_declared : ∀ (stmts : List Stmt) (scope next : Nat),
    ((Stmt.allLocatedSeq scope next stmts).map (·.target)).Sublist
      (Stmt.declarationsSeq scope next stmts)
  | [], _, _ => .slnil
  | s :: rest, scope, next => by
      rw [Stmt.allLocatedSeq, Stmt.declarationsSeq, List.map_append]
      exact (Stmt.located_declared s scope next).append (Stmt.allLocatedSeq_declared rest scope _)

/-- The same for one statement. -/
theorem Stmt.located_declared : ∀ (s : Stmt) (scope next : Nat),
    (((s.located? scope next).toList ++ s.innerLocated next).map (·.target)).Sublist
      (s.declarations scope next)
  | .func _ name params returns body, scope, next => by
      rw [Stmt.declarations, List.cons_append]
      exact .cons_cons _ ((Block.located_declared body (next + 1)).trans
        (List.sublist_append_right _ _))
  | .cond _ _ body, scope, next => Block.located_declared body next
  | .switch _ _ cases, scope, next => Case.locatedSeq_declared cases next
  | .loop _ ⟨_, pre⟩ _ post body, scope, next => by
      show ((Stmt.innerLocated next _).map (·.target)).Sublist _
      rw [Stmt.innerLocated, Stmt.declarations, List.map_append, List.map_append]
      exact ((Stmt.allLocatedSeq_declared pre next (next + 1)).append
        (Block.located_declared body _)).append (Block.located_declared post _)
  | .block b, scope, next => Block.located_declared b next
  | .expr _ _, _, _ => .slnil
  | .assign _ _ _, _, _ => .slnil
  | .decl _ _ _, _, _ => List.nil_sublist _
  | .brk _, _, _ => .slnil
  | .cont _, _, _ => .slnil
  | .label _ _, _, _ => List.nil_sublist _
  | .stackAssign _ _, _, _ => .slnil

/-- The same for cases. -/
theorem Case.locatedSeq_declared : ∀ (cases : List Case) (next : Nat),
    ((Case.locatedSeq next cases).map (·.target)).Sublist (Case.declarationsSeq next cases)
  | [], _ => .slnil
  | ⟨_, _, body⟩ :: rest, next => by
      rw [Case.locatedSeq, Case.declarationsSeq, List.map_append]
      exact (Block.located_declared body next).append (Case.locatedSeq_declared rest _)

end

end Located

end YulToolchain
