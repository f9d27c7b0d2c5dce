import YulToolchain.Proofs.Execution.Environment
import YulToolchain.Proofs.Execution.Soundness
import YulToolchain.Proofs.Static.Sight

/-!
# What a Block Can Change

A block changes no variables but those that it assigns.

`Block.assigned` is read off the text, nested blocks and the bodies of functions included, and
the optimiser forgets the values of these variables and no others when it is past a block. What
is executed is more than what stands there: a call leads to a function that may stand anywhere,
and from there to others. They all have variables of their own. While a function is executed the
variables of its callers wait, and come back when it returns.

The interpreter keeps what waits in the middle of its own computation, where nothing can be said
about it. Here runs are done once more on all frames (`FramedState`): a call puts a frame on top
and takes it away again, and whenever a block comes to its end, on whichever way, there is a note
of the frames before and after. The result is the same.

A single relation between both kinds of runs carries the argument (`Accompanies`). It says that the
notes are proper, that no frame below has changed when a computation ends, and how the current
one has changed. For expressions that is not at all, for statements nowhere outside of the
innermost scope but at the variables that are assigned, and a block closes its innermost scope.
There is no need for the code to be accepted: a name that is declared once more is declared in
the innermost scope.

## Main definitions

* `Block.nested`: The blocks inside a block.
* `Frames`, `FramedState`: The variables of all functions that are being executed.
* `BlockRun`: An execution of a block, with the variables before and after.
* `Expr.framed`, `Stmt.framed`, `Block.framed`: Code that is run on all frames.
* `runBlocks`: The result of a program, with the blocks that were executed.
* `Environment.Confined`, `Environment.ConfinedOutside`: How variables may change.
* `Run.Moves`: How a computation changes the variables.
* `Accords`, `Accompanies`: A computation on all frames does what one on the current frame does.

## Theorems

* `Accords.bind`, `Accompanies.inScope`, `Accompanies.inFrame`, `Accompanies.rounds`: Sequencing,
  scopes, frames and loops.
* `Block.framed_accompanies`, `Stmt.framed_accompanies`, `FunctionDef.framedCall_accompanies`:
  Code.
* `blocks_change_what_they_assign`: What is changed in the run of a program.
-/

namespace YulToolchain

mutual

/-- The blocks inside a block, itself included. -/
def Block.nested : Block → List Block
  | ⟨line, stmts⟩ => ⟨line, stmts⟩ :: Stmt.nestedSeq stmts

/-- The blocks inside some statements. -/
def Stmt.nestedSeq : List Stmt → List Block
  | [] => []
  | s :: rest => s.nested ++ Stmt.nestedSeq rest

/-- The blocks inside a statement. -/
def Stmt.nested : Stmt → List Block
  | .func _ _ _ _ body => body.nested
  | .cond _ _ body => body.nested
  | .switch _ _ cases => Case.nestedSeq cases
  | .loop _ pre _ post body => pre.nested ++ body.nested ++ post.nested
  | .block b => b.nested
  | _ => []

/-- The blocks inside some cases. -/
def Case.nestedSeq : List Case → List Block
  | [] => []
  | ⟨_, _, body⟩ :: rest => body.nested ++ Case.nestedSeq rest

end

/-- The variables at some moment of a run: those of the function that is executed, and those of
    the calls that wait for it, the latest one first. -/
structure Frames where
  /-- The scopes of the function that is executed. -/
  current : Environment
  /-- The scopes of those that wait. -/
  suspended : List Environment

/-- An execution of a block that came to its end. -/
structure BlockRun where
  /-- The block. -/
  block : Block
  /-- The variables before. -/
  before : Frames
  /-- The variables after. -/
  after : Frames
  /-- How control goes on. -/
  flow : Flow

/-- The state of a run that keeps the variables of all calls, and notes which blocks were
    executed. -/
structure FramedState where
  /-- The state of the interpreter. -/
  run : RunState
  /-- The variables of the calls that wait. -/
  suspended : List Environment
  /-- The blocks that were executed, the latest one last. -/
  runs : List BlockRun

/-- A computation of the interpreter on all frames. -/
abbrev Framed := EStateM Halt FramedState

/-- What a call does on all frames. -/
abbrev FramedCaller := FunctionScopes → FunctionDef → List Word → Framed (List Word)

namespace Framed

/-- Does something that concerns the current frame only. -/
def plainly {α : Type} (m : Run α) : Framed α := fun s =>
  match m s.run with
  | .ok a t => .ok a { s with run := t }
  | .error halt t => .error halt { s with run := t }

/-- The frames at this moment, or what one wants to see of the current one. -/
def frames (view : Environment → Environment) : Framed Frames := do
  let s ← get
  return ⟨view s.run.env, s.suspended⟩

/-- Executes a block, and notes what was in the scopes around its own before and after. -/
def noting (b : Block) (outside : Environment → Environment) (m : Framed Flow) : Framed Flow := do
  let before ← frames outside
  let flow ← m
  let after ← frames outside
  modify fun s => { s with runs := s.runs ++ [⟨b, before, after, flow⟩] }
  return flow

/-- Puts a frame on top of the others. -/
def suspend (frame : Table String Word) : Framed Unit := modify fun s =>
  { s with run := { s.run with env := [frame] }, suspended := s.run.env :: s.suspended }

/-- Takes the topmost frame away, and returns its variables. -/
def resume : Framed Environment := modifyGet fun s => match s.suspended with
  | [] => (s.run.env, s)
  | env :: outer => (s.run.env, { s with run := { s.run with env := env }, suspended := outer })

/-- Runs a computation with a scope of its own for variables. -/
def inScope {α : Type} (m : Framed α) : Framed α := do
  plainly (Run.modifyEnv (.empty :: ·))
  let a ← m
  plainly (Run.modifyEnv List.tail)
  return a

/-- A round of a loop. It returns whether there is another one. -/
def round (c : RunContext) (test : Framed Word) (body post : Framed Flow) : Framed Bool := do
  plainly (Run.step c)
  let value ← test
  if value = 0 then return false
  else match ← body with
    | .brk => return false
    | _ =>
      let _ ← post
      return true

/-- Runs the rounds of a loop until one of them returns false. The first
    argument bounds their number. -/
def rounds : Nat → Framed Bool → Framed Unit
  | 0, _ => plainly Run.outOfSteps
  | fuel + 1, round => do
    if ← round then rounds fuel round

end Framed

open Framed

mutual

/-- The values of an expression. -/
def Expr.framed (c : RunContext) (call : FramedCaller) (functions : FunctionScopes) :
    Expr → Framed (List Word)
  | .literal l => plainly do return [← Run.literal l]
  | .ident line name => plainly do return [← Run.variableValue line name]
  | .instr _ op args => do
    let values ← Expr.framedArgs c call functions args
    plainly (Run.instruction c op values)
  | .call line name args => match c.dialect.builtin? name with
    | some b => match b.code with
      | .instruction op => do
        let values ← Expr.framedArgs c call functions args
        plainly (Run.instruction c op values)
      | .dataSize => plainly (Run.objectQuery line b.name args)
      | .dataOffset => plainly (Run.objectQuery line b.name args)
      | .dataCopy => do
        let values ← Expr.framedArgs c call functions args
        plainly (Run.instruction c .codecopy values)
      | .stackEffectOnly => return List.replicate b.returns 0
    | none => match functions.find? name with
      | none => plainly (Run.fault (.unknownFunction name line))
      | some f => do
        let values ← Expr.framedArgs c call functions args
        if values.length = f.params.length then call functions f values
        else plainly (Run.fault (.argumentCount f.name line))

/-- The values of arguments, the first one first. -/
def Expr.framedArgs (c : RunContext) (call : FramedCaller) (functions : FunctionScopes) :
    List Expr → Framed (List Word)
  | [] => pure []
  | e :: rest => do
    let values ← Expr.framedArgs c call functions rest
    let own ← Expr.framed c call functions e
    let value ← plainly (Run.single e.line own)
    return value :: values

end

/-- The only value of an expression. -/
def Expr.framedSingle (c : RunContext) (call : FramedCaller) (functions : FunctionScopes)
    (e : Expr) : Framed Word := do
  let values ← e.framed c call functions
  plainly (Run.single e.line values)

mutual

/-- Runs a block in a scope of its own. -/
def Block.framed (c : RunContext) (call : FramedCaller) (functions : FunctionScopes) :
    Block → Framed Flow
  | ⟨line, stmts⟩ =>
    noting ⟨line, stmts⟩ id
      (inScope (Stmt.framedSeq c call ((⟨line, stmts⟩ : Block).functions :: functions) stmts))

/-- Runs statements up to the first one after which control does not go on with
    the next. -/
def Stmt.framedSeq (c : RunContext) (call : FramedCaller) (functions : FunctionScopes) :
    List Stmt → Framed Flow
  | [] => return .next
  | s :: rest => do
    match ← Stmt.framed c call functions s with
    | .next => Stmt.framedSeq c call functions rest
    | flow => return flow

/-- Runs a statement. The scope of the `pre` block of a loop is open before and after its
    statements. -/
def Stmt.framed (c : RunContext) (call : FramedCaller) (functions : FunctionScopes) :
    Stmt → Framed Flow
  | .expr line e => do
    plainly (Run.step c)
    let values ← e.framed c call functions
    if values.isEmpty then return .next else plainly (Run.fault (.valuesLeft line))
  | .assign line targets value => do
    plainly (Run.step c)
    let values ← value.framed c call functions
    if values.length = targets.length then
      plainly (Run.assignAll ((targets.map (·.name)).zip values))
      return .next
    else plainly (Run.fault (.assignmentCount line))
  | .decl line vars value => do
    plainly (Run.step c)
    let values ← match value with
      | some e => e.framed c call functions
      | none => pure (List.replicate vars.length 0)
    if values.length = vars.length then
      plainly (Run.modifyEnv (Environment.declareAll ((vars.map (·.name)).zip values)))
      return .next
    else plainly (Run.fault (.declarationCount line))
  | .func _ _ _ _ _ => do
    plainly (Run.step c)
    return .next
  | .cond _ test body => do
    plainly (Run.step c)
    let value ← test.framedSingle c call functions
    if value = 0 then return .next else Block.framed c call functions body
  | .switch _ subject cases => do
    plainly (Run.step c)
    let value ← subject.framedSingle c call functions
    Case.framedSeq c call functions value cases
  | .loop _ ⟨line, pre⟩ test post body => do
    plainly (Run.step c)
    let functions := (⟨line, pre⟩ : Block).functions :: functions
    inScope do
      let _ ← noting ⟨line, pre⟩ List.tail (Stmt.framedSeq c call functions pre)
      rounds (c.limits.maxSteps + 1)
        (Framed.round c (test.framedSingle c call functions) (Block.framed c call functions body)
          (Block.framed c call functions post))
    return .next
  | .brk _ => do
    plainly (Run.step c)
    return .brk
  | .cont _ => do
    plainly (Run.step c)
    return .cont
  | .block b => do
    plainly (Run.step c)
    Block.framed c call functions b
  | .label line _ => do
    plainly (Run.step c)
    plainly (Run.fault (.looseAssembly line))
  | .stackAssign line _ => do
    plainly (Run.step c)
    plainly (Run.fault (.looseAssembly line))

/-- Runs the first case of a switch that has a value or is the default. -/
def Case.framedSeq (c : RunContext) (call : FramedCaller) (functions : FunctionScopes)
    (value : Word) : List Case → Framed Flow
  | [] => return .next
  | ⟨_, none, body⟩ :: _ => Block.framed c call functions body
  | ⟨_, some l, body⟩ :: rest => do
    let w ← plainly (Run.literal l)
    if w = value then Block.framed c call functions body
    else Case.framedSeq c call functions value rest

end

/-- Calls a function in a frame of its own. The first argument bounds the depth of calls. -/
def FunctionDef.framedCall (c : RunContext) : Nat → FramedCaller
  | 0, _, _, _ => plainly Run.outOfSteps
  | depth + 1, functions, f, args => do
    suspend (f.frame args)
    let _ ← f.body.framed c (FunctionDef.framedCall c depth) functions
    let inner ← resume
    plainly (Run.results f inner)

/-- Runs a program with call data within a budget, and returns the blocks that were executed
    with the result. -/
def runBlocks (d : Dialect) (limits : Limits) (calldata : List UInt8) (code : Block) :
    Except RunFault RunResult × List BlockRun :=
  let c : RunContext := ⟨d, limits, true⟩
  match code.framed c (FunctionDef.framedCall c limits.maxSteps) []
      ⟨⟨.initial calldata, 0, []⟩, [], []⟩ with
  | .ok _ s => (.ok ⟨s.run.machine, none⟩, s.runs)
  | .error (.ended t) s => (.ok ⟨s.run.machine, some t⟩, s.runs)
  | .error (.failed why) s => (.error why, s.runs)

namespace Environment

/-- Of the variables that exist, those with other names are unchanged, and no one is lost. -/
def Confined (names : List String) : Environment → Environment → Prop :=
  List.Forall₂ fun before after => ∀ x w, before.get? x = some w →
    (∃ w', after.get? x = some w') ∧ (x ∉ names → after.get? x = some w)

/-- The same outside of the innermost scope. -/
structure ConfinedOutside (names : List String) (before after : Environment) : Prop where
  length : after.length = before.length
  outside : Confined names before.tail after.tail

variable {names names' : List String} {a b d : Environment}

theorem Confined.refl (names : List String) (a : Environment) : Confined names a a :=
  List.forall₂_same.mpr fun _ _ _ w hw => ⟨⟨w, hw⟩, fun _ => hw⟩

/-- Changes of the same names add up. -/
theorem Confined.trans (hab : Confined names a b) (hbd : Confined names b d) :
    Confined names a d := by
  induction hab generalizing d with
  | nil => exact hbd
  | cons hscope _ ih =>
      rcases List.forall₂_cons_left_iff.mp hbd with ⟨scope, rest, hscope', hrest, rfl⟩
      refine .cons (fun x w hw => ?_) (ih hrest)
      rcases hscope x w hw with ⟨⟨w', hw'⟩, hsame⟩
      exact ⟨(hscope' x w' hw').1, fun hx => (hscope' x w (hsame hx)).2 hx⟩

theorem Confined.mono (h : Confined names a b) (hsub : names ⊆ names') : Confined names' a b :=
  h.imp fun _ _ hscope x w hw =>
    ⟨(hscope x w hw).1, fun hx => (hscope x w hw).2 fun hmem => hx (hsub hmem)⟩

/-- What is confined is confined outside. -/
theorem Confined.outside (h : Confined names a b) : ConfinedOutside names a b := by
  refine ⟨h.length_eq.symm, ?_⟩
  cases h with
  | nil => exact .nil
  | cons _ hrest => exact hrest

theorem ConfinedOutside.refl (names : List String) (a : Environment) : ConfinedOutside names a a :=
  (Confined.refl names a).outside

theorem ConfinedOutside.trans (hab : ConfinedOutside names a b) (hbd : ConfinedOutside names b d) :
    ConfinedOutside names a d :=
  ⟨hbd.length.trans hab.length, hab.outside.trans hbd.outside⟩

theorem ConfinedOutside.mono (h : ConfinedOutside names a b) (hsub : names ⊆ names') :
    ConfinedOutside names' a b :=
  ⟨h.length, h.outside.mono hsub⟩

/-- Declaring changes the innermost scope only. -/
theorem ConfinedOutside.declareAll : ∀ (pairs : List (String × Word)) (a : Environment),
    ConfinedOutside names a (a.declareAll pairs)
  | [], a => .refl names a
  | (x, w) :: rest, a => by
      have hdeclare : ConfinedOutside names a (a.declare x w) := by
        cases a with
        | nil => exact .refl names []
        | cons scope outer => exact ⟨rfl, Confined.refl names outer⟩
      exact hdeclare.trans (ConfinedOutside.declareAll rest (a.declare x w))

/-- An assignment changes the name that is assigned. -/
theorem Confined.assign? {x : String} {w : Word} (hx : x ∈ names) :
    ∀ {a b : Environment}, a.assign? x w = some b → Confined names a b
  | [], _, h => absurd h (by rintro ⟨⟩)
  | scope :: outer, b, h => by
      rw [Environment.assign?] at h
      -- The innermost scope has the name, or an outer one does.
      by_cases hscope : scope.contains x = true
      · rw [if_pos hscope, Option.some.injEq] at h
        subst h
        refine .cons (fun y w' hw' => ?_) (Confined.refl names outer)
        rw [Table.get?_insert]
        by_cases hy : y = x
        · rw [if_pos hy]
          exact ⟨⟨w, rfl⟩, fun hmem => absurd (hy ▸ hx) hmem⟩
        · rw [if_neg hy]
          exact ⟨⟨w', hw'⟩, fun _ => hw'⟩
      · rw [if_neg hscope, Option.map_eq_some_iff] at h
        rcases h with ⟨outer', houter, rfl⟩
        exact .cons (fun y w' hw' => ⟨⟨w', hw'⟩, fun _ => hw'⟩) (Confined.assign? hx houter)

end Environment

/-- A computation that comes to an end changes the variables in a certain way. -/
def Run.Moves {α : Type} (R : Environment → Environment → Prop) (m : Run α) : Prop :=
  ∀ s a t, m s = .ok a t → R s.env t.env

namespace Run.Moves

variable {α β : Type} {R : Environment → Environment → Prop} {m : Run α} {f : α → Run β}

theorem pure (hR : ∀ a, R a a) (a : α) : Moves R (Pure.pure a : Run α) := by
  intro s b t h
  cases h
  exact hR _

theorem fault (why : RunFault) : Moves R (Run.fault why : Run α) :=
  fun _ _ _ h => by cases h

/-- Moves one after the other. -/
theorem bind (hR : ∀ a b d, R a b → R b d → R a d) (hm : Moves R m) (hf : ∀ a, Moves R (f a)) :
    Moves R (m >>= f) := by
  intro s b u h
  simp only [Bind.bind, EStateM.bind] at h
  cases ht : m s with
  | error halt t => simp only [ht, reduceCtorEq] at h
  | ok a t =>
      simp only [ht] at h
      exact hR _ _ _ (hm s a t ht) (hf a t b u h)

/-- A step moves nothing. -/
theorem step (c : RunContext) : Moves Eq (Run.step c) := by
  intro s a t h
  have hstep : Ends (Run.step c s) _ := Ends.step
  rw [h] at hstep
  have ht : t = { s with steps := s.steps + 1 } := hstep
  rw [ht]

/-- A literal moves nothing. -/
theorem literal (l : Literal) : Moves Eq (Run.literal l) := by
  rw [Run.literal]
  cases l.value with
  | ok w => exact .pure Eq.refl w
  | error why => exact .fault _

/-- Reading moves nothing. -/
theorem variableValue (line : Nat) (x : String) : Moves Eq (Run.variableValue line x) := by
  intro s w t h
  cases hx : s.env.get? x with
  | some value =>
      rw [Run.variableValue_some hx] at h
      cases h
      rfl
  | none =>
      rw [Run.variableValue_none hx] at h
      cases h

/-- Neither does a single value. -/
theorem single (line : Nat) (values : List Word) : Moves Eq (Run.single line values) := by
  match values with
  | [] => exact .fault _
  | [value] => exact .pure Eq.refl value
  | _ :: _ :: _ => exact .fault _

/-- Nor an instruction. -/
theorem instruction (c : RunContext) (op : Instruction) (args : List Word) :
    Moves Eq (Run.instruction c op args) := by
  intro s values t h
  simp only [Run.instruction, Run.onMachine, Bind.bind, EStateM.bind] at h
  cases hr : op.execute c.limits args s.machine with
  | ok r machine =>
      rw [hr] at h
      cases h
      rfl
  | error halt machine => simp only [hr, reduceCtorEq] at h

/-- Nor a query. -/
theorem objectQuery (line : Nat) (function : String) (args : List Expr) :
    Moves Eq (Run.objectQuery line function args) := by
  unfold Run.objectQuery
  split
  · rename_i l
    cases l.stringBytes with
    | ok bytes => exact .pure Eq.refl _
    | error why => exact .fault _
  · exact .fault _

/-- Nor reading the results. -/
theorem results (f : FunctionDef) (env : Environment) : Moves Eq (Run.results f env) := by
  rw [Run.results]
  cases env.getLast? with
  | none => exact .fault _
  | some frame =>
      simp only
      induction f.returns with
      | nil => exact .pure Eq.refl _
      | cons v rest ih =>
          have htrans : ∀ a b d : Environment, a = b → b = d → a = d := fun _ _ _ => Eq.trans
          rw [List.mapM_cons]
          refine bind htrans ?_ fun value => bind htrans ih fun values => .pure Eq.refl _
          cases frame.get? v.name with
          | none => exact .fault _
          | some value => exact .pure Eq.refl value

/-- Declaring moves the innermost scope. -/
theorem declareAll {names : List String} (pairs : List (String × Word)) :
    Moves (Environment.ConfinedOutside names) (Run.modifyEnv (Environment.declareAll pairs)) := by
  intro s u t h
  cases h
  exact .declareAll pairs s.env

/-- Assigning moves one name. -/
theorem assign {names : List String} {x : String} (hx : x ∈ names) (w : Word) :
    Moves (Environment.Confined names) (Run.assign x w) := by
  intro s u t h
  cases henv : s.env.assign? x w with
  | none =>
      rw [Run.assign_none henv] at h
      cases h
  | some env =>
      rw [Run.assign_some henv] at h
      cases h
      exact .assign? hx henv

/-- Assigning several moves these. -/
theorem assignAll {names : List String} : ∀ (pairs : List (String × Word)),
    (∀ p ∈ pairs, p.1 ∈ names) → Moves (Environment.Confined names) (Run.assignAll pairs)
  | [], _ => .pure (.refl names) ()
  | (x, w) :: rest, h => by
      rcases List.forall_mem_cons.mp h with ⟨hx, hrest⟩
      exact bind (fun _ _ _ => .trans) (.assign hx w) fun _ => assignAll rest hrest

end Run.Moves

/-- A block that was executed is one of some blocks, it has changed no variables but those that
    it assigns, and none of the frames that wait. -/
structure BlockRun.Proper (P : Block → Prop) (r : BlockRun) : Prop where
  block : P r.block
  suspended : r.after.suspended = r.before.suspended
  current : Environment.Confined r.block.assigned r.before.current r.after.current

/-- Both kinds of runs have come to the same, with certain frames that wait and a condition on
    the variables unless it is a halt. All notes are proper. -/
structure Accords {α : Type} (P : Block → Prop) (Q : Environment → Prop)
    (suspended : List Environment) (r' : EStateM.Result Halt FramedState α) (r : Outcome α) :
    Prop where
  ok : ∀ a t, r = .ok a t → ∃ runs, r' = .ok a ⟨t, suspended, runs⟩ ∧
    (∀ r ∈ runs, r.Proper P) ∧ Q t.env
  error : ∀ halt t, r = .error halt t → ∃ suspended runs, r' = .error halt ⟨t, suspended, runs⟩ ∧
    ∀ r ∈ runs, r.Proper P

/-- A computation on all frames does what one on the current frame does. If it comes to an end
    the frames that wait are as before and the current one has changed in a certain way, and
    proper notes are taken in either case. -/
def Accompanies {α : Type} (P : Block → Prop) (R : Environment → Environment → Prop)
    (m' : Framed α) (m : Run α) : Prop :=
  ∀ s : FramedState, (∀ r ∈ s.runs, r.Proper P) →
    Accords P (R s.run.env) s.suspended (m' s) (m s.run)

/-- Less may be told of the environment. -/
theorem Accords.mono {α : Type} {P : Block → Prop} {Q Q' : Environment → Prop}
    {suspended : List Environment} {r' : EStateM.Result Halt FramedState α} {r : Outcome α}
    (h : Accords P Q suspended r' r) (hQ : ∀ env, Q env → Q' env) :
    Accords P Q' suspended r' r := by
  refine ⟨fun a t hr => ?_, h.error⟩
  rcases h.ok a t hr with ⟨runs, hr', hruns, ht⟩
  exact ⟨runs, hr', hruns, hQ _ ht⟩

/-- One computation after another, each of them with frames of its own that wait. -/
theorem Accords.bind {α β : Type} {P : Block → Prop} {Q Q' : Environment → Prop}
    {suspended suspended' : List Environment} {m' : Framed α} {m : Run α} {f' : α → Framed β}
    {f : α → Run β} {s' : FramedState} {s : RunState} (h : Accords P Q suspended (m' s') (m s))
    (hf : ∀ a t runs, (∀ r ∈ runs, r.Proper P) → Q t.env →
      Accords P Q' suspended' (f' a ⟨t, suspended, runs⟩) (f a t)) :
    Accords P Q' suspended' ((m' >>= f') s') ((m >>= f) s) := by
  simp only [Bind.bind, EStateM.bind]
  cases ht : m s with
  | ok a t =>
      rcases h.ok a t ht with ⟨runs, hm', hruns, hst⟩
      simp only [hm']
      exact hf a t runs hruns hst
  | error halt t =>
      rcases h.error halt t ht with ⟨below, runs, hm', hruns⟩
      simp only [hm']
      refine ⟨nofun, fun halt' t' heq => ?_⟩
      cases heq
      exact ⟨below, runs, rfl, hruns⟩

namespace Accompanies

variable {α β : Type} {P : Block → Prop} {R R' : Environment → Environment → Prop}
  {m' : Framed α} {m : Run α}

theorem mono (h : Accompanies P R m' m) (hR : ∀ a b, R a b → R' a b) :
    Accompanies P R' m' m :=
  fun s hs => (h s hs).mono (hR _)

/-- Something that concerns the current frame only. -/
theorem plainly (h : m.Moves R) : Accompanies P R (Framed.plainly m) m := by
  refine fun s hs => ⟨fun a t hm => ⟨s.runs, ?_, hs, h _ a t hm⟩,
    fun halt t hm => ⟨s.suspended, s.runs, ?_, hs⟩⟩
  · simp only [Framed.plainly, hm]
  · simp only [Framed.plainly, hm]

/-- A result accompanies itself. -/
theorem pure (hR : ∀ a, R a a) (a : α) : Accompanies P R (Pure.pure a) (Pure.pure a) := by
  refine fun s hs => ⟨fun b t hm => ?_, fun halt t hm => ?_⟩
  · cases hm
    exact ⟨s.runs, rfl, hs, hR _⟩
  · cases hm

/-- One computation after another. -/
theorem bind {S T : Environment → Environment → Prop} {f' : α → Framed β} {f : α → Run β}
    (h : Accompanies P S m' m) (hf : ∀ a, Accompanies P T (f' a) (f a))
    (hR : ∀ a b d, S a b → T b d → R a d) : Accompanies P R (m' >>= f') (m >>= f) :=
  fun s hs => (h s hs).bind fun a t runs hruns hst =>
    (hf a ⟨t, s.suspended, runs⟩ hruns).mono fun _ => hR _ _ _ hst

/-- A computation after one that leaves the variables as they are. -/
theorem after {f' : α → Framed β} {f : α → Run β} (h : Accompanies P Eq m' m)
    (hf : ∀ a, Accompanies P R (f' a) (f a)) : Accompanies P R (m' >>= f') (m >>= f) :=
  h.bind hf fun _ _ _ hab => hab ▸ id

/-- What is returned in the end does not matter for the variables. -/
theorem before (h : Accompanies P R m' m) (b : β) :
    Accompanies P R (do let _ ← m'; return b) (do let _ ← m; return b) :=
  h.bind (fun _ => .pure Eq.refl b) fun _ _ _ hab hbd => hbd ▸ hab

/-- Either way accompanied. -/
theorem ite {p : Prop} [Decidable p] {n' : Framed α} {n : Run α} (h : Accompanies P R m' m)
    (h' : Accompanies P R n' n) :
    Accompanies P R (if p then m' else n') (if p then m else n) := by
  split
  · exact h
  · exact h'

/-- The note about a block is proper if the variables around it have changed as they may. -/
theorem noting {b : Block} {outside : Environment → Environment} {m' : Framed Flow} {m : Run Flow}
    (hb : P b) (h : Accompanies P R m' m)
    (hR : ∀ a d, R a d → Environment.Confined b.assigned (outside a) (outside d)) :
    Accompanies P R (Framed.noting b outside m') m := by
  have hrun : ∀ s, Framed.noting b outside m' s = (m' >>= fun flow => (do
      let after ← frames outside
      modify fun u => { u with
        runs := u.runs ++ [⟨b, ⟨outside s.run.env, s.suspended⟩, after, flow⟩] }
      return flow)) s := fun _ => rfl
  intro s hs
  rw [hrun]
  refine ⟨fun flow t hm => ?_, fun halt t hm => ?_⟩
  · rcases (h s hs).ok flow t hm with ⟨runs, hm', hruns, hst⟩
    -- The note is proper: the block is one of those allowed, and its change is confined.
    have hproper : BlockRun.Proper P ⟨b, ⟨outside s.run.env, s.suspended⟩,
        ⟨outside t.env, s.suspended⟩, flow⟩ := ⟨hb, rfl, hR _ _ hst⟩
    refine ⟨runs ++ [_], ?_, List.forall_mem_append.mpr
      ⟨hruns, List.forall_mem_singleton.mpr hproper⟩, hst⟩
    simp only [Bind.bind, EStateM.bind, hm']
    rfl
  · rcases (h s hs).error halt t hm with ⟨suspended, runs, hm', hruns⟩
    refine ⟨suspended, runs, ?_, hruns⟩
    simp only [Bind.bind, EStateM.bind, hm']

/-- A scope of its own keeps from the variables outside what is declared in it. -/
theorem inScope {names : List String} (h : Accompanies P (Environment.ConfinedOutside names) m' m) :
    Accompanies P (Environment.Confined names) (Framed.inScope m') (Run.inScope m) := by
  have hopen : Accompanies P (fun a b => b = .empty :: a)
      (Framed.plainly (Run.modifyEnv (.empty :: ·))) (Run.modifyEnv (.empty :: ·)) :=
    .plainly fun s _ t ht => by cases ht; rfl
  have hclose : ∀ a : α, Accompanies P (fun b d => d = b.tail)
      (do Framed.plainly (Run.modifyEnv List.tail); return a)
      (do Run.modifyEnv List.tail; return a) := fun a =>
    (Accompanies.plainly (R := fun b d => d = b.tail) fun s _ t ht => by cases ht; rfl).bind
      (fun _ => .pure (fun _ => rfl) a) fun _ _ _ hab hbd => hbd ▸ hab
  refine hopen.bind (T := fun b d => Environment.Confined names b.tail d)
    (fun _ => h.bind hclose ?_) ?_
  · rintro a b _ hab rfl
    exact hab.outside
  · rintro a _ d rfl hbd
    exact hbd

/-- A frame of its own is gone in the end, and those below are as before. -/
theorem inFrame {R' : Environment → Environment → Prop} {f' : Environment → Framed β}
    {f : Environment → Run β} (frame : Table String Word) (h : Accompanies P R' m' m)
    (hf : ∀ env, Accompanies P R (f' env) (f env)) :
    Accompanies P R (do suspend frame; let _ ← m'; f' (← resume))
      (do
        let outer ← Run.replaceEnv [frame]
        let _ ← m
        f (← Run.replaceEnv outer)) := by
  intro s hs
  -- Both sides, once the frame is there.
  have hframed : (do suspend frame; let _ ← m'; f' (← resume)) s
      = (m' >>= fun _ => resume >>= f')
        ⟨{ s.run with env := [frame] }, s.run.env :: s.suspended, s.runs⟩ := rfl
  have hplain : (do
        let outer ← Run.replaceEnv [frame]
        let _ ← m
        f (← Run.replaceEnv outer)) s.run
      = (m >>= fun _ => Run.replaceEnv s.run.env >>= f) { s.run with env := [frame] } := rfl
  rw [hframed, hplain]
  exact (h ⟨{ s.run with env := [frame] }, s.run.env :: s.suspended, s.runs⟩ hs).bind
    fun _ t runs hruns _ => hf t.env ⟨{ t with env := s.run.env }, s.suspended, runs⟩ hruns

variable {names : List String}

/-- One round of a loop. -/
theorem round (c : RunContext) {test' : Framed Word} {test : Run Word} {body' post' : Framed Flow}
    {body post : Run Flow} (htest : Accompanies P Eq test' test)
    (hbody : Accompanies P (Environment.ConfinedOutside names) body' body)
    (hpost : Accompanies P (Environment.ConfinedOutside names) post' post) :
    Accompanies P (Environment.ConfinedOutside names) (Framed.round c test' body' post')
      (Run.round c test body post) := by
  have hdone : Accompanies P (Environment.ConfinedOutside names)
      (Pure.pure false : Framed Bool) (Pure.pure false) := .pure (.refl names) false
  refine (Accompanies.plainly (.step c)).after fun _ => htest.after fun value =>
    .ite hdone (hbody.bind (fun flow => ?_) fun _ _ _ => .trans)
  cases flow with
  | next => exact hpost.before true
  | brk => exact hdone
  | cont => exact hpost.before true

/-- Several rounds. -/
theorem rounds {round' : Framed Bool} {round : Run Bool}
    (h : Accompanies P (Environment.ConfinedOutside names) round' round) (fuel : Nat) :
    Accompanies P (Environment.ConfinedOutside names) (Framed.rounds fuel round')
      (Run.rounds fuel round) := by
  induction fuel with
  | zero => exact .plainly fun s _ t ht => by cases ht
  | succ fuel ih =>
      rw [Framed.rounds, Run.rounds]
      exact h.bind (fun _ => .ite ih (.pure (.refl names) ())) fun _ _ _ => .trans

end Accompanies

/-- The bodies of functions consist of some blocks. -/
def FunctionScopes.BodiesIn (P : Block → Prop) (functions : FunctionScopes) : Prop :=
  ∀ here ∈ functions, ∀ f ∈ here, ∀ b ∈ f.body.nested, P b

/-- Calls on all frames do what calls on the current frame do, and leave its variables as they
    are. -/
def FramedCaller.Accompanies (P : Block → Prop) (call' : FramedCaller) (call : Caller) : Prop :=
  ∀ functions f args, functions.BodiesIn P → (∀ b ∈ f.body.nested, P b) →
    YulToolchain.Accompanies P Eq (call' functions f args) (call functions f args)

section Code

variable {P : Block → Prop} {c : RunContext} {call' : FramedCaller} {call : Caller}
  {functions : FunctionScopes}

theorem FunctionScopes.BodiesIn.find? (h : functions.BodiesIn P) {name : String} {f : FunctionDef}
    (hf : functions.find? name = some f) : ∀ b ∈ f.body.nested, P b := by
  rcases FunctionScopes.find?_split hf with ⟨inner, here, outer, rfl, hmem, _⟩
  exact h here (List.mem_append_right _ List.mem_cons_self) f hmem

/-- Blocks within a statement are among those of the list. -/
theorem Stmt.nested_subset_nestedSeq : ∀ {stmts : List Stmt} {s : Stmt}, s ∈ stmts →
    s.nested ⊆ Stmt.nestedSeq stmts
  | s' :: rest, s, h => by
      rw [Stmt.nestedSeq]
      rcases List.mem_cons.mp h with rfl | h
      · exact List.subset_append_left _ _
      · exact List.Subset.trans (Stmt.nested_subset_nestedSeq h) (List.subset_append_right _ _)

/-- The functions of a block are inside it. -/
theorem FunctionScopes.BodiesIn.enter (h : functions.BodiesIn P) (line : Nat) {stmts : List Stmt}
    (hstmts : ∀ b ∈ Stmt.nestedSeq stmts, P b) :
    FunctionScopes.BodiesIn P ((⟨line, stmts⟩ : Block).functions :: functions) := by
  refine List.forall_mem_cons.mpr ⟨fun f hf b hb => ?_, h⟩
  rcases List.mem_filterMap.mp hf with ⟨s, hs, hsf⟩
  cases s with
  | func line name params returns body =>
      cases hsf
      exact hstmts b (Stmt.nested_subset_nestedSeq hs hb)
  | _ => exact absurd hsf (by rintro ⟨⟩)

mutual

/-- An expression leaves the variables as they are. -/
theorem Expr.framed_accompanies (hcall : call'.Accompanies P call) (hfs : functions.BodiesIn P) :
    ∀ e : Expr, Accompanies P Eq (e.framed c call' functions) (e.run c call functions)
  -- Expressions change no variables.
  | .literal l => by
      rw [Expr.framed, Expr.run]
      exact .plainly (.bind (fun _ _ _ => .trans) (.literal l) fun _ => .pure Eq.refl _)
  | .ident line name => by
      rw [Expr.framed, Expr.run]
      exact .plainly
        (.bind (fun _ _ _ => .trans) (.variableValue line name) fun _ => .pure Eq.refl _)
  | .instr line op args => by
      rw [Expr.framed, Expr.run]
      exact (Expr.framedArgs_accompanies hcall hfs args).after fun values =>
        .plainly (.instruction c op values)
  | .call line name args => by
      rw [Expr.framed, Expr.run]
      -- The arguments first, whatever is called with them.
      have hargs := Expr.framedArgs_accompanies hcall hfs args
      cases c.dialect.builtin? name with
      | some b =>
          dsimp only
          cases b.code with
          | instruction op => exact hargs.after fun values => .plainly (.instruction c op values)
          | dataSize => exact .plainly (.objectQuery line _ args)
          | dataOffset => exact .plainly (.objectQuery line _ args)
          | dataCopy => exact hargs.after fun values => .plainly (.instruction c _ values)
          | stackEffectOnly => exact .pure Eq.refl _
      | none =>
          dsimp only
          cases hf : functions.find? name with
          | none => exact .plainly (.fault _)
          | some f =>
              exact hargs.after fun values =>
                -- A call changes nothing of the caller.
                .ite (hcall functions f values hfs (hfs.find? hf)) (.plainly (.fault _))

/-- So do arguments. -/
theorem Expr.framedArgs_accompanies (hcall : call'.Accompanies P call)
    (hfs : functions.BodiesIn P) :
    ∀ es : List Expr,
      Accompanies P Eq (Expr.framedArgs c call' functions es) (Expr.runArgs c call functions es)
  | [] => by
      rw [Expr.framedArgs, Expr.runArgs]
      exact .pure Eq.refl _
  | e :: rest => by
      rw [Expr.framedArgs, Expr.runArgs]
      exact (Expr.framedArgs_accompanies hcall hfs rest).after fun values =>
        (Expr.framed_accompanies hcall hfs e).after fun own =>
          (Accompanies.plainly (.single e.line own)).after fun value => .pure Eq.refl _

end

theorem Expr.framedSingle_accompanies (hcall : call'.Accompanies P call)
    (hfs : functions.BodiesIn P) (e : Expr) :
    Accompanies P Eq (e.framedSingle c call' functions) (e.runSingle c call functions) :=
  (Expr.framed_accompanies hcall hfs e).after fun own => .plainly (.single e.line own)

mutual

/-- A block changes the variables around it that it assigns. -/
theorem Block.framed_accompanies (hcall : call'.Accompanies P call) : ∀ (b : Block)
    {functions : FunctionScopes}, functions.BodiesIn P → (∀ b' ∈ b.nested, P b') →
      Accompanies P (Environment.Confined b.assigned) (b.framed c call' functions)
        (b.run c call functions)
  | ⟨line, stmts⟩, functions, hfs, hb => by
      rw [Block.nested, List.forall_mem_cons] at hb
      rw [Block.framed, Block.run, Block.assigned_eq]
      have hstmts := Stmt.framedSeq_accompanies hcall stmts (hfs.enter line hb.2) hb.2
      exact .noting hb.1 (.inScope hstmts) fun a d h => by rwa [Block.assigned_eq]

/-- Statements change the variables outside of their scope that they assign. -/
theorem Stmt.framedSeq_accompanies (hcall : call'.Accompanies P call) : ∀ (stmts : List Stmt)
    {functions : FunctionScopes}, functions.BodiesIn P → (∀ b ∈ Stmt.nestedSeq stmts, P b) →
      Accompanies P (Environment.ConfinedOutside (Stmt.assignedSeq stmts))
        (Stmt.framedSeq c call' functions stmts) (Stmt.runSeq c call functions stmts)
  | [], functions, hfs, hb => by
      rw [Stmt.framedSeq, Stmt.runSeq]
      exact .pure (.refl _) _
  | s :: rest, functions, hfs, hb => by
      rw [Stmt.nestedSeq, List.forall_mem_append] at hb
      rw [Stmt.framedSeq, Stmt.runSeq, Stmt.assignedSeq_cons]
      -- The first statement changes what it assigns, the others what they assign.
      have hs := (Stmt.framed_accompanies hcall s hfs hb.1).mono fun _ _ h =>
        h.mono (List.subset_append_left _ (Stmt.assignedSeq rest))
      have hrest := (Stmt.framedSeq_accompanies hcall rest hfs hb.2).mono fun _ _ h =>
        h.mono (List.subset_append_right s.assignedIn _)
      refine hs.bind (fun flow => ?_) fun _ _ _ => .trans
      cases flow with
      | next => exact hrest
      | brk => exact .pure (.refl _) _
      | cont => exact .pure (.refl _) _

/-- A statement changes the variables outside of its scope that it assigns. -/
theorem Stmt.framed_accompanies (hcall : call'.Accompanies P call) : ∀ (s : Stmt)
    {functions : FunctionScopes}, functions.BodiesIn P → (∀ b ∈ s.nested, P b) →
      Accompanies P (Environment.ConfinedOutside s.assignedIn)
        (s.framed c call' functions) (s.run c call functions)
  | .expr line e, functions, hfs, hb => by
      rw [Stmt.framed, Stmt.run]
      exact (Accompanies.plainly (.step c)).after fun _ =>
        (Expr.framed_accompanies hcall hfs e).after fun values =>
          .ite (.pure (.refl _) _) (.plainly (.fault _))
  | .assign line targets value, functions, hfs, hb => by
      rw [Stmt.framed, Stmt.run]
      -- Only targets are assigned.
      have hassign : ∀ values : List Word, ∀ p ∈ (targets.map (·.name)).zip values,
          p.1 ∈ (Stmt.assign line targets value).assignedIn := fun values p hp =>
        List.mem_append_left _ (List.of_mem_zip hp).1
      refine (Accompanies.plainly (.step c)).after fun _ =>
        (Expr.framed_accompanies hcall hfs value).after fun values =>
          .ite ?_ (.plainly (.fault _))
      exact ((Accompanies.plainly (.assignAll _ (hassign values))).mono
        fun _ _ h => h.outside).before _
  | .decl line vars value, functions, hfs, hb => by
      rw [Stmt.framed, Stmt.run]
      -- What comes behind the value, or behind the zeros.
      have hrest : ∀ values : List Word,
          Accompanies P (Environment.ConfinedOutside (Stmt.decl line vars value).assignedIn)
          (if values.length = vars.length then do
            Framed.plainly
              (Run.modifyEnv (Environment.declareAll ((vars.map (·.name)).zip values)))
            return .next
          else Framed.plainly (Run.fault (.declarationCount line)))
          (if values.length = vars.length then do
            Run.modifyEnv (Environment.declareAll ((vars.map (·.name)).zip values))
            return Flow.next
          else Run.fault (.declarationCount line)) := fun values =>
        .ite ((Accompanies.plainly (.declareAll _)).before _) (.plainly (.fault _))
      refine (Accompanies.plainly (.step c)).after fun _ => ?_
      cases value with
      | none => exact (Accompanies.pure Eq.refl _).after hrest
      | some e => exact (Expr.framed_accompanies hcall hfs e).after hrest
  | .func _ _ _ _ _, functions, hfs, hb => by
      rw [Stmt.framed, Stmt.run]
      exact (Accompanies.plainly (.step c)).after fun _ => .pure (.refl _) _
  | .cond _ test body, functions, hfs, hb => by
      rw [Stmt.framed, Stmt.run]
      exact (Accompanies.plainly (.step c)).after fun _ =>
        (Expr.framedSingle_accompanies hcall hfs test).after fun value =>
          .ite (.pure (.refl _) _)
            ((Block.framed_accompanies hcall body hfs hb).mono fun _ _ h => h.outside)
  | .switch _ subject cases, functions, hfs, hb => by
      rw [Stmt.framed, Stmt.run]
      exact (Accompanies.plainly (.step c)).after fun _ =>
        (Expr.framedSingle_accompanies hcall hfs subject).after fun value =>
          Case.framedSeq_accompanies hcall value cases hfs hb
  | .loop line ⟨preLine, pre⟩ test post body, functions, hfs, hb => by
      rw [Stmt.nested, List.forall_mem_append, List.forall_mem_append, Block.nested,
        List.forall_mem_cons] at hb
      -- The assigned names of a loop are those of its three parts.
      have hnames : (Stmt.loop line ⟨preLine, pre⟩ test post body).assignedIn
          = Stmt.assignedSeq pre ++ body.assigned ++ post.assigned := by
        simp only [Stmt.assignedIn, Stmt.assignsHere, Stmt.allInner, Block.allStmts,
          List.nil_append, List.flatMap_append, Stmt.assignedSeq, Block.assigned]
      rw [Stmt.framed, Stmt.run, hnames]
      have hfs' := hfs.enter preLine hb.1.1.2
      -- The init block is a block run of its own.
      have hpre := (Accompanies.noting hb.1.1.1 (Stmt.framedSeq_accompanies hcall pre hfs' hb.1.1.2)
        fun _ _ h => h.outside).mono fun _ _ h => h.mono (List.subset_append_left _ body.assigned)
      have hbody := (Block.framed_accompanies hcall body hfs' hb.1.2).mono fun _ _ h =>
        ((h.mono (List.subset_append_right (Stmt.assignedSeq pre) _)).mono
          (List.subset_append_left _ post.assigned)).outside
      have hpost := (Block.framed_accompanies hcall post hfs' hb.2).mono fun _ _ h =>
        (h.mono (List.subset_append_right (Stmt.assignedSeq pre ++ body.assigned) _)).outside
      have htest : Accompanies P Eq (test.framedSingle c call' _) (test.runSingle c call _) :=
        Expr.framedSingle_accompanies hcall hfs' test
      -- The rounds stand within the scope of the init block.
      have hrounds := (htest.round c hbody hpost).rounds (c.limits.maxSteps + 1)
      have hloop := ((hpre.mono fun _ _ h => h.mono (List.subset_append_left _ post.assigned)).bind
        (fun _ => hrounds) fun _ _ _ => .trans).inScope
      exact (Accompanies.plainly (.step c)).after fun _ =>
        (hloop.mono fun _ _ h => h.outside).before _
  | .brk _, functions, hfs, hb => by
      rw [Stmt.framed, Stmt.run]
      exact (Accompanies.plainly (.step c)).after fun _ => .pure (.refl _) _
  | .cont _, functions, hfs, hb => by
      rw [Stmt.framed, Stmt.run]
      exact (Accompanies.plainly (.step c)).after fun _ => .pure (.refl _) _
  | .block b, functions, hfs, hb => by
      rw [Stmt.framed, Stmt.run]
      exact (Accompanies.plainly (.step c)).after fun _ =>
        (Block.framed_accompanies hcall b hfs hb).mono fun _ _ h => h.outside
  | .label line _, functions, hfs, hb => by
      rw [Stmt.framed, Stmt.run]
      exact (Accompanies.plainly (.step c)).after fun _ => .plainly (.fault _)
  | .stackAssign line _, functions, hfs, hb => by
      rw [Stmt.framed, Stmt.run]
      exact (Accompanies.plainly (.step c)).after fun _ => .plainly (.fault _)

/-- The case that is run, by recursion. -/
theorem Case.framedSeq_accompanies (hcall : call'.Accompanies P call) (value : Word) :
    ∀ (cases : List Case) {functions : FunctionScopes}, functions.BodiesIn P →
      (∀ b ∈ Case.nestedSeq cases, P b) →
      Accompanies P (Environment.ConfinedOutside (Case.assignedSeq cases))
        (Case.framedSeq c call' functions value cases) (Case.runSeq c call functions value cases)
  | [], functions, hfs, hb => by
      rw [Case.framedSeq, Case.runSeq]
      exact .pure (.refl _) _
  | ⟨_, value', body⟩ :: rest, functions, hfs, hb => by
      rw [Case.nestedSeq, List.forall_mem_append] at hb
      rw [Case.assignedSeq_cons]
      -- Its body assigns some of the names of the switch.
      have hbody := (Block.framed_accompanies hcall body hfs hb.1).mono fun _ _ h =>
        (h.mono (List.subset_append_left _ (Case.assignedSeq rest))).outside
      have hrest := (Case.framedSeq_accompanies hcall value rest hfs hb.2).mono fun _ _ h =>
        h.mono (List.subset_append_right body.assigned _)
      cases value' with
      | none =>
          rw [Case.framedSeq, Case.runSeq]
          exact hbody
      | some l =>
          rw [Case.framedSeq, Case.runSeq]
          exact (Accompanies.plainly (.literal l)).after fun w => .ite hbody hrest

end

/-- A call runs in a frame of its own, which is gone when it returns. -/
theorem FunctionDef.framedCall_accompanies (P : Block → Prop) (c : RunContext) : ∀ depth : Nat,
    (FunctionDef.framedCall c depth).Accompanies P (FunctionDef.call c depth)
  | 0, _, _, _, _, _ => .plainly fun _ _ _ h => by cases h
  | depth + 1, functions, f, args, hfs, hbody => by
      have h := Block.framed_accompanies (c := c) (FunctionDef.framedCall_accompanies P c depth)
        f.body hfs hbody
      rw [FunctionDef.framedCall, FunctionDef.call]
      exact h.inFrame (f.frame args) fun inner => .plainly (.results f inner)

end Code

/-- Executing a block changes no variables but those that it assigns. Of every block that is
    executed in the run of a program, the variables in the scopes around it that it does not
    assign have the same values after as before, none of those variables is lost, and the
    variables of all calls that wait are the same. -/
theorem blocks_change_what_they_assign (d : Dialect) (limits : Limits) (calldata : List UInt8)
    (code : Block) :
    (runBlocks d limits calldata code).1 = interpret d limits calldata code ∧
      ∀ r ∈ (runBlocks d limits calldata code).2, r.block ∈ code.nested ∧
        r.after.suspended = r.before.suspended ∧
        r.before.current.Confined r.block.assigned r.after.current := by
  -- At the start there are no functions.
  have hempty : FunctionScopes.BodiesIn (· ∈ code.nested) [] :=
    fun _ h => absurd h List.not_mem_nil
  have h := Block.framed_accompanies (c := ⟨d, limits, true⟩)
    (FunctionDef.framedCall_accompanies _ ⟨d, limits, true⟩ limits.maxSteps) code hempty
    fun _ hb => hb
  have hnone : ∀ r ∈ ([] : List BlockRun), r.Proper (· ∈ code.nested) :=
    fun _ hr => absurd hr List.not_mem_nil
  simp only [runBlocks, interpret]
  cases hm : code.run ⟨d, limits, true⟩ (FunctionDef.call ⟨d, limits, true⟩ limits.maxSteps) []
      ⟨.initial calldata, 0, []⟩ with
  | ok flow t =>
      -- No run was noted before.
      rcases (h ⟨⟨.initial calldata, 0, []⟩, [], []⟩ hnone).ok flow t hm with
        ⟨runs, hrun, hruns, _⟩
      rw [hrun]
      exact ⟨rfl, fun r hr => ⟨(hruns r hr).block, (hruns r hr).suspended, (hruns r hr).current⟩⟩
  | error halt t =>
      rcases (h ⟨⟨.initial calldata, 0, []⟩, [], []⟩ hnone).error halt t hm with
        ⟨suspended, runs, hrun, hruns⟩
      rw [hrun]
      have hall : ∀ r ∈ runs, r.block ∈ code.nested ∧
          r.after.suspended = r.before.suspended ∧
          r.before.current.Confined r.block.assigned r.after.current :=
        fun r hr => ⟨(hruns r hr).block, (hruns r hr).suspended, (hruns r hr).current⟩
      cases halt with
      | ended why => exact ⟨rfl, hall⟩
      | failed why => exact ⟨rfl, hall⟩

/-- A function with a variable of the same name as its caller, in a loop that is left: the `pre`
    block, the blocks of the function, the body and the program itself. -/
example : ((Block.ofTokens .strictAssembly (tokensOfBytes
      ("\x7b function f(a) -> x \x7b if a \x7b x := 7 \x7d \x7d let x := 1 " ++
        "for \x7b \x7d x \x7b \x7d \x7b sstore(0, f(x)) break \x7d \x7d"))).toOption.any fun code =>
      (runBlocks .strictAssembly .standard [] code).2.map (fun r =>
        (r.flow, r.before.suspended.length, r.before.current.get? "x", r.after.current.get? "x"))
      = [(.next, 0, some 1, some 1), (.next, 1, some 0, some 7), (.next, 1, some 0, some 7),
          (.brk, 0, some 1, some 1), (.next, 0, none, none)]) = true := by
  decide +kernel

end YulToolchain
