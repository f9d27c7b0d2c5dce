import YulToolchain.Proofs.Flow.Hooks

/-!
# Where a Run Comes By

The places of a program that a run comes by, in the numbering of the walk along
the flow.

The walk turns to the pass behind it at many places, one after the other, and the
number of such a place depends on the code alone. A run comes by these places in
an order of its own: around loops again and again, into functions from wherever
they are called, and past code that is not executed not at all. `Stmt.visits`
follows the interpreter and lists the places with the states in which the run
comes by. The interpreter itself tells how the run goes on from each place, so
nothing of its meaning is repeated here, only the order in which it looks at
code.

Behind the arguments of a call there are two states that matter, the one before
the call itself and the one after it. Both are listed.

## Main definitions

* `Expr.hookCount`, `Stmt.hookCount`, `Block.hookCount`: How many places there are
  in code.
* `Visit`: A place with a state.
* `Expr.visits`, `Stmt.visits`, `Block.visits`: The places that a run comes by.
* `FunctionDef.visits`: Those in calls.
* `visits`: Those of the run of a program.

## Theorems

* `Block.length_hooks`: There are as many places as the walk makes calls.
-/

namespace YulToolchain

mutual

/-- How many places there are in an expression. -/
def Expr.hookCount (d : Dialect) : Expr → Nat
  | .literal _ => 2
  | .ident _ _ => 2
  | .instr _ _ args => Expr.hookCountArgs d args + 2
  | .call _ name args =>
    (if Flow.takesLiterals d name then 0 else Expr.hookCountArgs d args) + 2

/-- How many places there are in some arguments. -/
def Expr.hookCountArgs (d : Dialect) : List Expr → Nat
  | [] => 0
  | e :: rest => Expr.hookCountArgs d rest + e.hookCount d

end

mutual

/-- How many places there are in a block. -/
def Block.hookCount (d : Dialect) : Block → Nat
  | ⟨_, stmts⟩ => Stmt.hookCountSeq d stmts

/-- How many places there are in some statements. -/
def Stmt.hookCountSeq (d : Dialect) : List Stmt → Nat
  | [] => 0
  | s :: rest => 1 + s.hookCount d + Stmt.hookCountSeq d rest

/-- How many places there are inside a statement. -/
def Stmt.hookCount (d : Dialect) : Stmt → Nat
  | .expr _ e => e.hookCount d
  | .assign _ _ value => value.hookCount d
  | .decl _ _ none => 0
  | .decl _ _ (some value) => value.hookCount d
  | .func _ _ _ _ body => body.hookCount d
  | .cond _ test body => test.hookCount d + body.hookCount d
  | .switch _ subject cases => subject.hookCount d + Case.hookCountSeq d cases
  | .loop _ ⟨_, pre⟩ test post body =>
    Stmt.hookCountSeq d pre + (test.hookCount d + (body.hookCount d + post.hookCount d))
  | .block b => b.hookCount d
  | .brk _ | .cont _ | .label _ _ | .stackAssign _ _ => 0

/-- How many places there are in the cases of a switch. -/
def Case.hookCountSeq (d : Dialect) : List Case → Nat
  | [] => 0
  | ⟨_, _, body⟩ :: rest => body.hookCount d + Case.hookCountSeq d rest

end

section Count

variable {d : Dialect}

mutual

/-- An expression has as many calls as are counted. -/
theorem Expr.length_hooks (k : Known) : ∀ e : Expr, (e.hooks d k).length = e.hookCount d
  | .literal _ => by
      rw [Expr.hooks, Expr.hookCount]
      rfl
  | .ident _ _ => by
      rw [Expr.hooks, Expr.hookCount]
      rfl
  | .instr _ _ args => by
      rw [Expr.hooks, Expr.hookCount, List.length_cons, List.length_append,
        Expr.length_hooksArgs k args]
      rfl
  | .call _ name args => by
      rw [Expr.hooks, Expr.hookCount, List.length_cons, List.length_append]
      split
      · rfl
      · rw [Expr.length_hooksArgs k args]
        rfl

/-- Arguments have as many calls as are counted. -/
theorem Expr.length_hooksArgs (k : Known) : ∀ es : List Expr,
    (Expr.hooksArgs d k es).length = Expr.hookCountArgs d es
  | [] => by
      rw [Expr.hooksArgs, Expr.hookCountArgs]
      rfl
  | e :: rest => by
      rw [Expr.hooksArgs, Expr.hookCountArgs, List.length_append, Expr.length_hooksArgs k rest,
        Expr.length_hooks k e]

end

mutual

/-- The walk makes as many calls as there are places in the code. -/
theorem Block.length_hooks : ∀ (b : Block) (k : Known), (b.hooks d k).length = b.hookCount d
  | ⟨_, stmts⟩, k => by
      rw [Block.hooks, Block.hookCount]
      exact Stmt.length_hooksSeq stmts k

/-- Statements have as many calls as are counted. -/
theorem Stmt.length_hooksSeq : ∀ (stmts : List Stmt) (k : Known),
    (Stmt.hooksSeq d k stmts).length = Stmt.hookCountSeq d stmts
  | [], k => by
      rw [Stmt.hooksSeq, Stmt.hookCountSeq]
      rfl
  | s :: rest, k => by
      rw [Stmt.hooksSeq, Stmt.hookCountSeq, List.length_cons, List.length_append,
        Stmt.length_hooks s k, Stmt.length_hooksSeq rest]
      omega

/-- A statement has as many calls as are counted. -/
theorem Stmt.length_hooks : ∀ (s : Stmt) (k : Known), (s.hooks d k).length = s.hookCount d
  | .expr _ e, k => by rw [Stmt.hooks, Stmt.hookCount, Expr.length_hooks]
  | .assign _ _ value, k => by rw [Stmt.hooks, Stmt.hookCount, Expr.length_hooks]
  | .decl _ _ none, k => by rw [Stmt.hooks, Stmt.hookCount, List.length_nil]
  | .decl _ _ (some value), k => by rw [Stmt.hooks, Stmt.hookCount, Expr.length_hooks]
  | .func _ _ _ _ body, k => by rw [Stmt.hooks, Stmt.hookCount, Block.length_hooks body]
  | .cond _ test body, k => by
      rw [Stmt.hooks, Stmt.hookCount, List.length_append, Expr.length_hooks,
        Block.length_hooks body]
  | .switch _ subject cases, k => by
      rw [Stmt.hooks, Stmt.hookCount, List.length_append, Expr.length_hooks,
        Case.length_hooksSeq cases]
  | .loop _ ⟨_, pre⟩ test post body, k => by
      rw [Stmt.hooks, Stmt.hookCount, List.length_append, List.length_append, List.length_append,
        Stmt.length_hooksSeq pre, Expr.length_hooks, Block.length_hooks body,
        Block.length_hooks post]
  | .block b, k => by rw [Stmt.hooks, Stmt.hookCount, Block.length_hooks b]
  | .brk _, k => by rw [Stmt.hooks, Stmt.hookCount, List.length_nil]
  | .cont _, k => by rw [Stmt.hooks, Stmt.hookCount, List.length_nil]
  | .label _ _, k => by rw [Stmt.hooks, Stmt.hookCount, List.length_nil]
  | .stackAssign _ _, k => by rw [Stmt.hooks, Stmt.hookCount, List.length_nil]

/-- Cases have as many calls as are counted. -/
theorem Case.length_hooksSeq : ∀ (cases : List Case) (k : Known),
    (Case.hooksSeq d k cases).length = Case.hookCountSeq d cases
  | [], k => by
      rw [Case.hooksSeq, Case.hookCountSeq]
      rfl
  | ⟨_, _, body⟩ :: rest, k => by
      rw [Case.hooksSeq, Case.hookCountSeq, List.length_append, Block.length_hooks body,
        Case.length_hooksSeq rest]

end

end Count

/-- A place with a state in which a run comes by. -/
structure Visit where
  /-- The number of the place. -/
  index : Nat
  /-- The place. -/
  hook : Hook
  /-- The state. -/
  state : RunState

/-- The functions in sight, each with the number of the first place in its body. -/
abbrev PlacedScopes := List (List (FunctionDef × Nat))

namespace PlacedScopes

/-- The functions without the numbers. -/
def functions (ps : PlacedScopes) : FunctionScopes := ps.map fun here => here.map (·.1)

/-- The function with a name, and the number of the first place in its body. -/
def find? (name : String) : PlacedScopes → Option (FunctionDef × Nat)
  | [] => none
  | here :: outer => match here.reverse.find? (·.1.name == name) with
    | some p => some p
    | none => find? name outer

end PlacedScopes

/-- The functions that some statements define, given the number of their first
    place. -/
def Stmt.placedSeq (d : Dialect) (i : Nat) : List Stmt → List (FunctionDef × Nat)
  | [] => []
  | s :: rest =>
    let others := Stmt.placedSeq d (i + 1 + s.hookCount d) rest
    match s.function? with
    | some f => (f, i + 1) :: others
    | none => others

/-- What a run comes by in a call. -/
abbrev CallVisits := PlacedScopes → FunctionDef × Nat → List Word → RunState → List Visit

/-- What a run comes by after a computation, if that has a value. -/
def Run.onward {α : Type} (m : Run α) (s : RunState) (f : α → RunState → List Visit) :
    List Visit :=
  match m s with
  | .ok a t => f a t
  | .error _ _ => []

open Run

/-- What a run comes by from the arguments of a call on: the place behind them
    before the call itself, what is inside of the call, and the place again after
    it. -/
def Run.behindArgs (last : Visit) (args : Run (List Word)) (m : List Word → Run (List Word))
    (inside : List Word → RunState → List Visit) : List Visit :=
  onward args last.state fun values t =>
    { last with state := t } :: (inside values t ++
      onward (m values) t fun _ u => [{ last with state := u }])

mutual

/-- The places that evaluating an expression comes by. -/
def Expr.visits (c : RunContext) (call : Caller) (inner : CallVisits) (ps : PlacedScopes)
    (i : Nat) (e : Expr) (s : RunState) : List Visit :=
  let last : Visit := ⟨i + e.hookCount c.dialect - 1, .leave e, s⟩
  ⟨i, .enter e, s⟩ :: match e with
    | .literal _ => [last]
    | .ident _ _ => [last]
    | .instr _ op args =>
      Expr.visitsArgs c call inner ps (i + 1) args s ++
        behindArgs last (Expr.runArgs c call ps.functions args) (instruction c op) fun _ _ => []
    | .call _ name args => match c.dialect.builtin? name with
      | some b => match b.code with
        | .instruction op =>
          Expr.visitsArgs c call inner ps (i + 1) args s ++
            behindArgs last (Expr.runArgs c call ps.functions args) (instruction c op)
              fun _ _ => []
        | .dataCopy =>
          Expr.visitsArgs c call inner ps (i + 1) args s ++
            behindArgs last (Expr.runArgs c call ps.functions args) (instruction c .codecopy)
              fun _ _ => []
        | .dataSize | .dataOffset | .stackEffectOnly => [last]
      | none => match ps.find? name with
        | some f =>
          Expr.visitsArgs c call inner ps (i + 1) args s ++
            behindArgs last (Expr.runArgs c call ps.functions args) (call ps.functions f.1)
              (inner ps f)
        | none => []

/-- The places that evaluating arguments comes by, from the last to the first. -/
def Expr.visitsArgs (c : RunContext) (call : Caller) (inner : CallVisits) (ps : PlacedScopes)
    (i : Nat) : List Expr → RunState → List Visit
  | [], _ => []
  | e :: rest, s =>
    Expr.visitsArgs c call inner ps i rest s ++
      onward (Expr.runArgs c call ps.functions rest) s fun _ t =>
        Expr.visits c call inner ps (i + Expr.hookCountArgs c.dialect rest) e t

end

/-- The places that the rounds of a loop come by, given those of a single round. -/
def Run.roundsVisits (visits : RunState → List Visit) (round : Run Bool) :
    Nat → RunState → List Visit
  | 0, _ => []
  | fuel + 1, s =>
    visits s ++ onward round s fun again t =>
      if again then roundsVisits visits round fuel t else []

/-- The places that a round of a loop comes by, given those of its parts. -/
def Run.roundVisits (c : RunContext) (test : Run Word) (body : Run Flow)
    (inTest inBody inPost : RunState → List Visit) (s : RunState) : List Visit :=
  onward (step c) s fun _ s₀ =>
    inTest s₀ ++ onward test s₀ fun value t =>
      if value = 0 then []
      else inBody t ++ onward body t fun flow u => if flow = .brk then [] else inPost u

mutual

/-- The places that running a block comes by. -/
def Block.visits (c : RunContext) (call : Caller) (inner : CallVisits) (ps : PlacedScopes)
    (i : Nat) : Block → RunState → List Visit
  | ⟨_, stmts⟩, s =>
    Stmt.visitsSeq c call inner (Stmt.placedSeq c.dialect i stmts :: ps) i stmts
      { s with env := .empty :: s.env }

/-- The places that running statements comes by. -/
def Stmt.visitsSeq (c : RunContext) (call : Caller) (inner : CallVisits) (ps : PlacedScopes)
    (i : Nat) : List Stmt → RunState → List Visit
  | [], _ => []
  | s₁ :: rest, s =>
    ⟨i, .replace s₁, s⟩ :: (Stmt.visits c call inner ps (i + 1) s₁ s ++
      onward (s₁.run c call ps.functions) s fun flow t =>
        if flow = .next then
          Stmt.visitsSeq c call inner ps (i + 1 + s₁.hookCount c.dialect) rest t
        else [])

/-- The places that running a statement comes by inside of it. -/
def Stmt.visits (c : RunContext) (call : Caller) (inner : CallVisits) (ps : PlacedScopes)
    (i : Nat) : Stmt → RunState → List Visit
  | .expr _ e, s => onward (step c) s fun _ s₀ => e.visits c call inner ps i s₀
  | .assign _ _ value, s => onward (step c) s fun _ s₀ => value.visits c call inner ps i s₀
  | .decl _ _ none, _ => []
  | .decl _ _ (some value), s => onward (step c) s fun _ s₀ => value.visits c call inner ps i s₀
  | .func _ _ _ _ _, _ => []
  | .cond _ test body, s => onward (step c) s fun _ s₀ =>
    test.visits c call inner ps i s₀ ++
      onward (test.runSingle c call ps.functions) s₀ fun value t =>
        if value = 0 then []
        else Block.visits c call inner ps (i + test.hookCount c.dialect) body t
  | .switch _ subject cases, s => onward (step c) s fun _ s₀ =>
    subject.visits c call inner ps i s₀ ++
      onward (subject.runSingle c call ps.functions) s₀ fun value t =>
        Case.visitsSeq c call inner ps (i + subject.hookCount c.dialect) value cases t
  | .loop _ ⟨_, pre⟩ test post body, s => onward (step c) s fun _ s₀ =>
    let ps : PlacedScopes := Stmt.placedSeq c.dialect i pre :: ps
    let start : RunState := { s₀ with env := .empty :: s₀.env }
    let inTest := i + Stmt.hookCountSeq c.dialect pre
    let inBody := inTest + test.hookCount c.dialect
    Stmt.visitsSeq c call inner ps i pre start ++
      onward (Stmt.runSeq c call ps.functions pre) start fun _ t =>
        roundsVisits
          (roundVisits c (test.runSingle c call ps.functions) (body.run c call ps.functions)
            (test.visits c call inner ps inTest) (Block.visits c call inner ps inBody body)
            (Block.visits c call inner ps (inBody + body.hookCount c.dialect) post))
          (round c (test.runSingle c call ps.functions) (body.run c call ps.functions)
            (post.run c call ps.functions))
          (c.limits.maxSteps + 1) t
  | .block b, s => onward (step c) s fun _ s₀ => Block.visits c call inner ps i b s₀
  | .brk _, _ => []
  | .cont _, _ => []
  | .label _ _, _ => []
  | .stackAssign _ _, _ => []

/-- The places that running the selected case of a switch comes by. -/
def Case.visitsSeq (c : RunContext) (call : Caller) (inner : CallVisits) (ps : PlacedScopes)
    (i : Nat) (value : Word) : List Case → RunState → List Visit
  | [], _ => []
  | ⟨_, none, body⟩ :: _, s => Block.visits c call inner ps i body s
  | ⟨_, some l, body⟩ :: rest, s => onward (Run.literal l) s fun w t =>
    if w = value then Block.visits c call inner ps i body t
    else Case.visitsSeq c call inner ps (i + body.hookCount c.dialect) value rest t

end

/-- The places that a call comes by. The first argument bounds the depth of
    calls. -/
def FunctionDef.visits (c : RunContext) : Nat → CallVisits
  | 0, _, _, _, _ => []
  | depth + 1, ps, (f, i), args, s =>
    f.body.visits c (FunctionDef.call c depth) (FunctionDef.visits c depth) ps i
      { s with env := [f.frame args] }

/-- The places that the run of a program comes by, with the states there. -/
def visits (d : Dialect) (limits : Limits) (calldata : List UInt8) (code : Block) : List Visit :=
  let c : RunContext := ⟨d, limits, true⟩
  code.visits c (FunctionDef.call c limits.maxSteps) (FunctionDef.visits c limits.maxSteps) [] 0
    ⟨.initial calldata, 0, []⟩

end YulToolchain
