import YulToolchain.Effects
import YulToolchain.Flow.Known

/-!
# Following the Flow

A walk along the flow of a program that keeps track of known values and lets a
pass act on the way.

The walk learns from assignments of movable values, and forgets at every place
where a value could go stale: at assignments, at the end of a scope, behind a
branch, around a loop, and behind anything that may change memory or storage. A
function body is walked with nothing known.

A pass takes part through a `Policy`: it may replace an expression before
and after its arguments are walked, and a statement before it is walked. What
replaces a statement is walked next. Since a replacement need not be a part of
what it replaces, the recursion is on bounds: `Block.weight` for statements,
which every replacement by parts makes smaller, and the combined size of an
expression and of the known values for expressions.

## Main definitions

* `Policy`: How a pass takes part.
* `Known.evaluated`, `Known.assigned`: What is known behind an expression and
  behind an assignment.
* `FlowState`: What the walk knows.
* `Flow.visitExpr`, `Flow.visitStmt`, `Flow.visitBlock`: The walk.
* `Flow.run`: The walk over a program.
-/

namespace YulToolchain

/-- How a pass with a state of its own takes part in the walk. -/
structure Policy (σ : Type) where
  /-- Replaces an expression before its arguments are walked. -/
  enter : Known → Expr → σ → Expr × σ
  /-- Replaces an expression after its arguments were walked. -/
  leave : Known → Expr → σ → Expr × σ
  /-- Replaces a statement before it is walked. -/
  replace : Known → Stmt → σ → Option (List Stmt) × σ

/-- The policy that changes nothing. -/
def Policy.idle (σ : Type) : Policy σ where
  enter _ e s := (e, s)
  leave _ e s := (e, s)
  replace _ _ s := (none, s)

/-- What the walk knows at a point. -/
structure FlowState (σ : Type) where
  /-- The known values. -/
  known : Known
  /-- The variables declared in each open scope, the innermost first. -/
  scopes : List (List String)
  /-- The state of the pass. -/
  own : σ

mutual

/-- A bound for the walk over a block. -/
def Block.weight : Block → Nat
  | ⟨_, stmts⟩ => 1 + Stmt.weightSeq stmts

/-- A bound for the walk over some statements. -/
def Stmt.weightSeq : List Stmt → Nat
  | [] => 0
  | s :: rest => s.weight + Stmt.weightSeq rest

/-- A bound for the walk over a statement. A branch weighs more than the block
    that may take its place. -/
def Stmt.weight : Stmt → Nat
  | .func _ _ _ _ body => 4 + body.weight
  | .cond _ _ body => 6 + body.weight
  | .switch _ _ cases => 6 + Case.weightSeq cases
  | .loop _ pre _ post body => 6 + pre.weight + post.weight + body.weight
  | .block b => 4 + b.weight
  | _ => 4

/-- A bound for the walk over some cases. -/
def Case.weightSeq : List Case → Nat
  | [] => 0
  | ⟨_, _, body⟩ :: rest => 1 + body.weight + Case.weightSeq rest

end

namespace Known

/-- What is known after an expression was evaluated. Everything is lost if that
    may change memory or storage. -/
def evaluated (d : Dialect) (e : Expr) (k : Known) : Known :=
  if e.invalidatesState d then nothing else k

/-- What is known after an assignment. The value becomes known if it goes to a
    single variable, is movable and does not read the variable itself. -/
def assigned (d : Dialect) (names : List String) (value : Option Expr) (k : Known) : Known :=
  match Table.distinct names, value with
  | [name], some value =>
    if value.movable d && !value.reads.contains name then (k.forget names).learn name value
    else k.forget names
  | _, _ => k.forget names

end Known

namespace Flow

/-- Walks of a pass with a state of its own. -/
abbrev Walk (σ : Type) := StateM (FlowState σ)

variable {σ : Type}

/-- Lets the pass act on what it is shown. -/
def act {α : Type} (f : Known → σ → α × σ) : Walk σ α :=
  modifyGet fun st =>
    let (a, own) := f st.known st.own
    (a, { st with own })

/-- Changes what is known. -/
def changeKnown (f : Known → Known) : Walk σ Unit :=
  modify fun st => { st with known := f st.known }

/-- Opens a scope. -/
def openScope : Walk σ Unit := modify fun st => { st with scopes := [] :: st.scopes }

/-- Closes the innermost scope and forgets its variables. -/
def closeScope : Walk σ Unit :=
  modify fun st => match st.scopes with
    | [] => st
    | names :: outer => { st with scopes := outer, known := st.known.forget names }

/-- Declares variables in the innermost scope. -/
def declare (names : List String) : Walk σ Unit :=
  modify fun st => match st.scopes with
    | [] => st
    | innermost :: outer => { st with scopes := (innermost ++ names) :: outer }

/-- Whether the arguments of a call are literals that are never evaluated. -/
def takesLiterals (d : Dialect) (name : String) : Bool :=
  (d.builtin? name).any (·.literalArguments)

mutual

/-- Walks an expression. -/
def visitExpr (d : Dialect) (p : Policy σ) : Nat → Expr → Walk σ Expr
  | 0, e => return e
  | fuel + 1, e => do
    let e ← act (p.enter · e)
    let e ← match e with
      | .instr line op args => Expr.instr line op <$> visitArgs d p fuel args
      | .call line name args =>
        if takesLiterals d name then pure e
        else Expr.call line name <$> visitArgs d p fuel args
      | e => pure e
    act (p.leave · e)

/-- Walks arguments from the last to the first. -/
def visitArgs (d : Dialect) (p : Policy σ) : Nat → List Expr → Walk σ (List Expr)
  | 0, es => return es
  | _, [] => return []
  | fuel + 1, e :: rest => do
    let rest ← visitArgs d p fuel rest
    let e ← visitExpr d p fuel e
    return e :: rest

end

/-- Walks the expression of a statement. -/
def visitRoot (d : Dialect) (p : Policy σ) (e : Expr) : Walk σ Expr := do
  let st ← get
  let e ← visitExpr d p (2 * (e.size + st.known.size) + 1) e
  changeKnown (·.evaluated d e)
  return e

/-- The value that a declaration gives its variables. A single variable without
    a value is zero. -/
def declaredValue (line : Nat) : List TypedName → Option Expr → Option Expr
  | _, some value => some value
  | [v], none => some (.literal (Literal.zero line v.type))
  | _, none => none

mutual

/-- Walks a block in a scope of its own. -/
def visitBlock (d : Dialect) (p : Policy σ) : Nat → Block → Walk σ Block
  | 0, b => return b
  | fuel + 1, ⟨line, stmts⟩ => do
    openScope
    let stmts ← visitStmts d p fuel stmts
    closeScope
    return ⟨line, stmts⟩

/-- Walks statements. What replaces a statement is walked in its place. -/
def visitStmts (d : Dialect) (p : Policy σ) : Nat → List Stmt → Walk σ (List Stmt)
  | 0, ss => return ss
  | _, [] => return []
  | fuel + 1, s :: rest => do
    match ← act (p.replace · s) with
    | some replacement => visitStmts d p fuel (replacement ++ rest)
    | none =>
      let s ← visitStmt d p fuel s
      return s :: (← visitStmts d p fuel rest)

/-- Walks a statement. -/
def visitStmt (d : Dialect) (p : Policy σ) : Nat → Stmt → Walk σ Stmt
  | 0, s => return s
  | fuel + 1, s => match s with
    | .expr line e => return .expr line (← visitRoot d p e)
    | .assign line targets value => do
      let value ← visitRoot d p value
      changeKnown (·.assigned d (targets.map (·.name)) (some value))
      return .assign line targets value
    | .decl line vars value => do
      let value ← value.mapM (visitRoot d p)
      let names := vars.map (·.name)
      declare names
      changeKnown (·.assigned d names (declaredValue line vars value))
      return .decl line vars value
    | .func line name params returns body => do
      let outer ← get
      set { outer with known := .nothing, scopes := [(params ++ returns).map TypedName.name] }
      let body ← visitBlock d p fuel body
      modify fun st => { st with known := outer.known, scopes := outer.scopes }
      return .func line name params returns body
    | .cond line test body => do
      let test ← visitRoot d p test
      let body ← visitBlock d p fuel body
      changeKnown (·.forget body.assigned)
      return .cond line test body
    | .switch line subject cases => do
      let subject ← visitRoot d p subject
      return .switch line subject (← visitCases d p fuel cases)
    | .loop line ⟨preLine, pre⟩ test post body => do
      openScope
      let pre ← visitStmts d p fuel pre
      let assigned := body.assigned ++ post.assigned
      changeKnown (·.forget assigned)
      let test ← visitRoot d p test
      let body ← visitBlock d p fuel body
      changeKnown (·.forget assigned)
      let post ← visitBlock d p fuel post
      changeKnown (·.forget assigned)
      closeScope
      return .loop line ⟨preLine, pre⟩ test post body
    | .block b => return .block (← visitBlock d p fuel b)
    | .label line name => do
      changeKnown fun _ => Known.nothing
      return .label line name
    | .stackAssign line target => do
      changeKnown (·.forget [target.name])
      return .stackAssign line target
    | .brk line => return .brk line
    | .cont line => return .cont line

/-- Walks the cases of a switch. -/
def visitCases (d : Dialect) (p : Policy σ) : Nat → List Case → Walk σ (List Case)
  | 0, cs => return cs
  | _, [] => return []
  | fuel + 1, ⟨line, value, body⟩ :: rest => do
    let body ← visitBlock d p fuel body
    changeKnown (·.forget body.assigned)
    return ⟨line, value, body⟩ :: (← visitCases d p fuel rest)

end

/-- Walks a program and returns it together with the state of the pass. -/
def run (d : Dialect) (p : Policy σ) (own : σ) (code : Block) : Block × σ :=
  let (code, st) := (visitBlock d p (code.weight + 1) code).run ⟨.nothing, [], own⟩
  (code, st.own)

end Flow

end YulToolchain
