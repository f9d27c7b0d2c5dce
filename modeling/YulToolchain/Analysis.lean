import YulToolchain.Analysis.Error
import YulToolchain.Ast.Basic
import YulToolchain.Dialect
import YulToolchain.Scope

/-!
# Well-Formed Programs

Name resolution and the checks that make a program meaningful.

Functions and labels are visible in their whole block and are declared when the
block is entered. Variables are declared one by one as the statements are
passed, so a name may be declared in an inner block before an outer block
declares it.

A loop opens the scope of its `pre` block for the whole loop. Its body is
checked before its `post` block, and only the body counts as inside the loop.

The scopes are numbered as they are opened. `scopeCount` says how many scopes a
piece of code opens, so the number of any block can be computed from the number
of the block around it, and no table from blocks to scopes is needed.

## Main definitions

* `Expr.valueCount`: How many values an expression has, if it is well formed.
* `analyze`: The scopes of a well-formed program.
* `Block.scopeCount`: The number of scopes a block opens.
* `scopeNodes`: The places that open scopes, with the numbers of the scopes.
-/

namespace YulToolchain

mutual

/-- How many values an expression has at a place, if it is well formed there.
    Arguments are checked from the last to the first. -/
def Expr.valueCount (d : Dialect) (ss : Scopes) (scope : Nat) :
    Expr → Except AnalysisError Nat
  | .literal l => match l.value with
    | .ok _ => .ok 1
    | .error why => .error ⟨l.line, .badLiteral why⟩
  | .ident line name => match ss.lookup scope name with
    | some (_, .function _ _) => .error ⟨line, .uncalledFunction name⟩
    | some _ => .ok 1
    | none => .error ⟨line, .unknownName name⟩
  | .instr line op args => do
    if args.length ≠ op.args then throw ⟨line, .wrongArgumentCount op.args args.length⟩
    Expr.checkArgs d ss scope args
    return op.returns
  | .call line name args => match d.builtin? name with
    | some b =>
      if b.literalArguments then do
        if args.length ≠ b.params then throw ⟨line, .wrongLiteralCount b.params⟩
        Expr.checkLiterals args
        return b.returns
      else do
        if args.length ≠ b.params then throw ⟨line, .wrongArgumentCount b.params args.length⟩
        Expr.checkArgs d ss scope args
        return b.returns
    | none => match ss.lookup scope name with
      | some (_, .function params returns) => do
        if args.length ≠ params.length then
          throw ⟨line, .wrongArgumentCount params.length args.length⟩
        Expr.checkArgs d ss scope args
        return returns.length
      | some _ => .error ⟨line, .notAFunction name⟩
      | none => .error ⟨line, .unknownFunction name⟩

/-- Checks that every argument has one value, from the last to the first. -/
def Expr.checkArgs (d : Dialect) (ss : Scopes) (scope : Nat) :
    List Expr → Except AnalysisError Unit
  | [] => .ok ()
  | e :: rest => do
    Expr.checkArgs d ss scope rest
    let count ← Expr.valueCount d ss scope e
    if count ≠ 1 then throw ⟨e.line, .wrongValueCount 1 count⟩

/-- Checks that every argument is a string literal. -/
def Expr.checkLiterals : List Expr → Except AnalysisError Unit
  | [] => .ok ()
  | .literal l :: rest =>
    if l.kind = .string then Expr.checkLiterals rest else .error ⟨l.line, .literalExpected⟩
  | e :: _ => .error ⟨e.line, .literalExpected⟩

end

namespace Analysis

/-- Checks that an expression has a number of values. -/
def expectValues (d : Dialect) (ss : Scopes) (scope : Nat) (e : Expr) (expected : Nat) :
    Except AnalysisError Unit := do
  let count ← e.valueCount d ss scope
  if count ≠ expected then throw ⟨e.line, .wrongValueCount expected count⟩

/-- Checks that a name can be assigned to. -/
def expectVariable (ss : Scopes) (scope : Nat) (id : Identifier) : Except AnalysisError Unit :=
  match ss.lookup scope id.name with
  | some (_, .var _) => .ok ()
  | some _ => .error ⟨id.line, .notAVariable id.name⟩
  | none => .error ⟨id.line, .unknownVariable id.name⟩

/-- Declares a name in a scope. The name must be neither reserved nor empty nor
    taken. -/
def declare (d : Dialect) (scope line : Nat) (name : String) (symbol : Symbol) (ss : Scopes) :
    Except AnalysisError Scopes :=
  if d.reserved name then .error ⟨line, .reservedName name⟩
  else if name.isEmpty || ss.taken scope name then .error ⟨line, .alreadyDeclared name⟩
  else match ss.register? scope name symbol with
    | some ss => .ok ss
    | none => .error ⟨line, .alreadyDeclared name⟩

/-- Declares variables in a scope. -/
def declareVariables (d : Dialect) (scope : Nat) (vars : List TypedName) (ss : Scopes) :
    Except AnalysisError Scopes :=
  vars.foldlM (fun ss v => declare d scope v.line v.name (.var v.type) ss) ss

/-- Declares what a statement makes visible in the whole block around it. -/
def hoistOne (d : Dialect) (scope : Nat) (ss : Scopes) : Stmt → Except AnalysisError Scopes
  | .func line name params returns _ =>
    declare d scope line name (.function (params.map (·.type)) (returns.map (·.type))) ss
  | .label line name => declare d scope line name .label ss
  | _ => .ok ss

/-- Declares the functions and labels of a block. -/
def hoist (d : Dialect) (scope : Nat) (stmts : List Stmt) (ss : Scopes) :
    Except AnalysisError Scopes :=
  stmts.foldlM (hoistOne d scope) ss

/-- The value of a case, if it is well formed and not seen before. -/
def caseValue (line : Nat) (seen : List Word) (l : Literal) : Except AnalysisError Word :=
  match l.value with
  | .error why => .error ⟨l.line, .badLiteral why⟩
  | .ok w => if seen.contains w then .error ⟨line, .duplicateCase⟩ else .ok w

end Analysis

open Analysis

mutual

/-- Checks a block inside a scope, opening its own. -/
def Block.analyze (d : Dialect) (parent : Option Nat) (inLoop : Bool) :
    Block → Scopes → Except AnalysisError Scopes
  | ⟨_, stmts⟩, ss => do
    let (id, ss) := ss.push parent false
    let ss ← hoist d id stmts ss
    Stmt.analyzeSeq d id inLoop stmts ss

/-- Checks statements one after the other. -/
def Stmt.analyzeSeq (d : Dialect) (scope : Nat) (inLoop : Bool) :
    List Stmt → Scopes → Except AnalysisError Scopes
  | [], ss => .ok ss
  | s :: rest, ss => do
    let ss ← Stmt.analyze d scope inLoop s ss
    Stmt.analyzeSeq d scope inLoop rest ss

/-- Checks a statement. -/
def Stmt.analyze (d : Dialect) (scope : Nat) (inLoop : Bool) :
    Stmt → Scopes → Except AnalysisError Scopes
  | .expr line e, ss => do
    let count ← e.valueCount d ss scope
    if count ≠ 0 ∧ d.flavour ≠ .loose then throw ⟨line, .valuesLeft count⟩
    return ss
  | .assign _ targets value, ss => do
    expectValues d ss scope value targets.length
    targets.forM (expectVariable ss scope)
    return ss
  | .decl _ vars none, ss => declareVariables d scope vars ss
  | .decl _ vars (some value), ss => do
    expectValues d ss scope value vars.length
    declareVariables d scope vars ss
  | .func _ _ params returns body, ss => do
    let (id, ss) := ss.push (some scope) true
    let ss ← declareVariables d id (params ++ returns) ss
    Block.analyze d (some id) false body ss
  | .cond _ test body, ss => do
    expectValues d ss scope test 1
    Block.analyze d (some scope) inLoop body ss
  | .switch _ subject cases, ss => do
    expectValues d ss scope subject 1
    Case.analyzeSeq d scope inLoop [] cases ss
  | .loop _ ⟨_, pre⟩ test post body, ss => do
    let (id, ss) := ss.push (some scope) false
    let ss ← hoist d id pre ss
    let ss ← Stmt.analyzeSeq d id inLoop pre ss
    expectValues d ss id test 1
    let ss ← Block.analyze d (some id) true body ss
    Block.analyze d (some id) false post ss
  | .brk line, ss => if inLoop then .ok ss else .error ⟨line, .outsideLoop⟩
  | .cont line, ss => if inLoop then .ok ss else .error ⟨line, .outsideLoop⟩
  | .block b, ss => Block.analyze d (some scope) inLoop b ss
  | .label _ _, ss => .ok ss
  | .stackAssign _ target, ss => do
    expectVariable ss scope target
    return ss

/-- Checks the cases of a switch, given the values of those before. -/
def Case.analyzeSeq (d : Dialect) (scope : Nat) (inLoop : Bool) (seen : List Word) :
    List Case → Scopes → Except AnalysisError Scopes
  | [], ss => .ok ss
  | ⟨_, none, body⟩ :: rest, ss => do
    let ss ← Block.analyze d (some scope) inLoop body ss
    Case.analyzeSeq d scope inLoop seen rest ss
  | ⟨line, some l, body⟩ :: rest, ss => do
    let w ← caseValue line seen l
    let ss ← Block.analyze d (some scope) inLoop body ss
    Case.analyzeSeq d scope inLoop (seen ++ [w]) rest ss

end

/-- The scopes of a program, if it is well formed. -/
def analyze (d : Dialect) (code : Block) : Except AnalysisError Scopes :=
  code.analyze d none false Scopes.empty

mutual

/-- The number of scopes that a block opens, its own included. -/
def Block.scopeCount : Block → Nat
  | ⟨_, stmts⟩ => 1 + Stmt.scopeCountSeq stmts

/-- The number of scopes that statements open. -/
def Stmt.scopeCountSeq : List Stmt → Nat
  | [] => 0
  | s :: rest => s.scopeCount + Stmt.scopeCountSeq rest

/-- The number of scopes that a statement opens. A function has one for its
    parameters besides that of its body. -/
def Stmt.scopeCount : Stmt → Nat
  | .func _ _ _ _ body => 1 + body.scopeCount
  | .cond _ _ body => body.scopeCount
  | .switch _ _ cases => Case.scopeCountSeq cases
  | .loop _ pre _ post body => pre.scopeCount + body.scopeCount + post.scopeCount
  | .block b => b.scopeCount
  | _ => 0

/-- The number of scopes that the cases of a switch open. -/
def Case.scopeCountSeq : List Case → Nat
  | [] => 0
  | ⟨_, _, body⟩ :: rest => body.scopeCount + Case.scopeCountSeq rest

end

/-- A place that opens a scope. -/
structure ScopeNode where
  /-- Whether the place is the head of a function, and not a block. -/
  isFunction : Bool
  /-- The line of the place. -/
  line : Nat
  /-- The number of the scope. -/
  scope : Nat
deriving DecidableEq, Repr

mutual

/-- The places of a block that open scopes, the block having the given
    number. -/
def Block.scopeNodes (id : Nat) : Block → List ScopeNode
  | ⟨line, stmts⟩ => ⟨false, line, id⟩ :: Stmt.scopeNodesSeq (id + 1) stmts

/-- The places of statements that open scopes, numbered from `next` on. -/
def Stmt.scopeNodesSeq (next : Nat) : List Stmt → List ScopeNode
  | [] => []
  | s :: rest => s.scopeNodes next ++ Stmt.scopeNodesSeq (next + s.scopeCount) rest

/-- The places of a statement that open scopes, numbered from `next` on. The
    `post` block of a loop is listed before its body, although its number is
    higher. -/
def Stmt.scopeNodes (next : Nat) : Stmt → List ScopeNode
  | .func line _ _ _ body => ⟨true, line, next⟩ :: body.scopeNodes (next + 1)
  | .cond _ _ body => body.scopeNodes next
  | .switch _ _ cases => Case.scopeNodesSeq next cases
  | .loop _ pre _ post body =>
    pre.scopeNodes next ++ post.scopeNodes (next + pre.scopeCount + body.scopeCount)
      ++ body.scopeNodes (next + pre.scopeCount)
  | .block b => b.scopeNodes next
  | _ => []

/-- The places of the cases of a switch that open scopes, numbered from `next`
    on. -/
def Case.scopeNodesSeq (next : Nat) : List Case → List ScopeNode
  | [] => []
  | ⟨_, _, body⟩ :: rest =>
    body.scopeNodes next ++ Case.scopeNodesSeq (next + body.scopeCount) rest

end

/-- The places of a program that open scopes. -/
def scopeNodes (code : Block) : List ScopeNode := code.scopeNodes 0

end YulToolchain
