import YulToolchain.Ast.Basic

/-!
# Bottom-Up Changes

Changing code from the inside to the outside.

A change is given by what it does to the expressions of a statement and by what
it puts in place of a statement, which can be any number of statements. The
parts of a statement are changed before the statement itself, and what takes its
place is not looked at again.

## Main definitions

* `Block.bottomUp`: Changes a block.
-/

namespace YulToolchain

mutual

/-- Changes a block from the inside to the outside. -/
def Block.bottomUp (onExpr : Expr → Expr) (onStmt : Stmt → List Stmt) : Block → Block
  | ⟨line, stmts⟩ => ⟨line, Stmt.bottomUpSeq onExpr onStmt stmts⟩

/-- Changes statements one by one. -/
def Stmt.bottomUpSeq (onExpr : Expr → Expr) (onStmt : Stmt → List Stmt) : List Stmt → List Stmt
  | [] => []
  | s :: rest => onStmt (s.bottomUpInner onExpr onStmt) ++ Stmt.bottomUpSeq onExpr onStmt rest

/-- Changes the parts of a statement. -/
def Stmt.bottomUpInner (onExpr : Expr → Expr) (onStmt : Stmt → List Stmt) : Stmt → Stmt
  | .expr line e => .expr line (onExpr e)
  | .assign line targets value => .assign line targets (onExpr value)
  | .decl line vars value => .decl line vars (value.map onExpr)
  | .func line name params returns body =>
    .func line name params returns (body.bottomUp onExpr onStmt)
  | .cond line test body => .cond line (onExpr test) (body.bottomUp onExpr onStmt)
  | .switch line subject cases =>
    .switch line (onExpr subject) (Case.bottomUpSeq onExpr onStmt cases)
  | .loop line pre test post body =>
    .loop line (pre.bottomUp onExpr onStmt) (onExpr test) (post.bottomUp onExpr onStmt)
      (body.bottomUp onExpr onStmt)
  | .block b => .block (b.bottomUp onExpr onStmt)
  | .brk line => .brk line
  | .cont line => .cont line
  | .label line name => .label line name
  | .stackAssign line target => .stackAssign line target

/-- Changes the bodies of some cases. -/
def Case.bottomUpSeq (onExpr : Expr → Expr) (onStmt : Stmt → List Stmt) : List Case → List Case
  | [] => []
  | ⟨line, value, body⟩ :: rest =>
    ⟨line, value, body.bottomUp onExpr onStmt⟩ :: Case.bottomUpSeq onExpr onStmt rest

end

end YulToolchain
