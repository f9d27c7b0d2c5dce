import YulToolchain.Ast.Basic
import YulToolchain.Dialect
import YulToolchain.Internal

/-!
# Effects of Expressions

What evaluating an expression can do besides having a value.

A movable expression has no effects, and its value depends on nothing but the
variables it reads, so it can be evaluated again later, or not at all, with the
same result.

## Main definitions

* `Expr.movable`: Whether an expression is movable.
* `Expr.invalidatesState`: Whether memory or storage may change.
-/

namespace YulToolchain

mutual

/-- Whether an expression may be evaluated any number of times at any point
    where its variables have the same values. -/
def Expr.movable (d : Dialect) : Expr → Bool
  | .literal _ => true
  | .ident _ _ => true
  | .instr _ op args => op.movable && Expr.movableAll d args
  | .call _ name args => (d.builtin? name).any (·.movable) && Expr.movableAll d args

/-- Whether some expressions are all movable. -/
def Expr.movableAll (d : Dialect) : List Expr → Bool
  | [] => true
  | e :: rest => e.movable d && Expr.movableAll d rest

end

mutual

/-- Whether evaluating an expression may write memory or storage, or call
    anything that could. -/
def Expr.invalidatesState (d : Dialect) : Expr → Bool
  | .literal _ => false
  | .ident _ _ => false
  | .instr _ op args =>
    op.invalidatesMemory || op.invalidatesStorage || Expr.anyInvalidatesState d args
  | .call _ name args =>
    !(d.builtin? name).any (·.sideEffectFree) || Expr.anyInvalidatesState d args

/-- Whether evaluating some expressions may write memory or storage. -/
def Expr.anyInvalidatesState (d : Dialect) : List Expr → Bool
  | [] => false
  | e :: rest => e.invalidatesState d || Expr.anyInvalidatesState d rest

end

/-- Movability is a property of expressions. To ask for that of a statement is
    an error. -/
def Stmt.movable (s : Stmt) : Except InternalError Bool := .error ⟨s.line, .statementMovability⟩

end YulToolchain
