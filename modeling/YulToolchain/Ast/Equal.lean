import YulToolchain.Ast.Basic

/-!
# Equality of Expressions

Two expressions are the same expression if they differ at most in their lines
and in how their numbers are spelled.

## Main definitions

* `Literal.same`: Equality of literals, numbers compared by value.
* `Expr.same`: Equality of expressions.
-/

namespace YulToolchain

/-- Whether two literals are the same. Numbers of one type are the same when
    they have the same value; everything else, malformed numbers included, is
    compared by its text. -/
def Literal.same (a b : Literal) : Bool :=
  a.kind == b.kind && a.type == b.type &&
    match a.kind, a.value, b.value with
    | .number, .ok x, .ok y => x == y
    | _, _, _ => a.text == b.text

mutual

/-- Whether two expressions are the same up to lines and the spelling of
    numbers. -/
def Expr.same : Expr → Expr → Bool
  | .ident _ a, .ident _ b => a == b
  | .literal a, .literal b => a.same b
  | .instr _ a as, .instr _ b bs => a == b && Expr.sameArgs as bs
  | .call _ a as, .call _ b bs => a == b && Expr.sameArgs as bs
  | _, _ => false

/-- Whether two argument lists are the same. -/
def Expr.sameArgs : List Expr → List Expr → Bool
  | [], [] => true
  | a :: as, b :: bs => a.same b && Expr.sameArgs as bs
  | _, _ => false

end

end YulToolchain
