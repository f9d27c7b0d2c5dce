import YulToolchain.Effects
import YulToolchain.Metrics
import YulToolchain.Rule.Arithmetic
import YulToolchain.Ast.BottomUp

/-!
# Simplifying Expressions

The arithmetic rules, applied from the inside to the outside until none
applies.

The first rule that matches decides. If it would drop an operand of an
expression that is not movable, or if its replacement can not be computed, the
expression stays as it is, even where a later rule would apply. Every
replacement is smaller than what it replaces, so there are at most as many
steps as the expression has nodes.

## Main definitions

* `Expr.simplifyStep?`: One application of a rule at the root.
* `Expr.simplify`: The simplified expression.
* `Pass.simplify`: The pass.
-/

namespace YulToolchain

/-- One application of a rule at the root of an expression. -/
def Expr.simplifyStep? (d : Dialect) (e : Expr) : Option Expr :=
  match e.findRule? with
  | some (_, rule, bs) =>
    if rule.dropsOperand && !e.movable d then none else rule.action.build? e bs
  | none => none

/-- Simplifies the root of an expression until no rule applies, within a number
    of steps. -/
def Expr.simplifyRoot (d : Dialect) : Nat → Expr → Expr
  | 0, e => e
  | steps + 1, e => match e.simplifyStep? d with
    | some e' => simplifyRoot d steps e'
    | none => e

mutual

/-- The simplified form of an expression. -/
def Expr.simplify (d : Dialect) : Expr → Expr
  | .literal l => .literal l
  | .ident line name => .ident line name
  | .instr line op args =>
    let e := Expr.instr line op (Expr.simplifyAll d args)
    e.simplifyRoot d e.size
  | .call line name args => .call line name (Expr.simplifyAll d args)

/-- The simplified forms of some expressions. -/
def Expr.simplifyAll (d : Dialect) : List Expr → List Expr
  | [] => []
  | e :: rest => e.simplify d :: Expr.simplifyAll d rest

end

namespace Pass

/-- Simplifies every expression of a program. -/
def simplify (d : Dialect) (code : Block) : Block := code.bottomUp (Expr.simplify d) fun s => [s]

end Pass

end YulToolchain
