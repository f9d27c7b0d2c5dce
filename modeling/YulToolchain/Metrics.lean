import YulToolchain.Ast.Basic

/-!
# Metrics of Code

Size, cost and depth, by which a change is judged worth its while.

## Main definitions

* `Expr.size`, `Block.size`: The number of nodes.
* `Expr.cost`: A rough price of evaluating an expression.
* `Expr.depth`: The longest chain of nested calls.
-/

namespace YulToolchain

mutual

/-- The number of nodes of an expression. -/
def Expr.size : Expr → Nat
  | .literal _ => 1
  | .ident _ _ => 1
  | .instr _ _ args => 1 + Expr.sizeAll args
  | .call _ _ args => 1 + Expr.sizeAll args

/-- The number of nodes of some expressions. -/
def Expr.sizeAll : List Expr → Nat
  | [] => 0
  | e :: rest => e.size + Expr.sizeAll rest

end

mutual

/-- The number of statements and expressions in a block. Functions count only
    if `functions` is set. -/
def Block.size (functions : Bool) : Block → Nat
  | ⟨_, stmts⟩ => Stmt.sizeSeq functions stmts

/-- The number of statements and expressions in a sequence. -/
def Stmt.sizeSeq (functions : Bool) : List Stmt → Nat
  | [] => 0
  | s :: rest => s.size functions + Stmt.sizeSeq functions rest

/-- The number of statements and expressions in a statement, itself
    included. -/
def Stmt.size (functions : Bool) : Stmt → Nat
  | .expr _ e => 1 + e.size
  | .assign _ _ value => 1 + value.size
  | .decl _ _ none => 1
  | .decl _ _ (some value) => 1 + value.size
  | .func _ _ _ _ body => if functions then 1 + body.size functions else 0
  | .cond _ test body => 1 + test.size + body.size functions
  | .switch _ subject cases => 1 + subject.size + Case.sizeSeq functions cases
  | .loop _ pre test post body =>
    1 + pre.size functions + test.size + post.size functions + body.size functions
  | .block b => 1 + b.size functions
  | .brk _ | .cont _ | .label _ _ | .stackAssign _ _ => 1

/-- The number of statements and expressions in some cases. -/
def Case.sizeSeq (functions : Bool) : List Case → Nat
  | [] => 0
  | ⟨_, _, body⟩ :: rest => body.size functions + Case.sizeSeq functions rest

end

/-- The price of an instruction by its class: nothing for the cheapest, two for
    plain arithmetic, fifty for the rest. -/
def Tier.cost : Tier → Nat
  | zero | base => 0
  | veryLow | low | mid => 2
  | high | ext | special => 50

mutual

/-- A rough price of evaluating an expression. Variables and literals are free,
    and a call costs fifty. -/
def Expr.cost : Expr → Nat
  | .literal _ => 0
  | .ident _ _ => 0
  | .instr _ op args => op.info.tier.cost + Expr.costAll args
  | .call _ _ args => 50 + Expr.costAll args

/-- A rough price of evaluating some expressions. -/
def Expr.costAll : List Expr → Nat
  | [] => 0
  | e :: rest => e.cost + Expr.costAll rest

end

mutual

/-- The longest chain of nested calls in an expression. -/
def Expr.depth : Expr → Nat
  | .literal _ => 0
  | .ident _ _ => 0
  | .instr _ _ args => 1 + Expr.depthAll args
  | .call _ _ args => 1 + Expr.depthAll args

/-- The longest chain of nested calls in some expressions. -/
def Expr.depthAll : List Expr → Nat
  | [] => 0
  | e :: rest => max e.depth (Expr.depthAll rest)

end

end YulToolchain
