import YulToolchain.Ast.BottomUp

/-!
# Moving Loop Conditions into the Body

A loop with a condition becomes an endless loop whose body starts with leaving
it when the condition is zero. Conditions that are literals stay.

## Main definitions

* `Pass.moveLoopCondition`: The pass.
-/

namespace YulToolchain

namespace Pass

/-- Leaves the loop when a condition is zero. -/
def guard (test : Expr) : Stmt :=
  .cond test.line (.instr test.line .iszero [test]) ⟨test.line, [.brk test.line]⟩

/-- Moves the condition of a loop into its body. -/
def moveLoopConditionStmt : Stmt → List Stmt
  | .loop line pre (.literal l) post body => [.loop line pre (.literal l) post body]
  | .loop line pre test post ⟨bodyLine, stmts⟩ =>
    [.loop line pre (.number test.line 1) post ⟨bodyLine, guard test :: stmts⟩]
  | s => [s]

/-- Moves the condition of every loop into its body. -/
def moveLoopCondition (code : Block) : Block := code.bottomUp id moveLoopConditionStmt

end Pass

end YulToolchain
