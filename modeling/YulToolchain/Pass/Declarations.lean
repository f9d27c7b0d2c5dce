import YulToolchain.Ast.BottomUp

/-!
# Initialising Declarations

Every declaration gets an explicit value: a declaration without one becomes one
declaration per variable, each of zero.

## Main definitions

* `Pass.initializeVars`: The pass.
-/

namespace YulToolchain

namespace Pass

/-- Gives the variables of a declaration without a value the value zero. -/
def initializeStmt : Stmt → List Stmt
  | .decl line vars none =>
    vars.map fun v => .decl line [v] (some (.literal (Literal.zero line v.type)))
  | s => [s]

/-- Gives every declaration an explicit value. -/
def initializeVars (code : Block) : Block := code.bottomUp id initializeStmt

end Pass

end YulToolchain
