import YulToolchain.Pass.Flatten

/-!
# Hoisting Loop Initialisation

The initialisation of a loop is moved in front of the loop. Where a declaration
in it would clash with the code around, the two are wrapped in a block.

## Main definitions

* `Pass.hoistLoopInit`: The pass.
-/

namespace YulToolchain

namespace Pass

/-- Moves the initialisation of a loop in front of it, unless it is empty. -/
def hoistLoopInitStmt (declared : List String) : Stmt → List Stmt
  | .loop line ⟨preLine, p :: ps⟩ test post body =>
    let moved : Block := ⟨line, p :: ps ++ [.loop line ⟨preLine, []⟩ test post body]⟩
    moved.inlineOrKeep declared
  | s => [s]

/-- Moves the initialisation of every loop in front of it. -/
def hoistLoopInit (code : Block) : Block := code.bottomUp id (hoistLoopInitStmt code.declared)

end Pass

end YulToolchain
