import YulToolchain.Names.Occurrences
import YulToolchain.Ast.BottomUp

/-!
# Flattening Blocks

Nested blocks are spliced into the block around them.

A block is spliced only if nothing it declares at its top level is declared
anywhere else in the program, so moving the declarations one scope up can not
clash.

## Main definitions

* `Block.canInline`: Whether a block may be spliced.
* `Block.inlineOrKeep`: The statements that stand for a block.
* `Pass.flatten`: The pass.
-/

namespace YulToolchain

/-- The names that a statement declares in the scope it stands in. -/
def Stmt.bindsHere : Stmt → List String
  | .decl _ vars _ => vars.map (·.name)
  | .func _ name _ _ _ => [name]
  | .label _ name => [name]
  | _ => []

namespace Block

/-- Whether the names that a block declares at its top level are declared once
    among all declarations of the program. -/
def canInline (declared : List String) (b : Block) : Bool :=
  b.stmts.all fun s => s.bindsHere.all fun name => declared.count name ≤ 1

/-- The statements of a block if they can stand in the block around it, and the
    block itself otherwise. -/
def inlineOrKeep (declared : List String) (b : Block) : List Stmt :=
  if b.canInline declared then b.stmts else [.block b]

end Block

namespace Pass

/-- Splices a block that may be spliced. -/
def flattenStmt (declared : List String) : Stmt → List Stmt
  | .block b => b.inlineOrKeep declared
  | s => [s]

/-- Splices nested blocks into the blocks around them. -/
def flatten (code : Block) : Block := code.bottomUp id (flattenStmt code.declared)

end Pass

end YulToolchain
