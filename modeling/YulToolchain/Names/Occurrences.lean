import YulToolchain.Ast.Basic

/-!
# Occurrences of Names

Where names are declared, read and assigned.

All three are lists of occurrences, with repetitions. `Block.allStmts` lists
every statement inside a block, those of nested blocks and functions included,
and each collection is a pass over that list.

## Main definitions

* `Expr.reads`: The variables an expression reads.
* `Expr.references`: Its reads and the functions it calls.
* `Block.allStmts`: Every statement inside a block.
* `Block.declared`, `Block.references`, `Block.assigned`: The occurrences in a
  block.
-/

namespace YulToolchain

mutual

/-- The variables that an expression reads. -/
def Expr.reads : Expr → List String
  | .literal _ => []
  | .ident _ name => [name]
  | .instr _ _ args => Expr.readsAll args
  | .call _ _ args => Expr.readsAll args

/-- The variables that some expressions read. -/
def Expr.readsAll : List Expr → List String
  | [] => []
  | e :: rest => e.reads ++ Expr.readsAll rest

end

mutual

/-- The variables that an expression reads and the functions it calls. -/
def Expr.references : Expr → List String
  | .literal _ => []
  | .ident _ name => [name]
  | .instr _ _ args => Expr.referencesAll args
  | .call _ name args => name :: Expr.referencesAll args

/-- The variables that some expressions read and the functions they call. -/
def Expr.referencesAll : List Expr → List String
  | [] => []
  | e :: rest => e.references ++ Expr.referencesAll rest

end

namespace Stmt

/-- The names that a statement itself declares, not those inside it. -/
def declaresHere : Stmt → List String
  | decl _ vars _ => vars.map (·.name)
  | func _ name params returns _ => name :: (params ++ returns).map (·.name)
  | label _ name => [name]
  | _ => []

/-- The variables that a statement itself assigns, not those inside it. -/
def assignsHere : Stmt → List String
  | assign _ targets _ => targets.map (·.name)
  | stackAssign _ target => [target.name]
  | _ => []

/-- The expressions of a statement itself, not those inside it. -/
def exprsHere : Stmt → List Expr
  | expr _ e => [e]
  | assign _ _ value => [value]
  | decl _ _ (some value) => [value]
  | cond _ test _ => [test]
  | switch _ subject _ => [subject]
  | loop _ _ test _ _ => [test]
  | _ => []

end Stmt

mutual

/-- Every statement inside a block. -/
def Block.allStmts : Block → List Stmt
  | ⟨_, stmts⟩ => Stmt.allStmtsSeq stmts

/-- Every statement of a sequence and inside its members. -/
def Stmt.allStmtsSeq : List Stmt → List Stmt
  | [] => []
  | s :: rest => s :: (s.allInner ++ Stmt.allStmtsSeq rest)

/-- Every statement inside a statement. -/
def Stmt.allInner : Stmt → List Stmt
  | .func _ _ _ _ body => body.allStmts
  | .cond _ _ body => body.allStmts
  | .switch _ _ cases => Case.allStmtsSeq cases
  | .loop _ pre _ post body => pre.allStmts ++ body.allStmts ++ post.allStmts
  | .block b => b.allStmts
  | _ => []

/-- Every statement inside some cases. -/
def Case.allStmtsSeq : List Case → List Stmt
  | [] => []
  | ⟨_, _, body⟩ :: rest => body.allStmts ++ Case.allStmtsSeq rest

end

namespace Block

/-- The names declared inside a block: variables, functions, parameters, return
    variables and labels. -/
def declared (b : Block) : List String := b.allStmts.flatMap Stmt.declaresHere

/-- The variables assigned inside a block, declarations not counted. -/
def assigned (b : Block) : List String := b.allStmts.flatMap Stmt.assignsHere

/-- The variables read and the functions called inside a block. -/
def references (b : Block) : List String :=
  b.allStmts.flatMap fun s => Expr.referencesAll s.exprsHere

end Block

end YulToolchain
