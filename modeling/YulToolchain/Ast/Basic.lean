import YulToolchain.Ast.Literal
import YulToolchain.Machine.Instruction

/-!
# The Tree of a Program

Expressions, statements and blocks. Every node carries the line it was read
from; no pass looks at it and only diagnostics show it.

A call is one of two nodes. Which one a call becomes is decided when it is
read: an instruction of the dialect becomes `Expr.instr`, anything else
`Expr.call`, which names a function of the program or a builtin that is no
instruction.

## Main definitions

* `Identifier`, `TypedName`: Uses and declarations of names.
* `Expr`: Expressions.
* `Stmt`, `Case`, `Block`: Statements, the cases of a switch, and blocks.
* `FunctionDef`: The parts of a function definition.
* `Block.functions`: The functions a block defines.
-/

namespace YulToolchain

/-- The deepest nesting of blocks and calls that is read. Everything that walks
    over code recurses along the same structure. -/
def maxNesting : Nat := 256

/-- A use of a name. -/
structure Identifier where
  /-- The line it stands on. -/
  line : Nat
  /-- The name. -/
  name : String
deriving DecidableEq, Repr, Inhabited

/-- A declared name with its type, which is empty if none was written. -/
structure TypedName where
  /-- The line it stands on. -/
  line : Nat
  /-- The name. -/
  name : String
  /-- The name of its type. -/
  type : String
deriving DecidableEq, Repr, Inhabited

/-- Expressions. -/
inductive Expr where
  /-- A literal. -/
  | literal (l : Literal)
  /-- A use of a name as a value. -/
  | ident (line : Nat) (name : String)
  /-- An instruction written as a call. -/
  | instr (line : Nat) (op : Instruction) (args : List Expr)
  /-- A call of a function or of a builtin that is no instruction. -/
  | call (line : Nat) (name : String) (args : List Expr)
deriving Repr, Inhabited

mutual

/-- A block: statements in a scope of their own. -/
structure Block where
  /-- The line of the opening brace. -/
  line : Nat
  /-- The statements. -/
  stmts : List Stmt

/-- Statements. -/
inductive Stmt where
  /-- An expression evaluated for its effects. -/
  | expr (line : Nat) (e : Expr)
  /-- An assignment to one or more variables. -/
  | assign (line : Nat) (targets : List Identifier) (value : Expr)
  /-- A declaration of one or more variables. -/
  | decl (line : Nat) (vars : List TypedName) (value : Option Expr)
  /-- A function definition. -/
  | func (line : Nat) (name : String) (params returns : List TypedName) (body : Block)
  /-- A conditional without an alternative. -/
  | cond (line : Nat) (test : Expr) (body : Block)
  /-- A choice by value. -/
  | switch (line : Nat) (subject : Expr) (cases : List Case)
  /-- A loop. The scope of `pre` spans the whole loop. -/
  | loop (line : Nat) (pre : Block) (test : Expr) (post body : Block)
  /-- Leaves the innermost loop. -/
  | brk (line : Nat)
  /-- Goes on to the `post` block of the innermost loop. -/
  | cont (line : Nat)
  /-- A nested block. -/
  | block (b : Block)
  /-- A jump target, in loose assembly only. -/
  | label (line : Nat) (name : String)
  /-- Moves the top of the stack into a variable, in loose assembly only. -/
  | stackAssign (line : Nat) (target : Identifier)

/-- A case of a switch. The default case has no value. -/
structure Case where
  /-- The line of the keyword. -/
  line : Nat
  /-- The value selected by the case. -/
  value : Option Literal
  /-- The code of the case. -/
  body : Block

end

instance : Inhabited Block := ⟨⟨0, []⟩⟩

instance : Inhabited Stmt := ⟨.brk 0⟩

/-- The parts of a function definition. -/
structure FunctionDef where
  /-- The line of the keyword. -/
  line : Nat
  /-- The name of the function. -/
  name : String
  /-- The parameters. -/
  params : List TypedName
  /-- The return variables. -/
  returns : List TypedName
  /-- The code. -/
  body : Block

namespace Expr

/-- The line of an expression. -/
def line : Expr → Nat
  | literal l => l.line
  | ident n _ => n
  | instr n _ _ => n
  | call n _ _ => n

/-- The literal written for a word, as an expression. -/
def number (line : Nat) (w : Word) : Expr := .literal (Literal.number line w)

end Expr

namespace Stmt

/-- The line of a statement. -/
def line : Stmt → Nat
  | expr n _ | assign n _ _ | decl n _ _ | func n _ _ _ _ | cond n _ _ | switch n _ _
  | loop n _ _ _ _ | brk n | cont n | label n _ | stackAssign n _ => n
  | block b => b.line

/-- The function a statement defines, if it is a definition. -/
def function? : Stmt → Option FunctionDef
  | func line name params returns body => some ⟨line, name, params, returns, body⟩
  | _ => none

end Stmt

namespace Block

/-- The functions a block defines, in the order of their definitions. -/
def functions (b : Block) : List FunctionDef := b.stmts.filterMap Stmt.function?

end Block

end YulToolchain
