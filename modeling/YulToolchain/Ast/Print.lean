import YulToolchain.Ast.Basic

/-!
# Printed Code

The canonical rendering of code on one line. Equal trees print to equal text,
and lines are not shown.

## Main definitions

* `Expr.print`, `Stmt.print`, `Block.print`: The rendering.
-/

namespace YulToolchain

/-- A declared name as source text, with its type after a colon. -/
def TypedName.print (v : TypedName) : String :=
  if v.type.isEmpty then v.name else v.name ++ ":" ++ v.type

/-- Declared names as source text. -/
def TypedName.printList (vs : List TypedName) : String := ", ".intercalate (vs.map TypedName.print)

/-- Used names as source text. -/
def Identifier.printList (ids : List Identifier) : String :=
  ", ".intercalate (ids.map Identifier.name)

mutual

/-- An expression as source text. -/
def Expr.print : Expr → String
  | .literal l => l.print
  | .ident _ name => name
  | .instr _ op args => op.mnemonic ++ "(" ++ Expr.printArgs args ++ ")"
  | .call _ name args => name ++ "(" ++ Expr.printArgs args ++ ")"

/-- Arguments as source text. -/
def Expr.printArgs : List Expr → String
  | [] => ""
  | [e] => e.print
  | e :: es => e.print ++ ", " ++ Expr.printArgs es

end

mutual

/-- A block as source text. -/
def Block.print : Block → String
  | ⟨_, stmts⟩ => "\x7b " ++ Stmt.printSeq stmts ++ "\x7d"

/-- A statement as source text. -/
def Stmt.print : Stmt → String
  | .expr _ e => e.print
  | .assign _ targets value => Identifier.printList targets ++ " := " ++ value.print
  | .decl _ vars none => "let " ++ TypedName.printList vars
  | .decl _ vars (some value) => "let " ++ TypedName.printList vars ++ " := " ++ value.print
  | .func _ name params returns body =>
    "function " ++ name ++ "(" ++ TypedName.printList params ++ ")"
      ++ (if returns.isEmpty then "" else " -> " ++ TypedName.printList returns)
      ++ " " ++ body.print
  | .cond _ test body => "if " ++ test.print ++ " " ++ body.print
  | .switch _ subject cases => "switch " ++ subject.print ++ Case.printSeq cases
  | .loop _ pre test post body =>
    "for " ++ pre.print ++ " " ++ test.print ++ " " ++ post.print ++ " " ++ body.print
  | .brk _ => "break"
  | .cont _ => "continue"
  | .block b => b.print
  | .label _ name => name ++ ":"
  | .stackAssign _ target => "=: " ++ target.name

/-- Statements as source text, with a blank after each. -/
def Stmt.printSeq : List Stmt → String
  | [] => ""
  | s :: rest => s.print ++ " " ++ Stmt.printSeq rest

/-- A case of a switch as source text. -/
def Case.print : Case → String
  | ⟨_, some value, body⟩ => "case " ++ value.print ++ " " ++ body.print
  | ⟨_, none, body⟩ => "default " ++ body.print

/-- Cases as source text, with a blank before each. -/
def Case.printSeq : List Case → String
  | [] => ""
  | c :: rest => " " ++ c.print ++ Case.printSeq rest

end

end YulToolchain
