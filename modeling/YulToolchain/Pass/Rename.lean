import YulToolchain.Analysis
import YulToolchain.Internal
import YulToolchain.Names.Fresh

/-!
# Making Names Unique

Every declared name is renamed so that no two declarations of the program share
a name.

A declaration gets its new name when it is first met, be it by its declaration
or by a use, and keeps it from then on. New names are taken from a supply that
avoids the names that are used outside, which themselves keep their spelling.
The walk goes through code in the order of the text, except that arguments are
taken from the last to the first.

## Main definitions

* `Renaming`: The new names given so far.
* `Rename.name`: The new name for a use of a name.
* `makeNamesUnique`: The renamed program.
-/

namespace YulToolchain

/-- The new names given so far. -/
structure Renaming where
  /-- The supply of new names. -/
  supply : NameSupply
  /-- The new names of the declarations met so far. -/
  names : List (Declaration × String)

/-- What renaming depends on. -/
structure RenameContext where
  /-- The dialect of the program. -/
  dialect : Dialect
  /-- The scopes of the program. -/
  scopes : Scopes
  /-- The names used outside, which keep their spelling. -/
  external : List String

namespace Rename

/-- Walks that give new names. -/
abbrev Walk := StateT Renaming (Except InternalError)

/-- The new name for a name that is used in a scope. -/
def name (c : RenameContext) (scope line : Nat) (old : String) : Walk String := do
  if (c.dialect.builtin? old).isSome || c.external.contains old then return old
  else match c.scopes.lookup scope old with
    | none => throw ⟨line, .unresolved old⟩
    | some (declaration, _) =>
      let st ← get
      match st.names.lookup declaration with
      | some new => return new
      | none =>
        let (new, supply) := st.supply.next old
        set { st with supply, names := (declaration, new) :: st.names : Renaming }
        return new

/-- Renames declared names. -/
def typedNames (c : RenameContext) (scope : Nat) (vars : List TypedName) : Walk (List TypedName) :=
  vars.mapM fun v => do return { v with name := ← name c scope v.line v.name }

/-- Renames used names. -/
def identifiers (c : RenameContext) (scope : Nat) (ids : List Identifier) :
    Walk (List Identifier) :=
  ids.mapM fun id => do return { id with name := ← name c scope id.line id.name }

mutual

/-- Renames an expression. -/
def expr (c : RenameContext) (scope : Nat) : Expr → Walk Expr
  | .literal l => return .literal l
  | .ident line old => return .ident line (← name c scope line old)
  | .instr line op args => return .instr line op (← exprs c scope args)
  | .call line old args => do
    let new ← name c scope line old
    return .call line new (← exprs c scope args)

/-- Renames arguments from the last to the first. -/
def exprs (c : RenameContext) (scope : Nat) : List Expr → Walk (List Expr)
  | [] => return []
  | e :: rest => do
    let rest ← exprs c scope rest
    let e ← expr c scope e
    return e :: rest

end

/-- Renames the value of a declaration, if there is one. -/
def optionalExpr (c : RenameContext) (scope : Nat) : Option Expr → Walk (Option Expr)
  | none => return none
  | some e => return some (← expr c scope e)

mutual

/-- Renames a block with the given number. -/
def block (c : RenameContext) (id : Nat) : Block → Walk Block
  | ⟨line, ss⟩ => return ⟨line, ← stmts c id (id + 1) ss⟩

/-- Renames statements in a scope. The scopes they open are numbered from
    `next` on. -/
def stmts (c : RenameContext) (scope next : Nat) : List Stmt → Walk (List Stmt)
  | [] => return []
  | s :: rest => do
    let renamed ← stmt c scope next s
    return renamed :: (← stmts c scope (next + s.scopeCount) rest)

/-- Renames a statement in a scope. -/
def stmt (c : RenameContext) (scope next : Nat) : Stmt → Walk Stmt
  | .expr line e => return .expr line (← expr c scope e)
  | .assign line targets value => do
    let targets ← identifiers c scope targets
    return .assign line targets (← expr c scope value)
  | .decl line vars value => do
    let vars ← typedNames c scope vars
    return .decl line vars (← optionalExpr c scope value)
  | .func line old params returns body => do
    let new ← name c scope line old
    let params ← typedNames c next params
    let returns ← typedNames c next returns
    return .func line new params returns (← block c (next + 1) body)
  | .cond line test body => do
    let test ← expr c scope test
    return .cond line test (← block c next body)
  | .switch line subject cs => do
    let subject ← expr c scope subject
    return .switch line subject (← cases c next cs)
  | .loop line ⟨preLine, pre⟩ test post body => do
    let bodyId := next + (Block.mk preLine pre).scopeCount
    let pre ← stmts c next (next + 1) pre
    let test ← expr c next test
    let renamedPost ← block c (bodyId + body.scopeCount) post
    return .loop line ⟨preLine, pre⟩ test renamedPost (← block c bodyId body)
  | .brk line => return .brk line
  | .cont line => return .cont line
  | .block b => return .block (← block c next b)
  | .label line old => return .label line (← name c scope line old)
  | .stackAssign line target => do
    return .stackAssign line { target with name := ← name c scope target.line target.name }

/-- Renames the bodies of some cases. -/
def cases (c : RenameContext) (next : Nat) : List Case → Walk (List Case)
  | [] => return []
  | ⟨line, value, body⟩ :: rest => do
    let renamed ← block c next body
    return ⟨line, value, renamed⟩ :: (← cases c (next + body.scopeCount) rest)

end

end Rename

/-- A program in which no two declarations share a name, apart from the names
    that are used outside. -/
def makeNamesUnique (d : Dialect) (ss : Scopes) (external : List String) (code : Block) :
    Except InternalError Block :=
  (·.1) <$> (Rename.block ⟨d, ss, external⟩ 0 code).run ⟨.ofUsed d external, []⟩

end YulToolchain
