import YulToolchain.Ast.Basic
import YulToolchain.Table
import YulToolchain.Word

/-!
# Environments

The variables and functions in sight while a program runs.

Variables live in the scopes of the function that is executed, the innermost
first. A function sees the functions of all blocks that are being executed, its
callers included, and of those with the same name the innermost one.

## Main definitions

* `Environment`: The variables in sight.
* `Environment.get?`, `Environment.declare`, `Environment.assign?`: Access to
  variables.
* `FunctionScopes`: The functions in sight.
* `FunctionDef.frame`: The variables a function starts with.
-/

namespace YulToolchain

/-- The variables in sight, the innermost scope first. -/
abbrev Environment := List (Table String Word)

namespace Environment

/-- The value of a variable. -/
def get? (name : String) : Environment → Option Word
  | [] => none
  | scope :: outer => match scope.get? name with
    | some value => some value
    | none => get? name outer

/-- Declares a variable in the innermost scope. -/
def declare (name : String) (value : Word) : Environment → Environment
  | [] => []
  | scope :: outer => scope.insert name value :: outer

/-- Declares variables in the innermost scope. -/
def declareAll (vars : List (String × Word)) (env : Environment) : Environment :=
  vars.foldl (fun env (name, value) => env.declare name value) env

/-- Assigns to a variable, if it exists. -/
def assign? (name : String) (value : Word) : Environment → Option Environment
  | [] => none
  | scope :: outer =>
    if scope.contains name then some (scope.insert name value :: outer)
    else (assign? name value outer).map (scope :: ·)

end Environment

/-- The functions in sight, the innermost block first. -/
abbrev FunctionScopes := List (List FunctionDef)

/-- The function with a name in one block. Of several the last one is meant. -/
def findFunction? (name : String) (functions : List FunctionDef) : Option FunctionDef :=
  functions.reverse.find? (·.name == name)

/-- The function with a name. -/
def FunctionScopes.find? (name : String) : FunctionScopes → Option FunctionDef
  | [] => none
  | functions :: outer => match findFunction? name functions with
    | some f => some f
    | none => FunctionScopes.find? name outer

/-- The variables a function starts with: its parameters with their arguments,
    and its return variables with zeros. -/
def FunctionDef.frame (f : FunctionDef) (args : List Word) : Table String Word :=
  let params := (f.params.map (·.name)).zip args
  let returns := f.returns.map fun v => (v.name, 0)
  (params ++ returns).foldl (fun scope (name, value) => scope.insert name value) .empty

end YulToolchain
