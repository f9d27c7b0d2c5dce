/-!
# Scopes

The scopes of a program and the names declared in them.

Scopes are numbered in the order in which they are opened, and a scope knows
the number of the one around it. A scope that holds the parameters of a
function is a boundary: from inside it, the variables outside can not be seen,
although their names are still taken.

Everything that is asked about a name walks outwards along `chain`, the scopes
around a scope from the inside to the outside.

## Main definitions

* `Symbol`: What a name stands for.
* `Scope`, `Scopes`: The scopes of a program.
* `Declaration`: A name together with the scope that declares it.
* `Scopes.lookup`: The declaration that a name refers to at a place.
* `Scopes.taken`: Whether a name is declared around a place.
-/

namespace YulToolchain

/-- What a name stands for. -/
inductive Symbol where
  /-- A variable of a type. -/
  | var (type : String)
  /-- A jump target. -/
  | label
  /-- A function with the types of its parameters and of its return
      variables. -/
  | function (params returns : List String)
deriving DecidableEq, Repr, Inhabited

/-- Whether a symbol is a variable. -/
def Symbol.isVariable : Symbol → Bool
  | var _ => true
  | _ => false

/-- A scope. -/
structure Scope where
  /-- The number of the scope around it. -/
  parent : Option Nat
  /-- Whether it holds the parameters of a function. -/
  isFunction : Bool
  /-- The names declared in it, the latest first. -/
  symbols : List (String × Symbol)
deriving DecidableEq, Repr, Inhabited

/-- What a scope declares under a name. -/
def Scope.find? (s : Scope) (name : String) : Option Symbol := s.symbols.lookup name

/-- A name together with the number of the scope that declares it. -/
structure Declaration where
  /-- The number of the scope. -/
  scope : Nat
  /-- The name. -/
  name : String
deriving DecidableEq, Repr, Inhabited

/-- The scopes of a program by their numbers. -/
structure Scopes where
  /-- The scopes in the order in which they were opened. -/
  toArray : Array Scope
deriving DecidableEq, Repr, Inhabited

namespace Scopes

/-- No scopes. -/
def empty : Scopes := ⟨#[]⟩

/-- The scope with a number. -/
def get? (ss : Scopes) (id : Nat) : Option Scope := ss.toArray[id]?

/-- Opens a scope and returns its number. -/
def push (ss : Scopes) (parent : Option Nat) (isFunction : Bool) : Nat × Scopes :=
  (ss.toArray.size, ⟨ss.toArray.push ⟨parent, isFunction, []⟩⟩)

/-- Declares a name in a scope, unless the scope declares it already. -/
def register? (ss : Scopes) (id : Nat) (name : String) (symbol : Symbol) : Option Scopes :=
  match ss.get? id with
  | none => none
  | some s =>
    if (s.find? name).isSome then none
    else some ⟨ss.toArray.modify id fun s => { s with symbols := (name, symbol) :: s.symbols }⟩

/-- The scopes around a place, from the inside to the outside, with their
    numbers. The first argument bounds their number. -/
def chainFrom (ss : Scopes) : Nat → Nat → List (Nat × Scope)
  | 0, _ => []
  | fuel + 1, id => match ss.get? id with
    | none => []
    | some s => (id, s) :: match s.parent with
      | none => []
      | some outer => chainFrom ss fuel outer

/-- The scopes around a place, from the inside to the outside. A scope is opened
    after the one around it, so no chain is longer than there are scopes. -/
def chain (ss : Scopes) (id : Nat) : List (Nat × Scope) := ss.chainFrom ss.toArray.size id

/-- The first declaration of a name along a chain. The second argument tells
    whether a function boundary was crossed; beyond one, variables are not
    seen, and end the search. -/
def lookupIn (name : String) : Bool → List (Nat × Scope) → Option (Declaration × Symbol)
  | _, [] => none
  | crossed, (id, s) :: outer => match s.find? name with
    | some symbol => if crossed && symbol.isVariable then none else some (⟨id, name⟩, symbol)
    | none => lookupIn name (crossed || s.isFunction) outer

/-- The declaration that a name refers to at a place, with what it stands
    for. -/
def lookup (ss : Scopes) (id : Nat) (name : String) : Option (Declaration × Symbol) :=
  lookupIn name false (ss.chain id)

/-- Whether a name is declared in a scope or anywhere around it. -/
def taken (ss : Scopes) (id : Nat) (name : String) : Bool :=
  (ss.chain id).any fun (_, s) => (s.find? name).isSome

/-- How many variables a scope declares. -/
def variableCount (ss : Scopes) (id : Nat) : Nat :=
  match ss.get? id with
  | none => 0
  | some s => s.symbols.countP (·.2.isVariable)

/-- Whether a place lies inside a function. -/
def insideFunction (ss : Scopes) (id : Nat) : Bool :=
  (ss.chain id).any fun (_, s) => s.isFunction

end Scopes

end YulToolchain
