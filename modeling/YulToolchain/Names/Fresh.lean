import YulToolchain.Dialect
import YulToolchain.Names.Occurrences

/-!
# Fresh Names

A supply of names that are not used anywhere yet.

A request comes with a hint and is granted the hint itself if that is free.
Otherwise the supply tries the hint with a number behind it. The numbers are
shared by all requests and never go back, so no candidate is tried twice.

Among the candidates with different numbers only so many can be taken: those
used already, and the reserved ones, which are finitely many. That bounds the
search.

## Main definitions

* `NameSupply`: The names in use, and the last number tried.
* `NameSupply.next`: A fresh name after a hint.
-/

namespace YulToolchain

/-- The state of a supply of names. -/
structure NameSupply where
  /-- The dialect whose reserved names are avoided. -/
  dialect : Dialect
  /-- The names in use. -/
  used : List String
  /-- The last number tried. -/
  counter : Nat
deriving Repr, Inhabited

namespace NameSupply

/-- A supply that avoids some names. -/
def ofUsed (d : Dialect) (used : List String) : NameSupply := ⟨d, used, 0⟩

/-- A supply that avoids the names declared in some code. -/
def ofCode (d : Dialect) (code : Block) : NameSupply := ofUsed d code.declared

/-- Whether a name can not be handed out. -/
def unavailable (s : NameSupply) (name : String) : Bool :=
  name.isEmpty || s.used.contains name || s.dialect.reserved name

/-- A hint with a number behind it. -/
def candidate (hint : String) (n : Nat) : String := hint ++ "_" ++ toString n

/-- The first number after `n` whose candidate is available, within a number of
    tries. -/
def search (s : NameSupply) (hint : String) : Nat → Nat → Nat
  | 0, n => n + 1
  | tries + 1, n =>
    if s.unavailable (candidate hint (n + 1)) then search s hint tries (n + 1) else n + 1

/-- Marks a name as used. -/
def markUsed (s : NameSupply) (name : String) : NameSupply := { s with used := name :: s.used }

/-- How many candidates can be unavailable: the used names, and the names that
    any dialect reserves. -/
def tries (s : NameSupply) : Nat := s.used.length + Instruction.all.length + 3

/-- A fresh name: the hint if it is available, or else the hint with the next
    number that makes it so. The name is marked as used. -/
def next (s : NameSupply) (hint : String) : String × NameSupply :=
  if s.unavailable hint then
    let n := s.search hint s.tries s.counter
    let name := candidate hint n
    (name, { s with counter := n, used := name :: s.used })
  else (hint, s.markUsed hint)

end NameSupply

end YulToolchain
