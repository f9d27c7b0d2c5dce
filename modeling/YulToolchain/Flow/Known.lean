import YulToolchain.Metrics
import YulToolchain.Names.Occurrences
import YulToolchain.Table

/-!
# Known Values

What is known of the variables at one point of a program: for some of them, an
expression that has the same value.

A known value may read other variables. It is forgotten as soon as one of those
changes, so the reads of a known value always refer to what the variables hold
at the point itself. A value never reads the variable it is known for, nor,
through other known values, does it come back to it; following known values
from variable to variable therefore ends after at most as many steps as there
are known values.

## Main definitions

* `Known`: Known values by variable.
* `Known.learn`, `Known.forget`: Changing what is known.
* `Known.constant?`: The number an expression is known to have.
-/

namespace YulToolchain

/-- Known values by variable. -/
abbrev Known := Table String Expr

namespace Known

/-- Nothing is known. -/
def nothing : Known := Table.empty

/-- The known value of a variable. -/
def value? (k : Known) (name : String) : Option Expr := k.get? name

/-- Learns the value of a variable. -/
def learn (k : Known) (name : String) (value : Expr) : Known := k.insert name value

/-- Forgets some variables and every value that reads one of them. -/
def forget (k : Known) (names : List String) : Known :=
  k.filter fun name value => !(names.contains name || value.reads.any names.contains)

/-- The number an expression is known to have: it is a literal, or a variable
    that leads to one within a number of steps. -/
def constantWithin (k : Known) : Nat → Expr → Option Word
  | _, .literal l => l.value.toOption
  | steps + 1, .ident _ name => (k.value? name).bind (constantWithin k steps)
  | _, _ => none

/-- The number an expression is known to have. -/
def constant? (k : Known) (e : Expr) : Option Word := k.constantWithin k.entries.length e

/-- The combined size of all known values. -/
def size (k : Known) : Nat :=
  k.entries.foldr (fun (_, value) total => value.size + 1 + total) 0

end Known

end YulToolchain
