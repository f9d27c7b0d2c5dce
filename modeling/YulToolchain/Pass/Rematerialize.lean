import YulToolchain.Flow.Traversal

/-!
# Rematerialising Values

A read of a variable is replaced by the value that the variable is known to
hold.

A value is copied if the variable is referred to at most once, if the value is
free, or if it is cheap and the variable is referred to at most five times.
Values that are nested too deep stay behind their variable, so that chains of
copies can not grow expressions without bound. The numbers of references are
kept up to date: a copy takes away one reference to the variable and adds those
in the value.

## Main definitions

* `Pass.worthCopying`: Whether a value is copied.
* `Pass.rematerialize`: The pass.
-/

namespace YulToolchain

namespace Pass

/-- The most references to a variable whose cheap value is copied. -/
def maxCheapCopies : Nat := 5

/-- The highest cost of a cheap value. -/
def maxCheapCost : Nat := 2

/-- The depth from which on a value is not copied. -/
def maxCopiedDepth : Nat := maxNesting / 4

/-- Whether a read of a variable is replaced by its value, given the number of
    references to the variable. -/
def worthCopying (references : Nat) (value : Expr) : Bool :=
  value.depth < maxCopiedDepth &&
    (references ≤ 1 || value.cost == 0 ||
      (references ≤ maxCheapCopies && value.cost ≤ maxCheapCost))

/-- The numbers of references after a read of a variable was replaced by its
    value. -/
def countCopy (name : String) (value : Expr) (references : Table String Nat) :
    Table String Nat :=
  let fewer := match references.get? name with
    | some n => references.insert name (n - 1)
    | none => references
  value.references.foldl (fun t read => t.update read 0 (· + 1)) fewer

/-- Replaces a read of a variable by its value. -/
def rematerializeExpr (known : Known) (e : Expr) (references : Table String Nat) :
    Expr × Table String Nat :=
  match e with
  | .ident _ name => match known.value? name with
    | some value =>
      if worthCopying ((references.get? name).getD 0) value then
        (value, countCopy name value references)
      else (e, references)
    | none => (e, references)
  | _ => (e, references)

/-- The policy that replaces reads by values. Its state is the number of
    references to each name. -/
def rematerializePolicy : Policy (Table String Nat) :=
  { Policy.idle _ with enter := rematerializeExpr }

/-- Replaces reads of variables by their values. -/
def rematerialize (d : Dialect) (code : Block) : Block :=
  (Flow.run d rematerializePolicy (Table.tally code.references) code).1

end Pass

end YulToolchain
