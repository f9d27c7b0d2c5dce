import YulToolchain.Ast.Equal
import YulToolchain.Flow.Traversal

/-!
# Reusing Values

An expression is replaced by a variable that holds the same value already. A
variable that is known to be a copy of another is replaced by that other.
Literals stay, since reading a variable is never cheaper.

## Main definitions

* `Known.holder?`: A variable that holds the value of an expression.
* `Pass.reuse`: The pass.
-/

namespace YulToolchain

/-- The first variable known to hold the value of an expression. -/
def Known.holder? (k : Known) (e : Expr) : Option String :=
  (k.entries.find? fun (_, value) => value.same e).map (·.1)

namespace Pass

/-- Replaces an expression by a variable that holds its value. -/
def reuseExpr (known : Known) : Expr → Expr
  | .literal l => .literal l
  | .ident line name => match known.value? name with
    | some (.ident _ source) => .ident line source
    | _ => .ident line name
  | e => match known.holder? e with
    | some name => .ident e.line name
    | none => e

/-- The policy that reuses values. -/
def reusePolicy : Policy Unit :=
  { Policy.idle Unit with leave := fun known e s => (reuseExpr known e, s) }

/-- Replaces expressions by variables that hold their values. -/
def reuse (d : Dialect) (code : Block) : Block := (Flow.run d reusePolicy () code).1

end Pass

end YulToolchain
