import YulToolchain.Rule

/-!
# The Arithmetic Rules

The table of rules by which expressions are simplified. The first rule that
matches is the one that counts, so constant folding comes first.

## Main definitions

* `foldable`: The instructions that are folded.
* `arithmeticRules`: The rules in order.
* `Expr.findRule?`: The rule for an expression.
-/

namespace YulToolchain

/-- The instructions whose value is computed when all arguments are
    literals. -/
def foldable : List Instruction :=
  [.add, .mul, .sub, .div, .sdiv, .mod, .smod, .addmod, .mulmod, .exp, .signextend, .lt, .gt,
    .slt, .sgt, .eq, .iszero, .and, .or, .xor, .not, .byte, .shl, .shr, .sar]

namespace Rule

/-- The rule that folds an instruction. -/
def folding (i : Instruction) : Rule :=
  ⟨.op i ((['A', 'B', 'C'].take i.args).map .constant), .fold, false⟩

/-- An operand that may be anything. -/
def x : Pattern := .any 'X'

/-- An operand that is a number. -/
def n (k : Nat) : Pattern := .number (BitVec.ofNat 256 k)

/-- The operand with all bits set. -/
def ones : Pattern := .number (BitVec.allOnes 256)

/-- A match is replaced by its operand. -/
def keeps (i : Instruction) (args : List Pattern) : Rule := ⟨.op i args, .keep 'X', false⟩

/-- A match is replaced by a number, and the operand gets lost. -/
def absorbs (i : Instruction) (args : List Pattern) (k : Nat) : Rule :=
  ⟨.op i args, .number (BitVec.ofNat 256 k), true⟩

/-- A match is replaced by its operand, and the copy gets lost. -/
def merges (i : Instruction) : Rule := ⟨.op i [x, x], .keep 'X', true⟩

/-- Operands that change nothing. -/
def neutral : List Rule :=
  [keeps .add [x, n 0], keeps .add [n 0, x], keeps .sub [x, n 0], keeps .mul [x, n 1],
    keeps .mul [n 1, x], keeps .div [x, n 1], keeps .or [x, n 0], keeps .or [n 0, x],
    keeps .xor [x, n 0], keeps .xor [n 0, x], keeps .shl [n 0, x], keeps .shr [n 0, x],
    keeps .exp [x, n 1], keeps .and [x, ones], keeps .and [ones, x]]

/-- Operands that decide the value. -/
def absorbing : List Rule :=
  [absorbs .mul [x, n 0] 0, absorbs .mul [n 0, x] 0, absorbs .div [x, n 0] 0,
    absorbs .div [n 0, x] 0, absorbs .mod [x, n 0] 0, absorbs .mod [x, n 1] 0,
    absorbs .and [x, n 0] 0, absorbs .and [n 0, x] 0, absorbs .exp [x, n 0] 1]

/-- The same operand twice. -/
def repeated : List Rule :=
  [absorbs .sub [x, x] 0, absorbs .xor [x, x] 0, absorbs .lt [x, x] 0, absorbs .gt [x, x] 0,
    absorbs .slt [x, x] 0, absorbs .sgt [x, x] 0, absorbs .eq [x, x] 1, merges .and, merges .or]

/-- Negations that cancel. -/
def negations : List Rule :=
  [keeps .not [.op .not [x]],
    ⟨.op .iszero [.op .iszero [.op .iszero [x]]], .op .iszero [.keep 'X'], false⟩]

end Rule

/-- The rules in order. -/
def arithmeticRules : List Rule :=
  foldable.map Rule.folding ++ Rule.neutral ++ Rule.absorbing ++ Rule.repeated ++ Rule.negations

/-- The first rule that matches an expression, with its position and what its
    letters stand for. Only instructions are matched. -/
def Expr.findRule? (e : Expr) : Option (Nat × Rule × Bindings) :=
  match e with
  | .instr _ _ _ => firstMatch e 0 arithmeticRules
  | _ => none

end YulToolchain
