import YulToolchain.Ast.Equal
import YulToolchain.Machine.Evaluate

/-!
# Simplification Rules

Patterns over instructions, and what takes the place of a match.

Letters name sub-expressions. A letter that occurs twice in a pattern has to
match the same expression both times, up to lines and the spelling of numbers;
the first of the two is the one that is kept.

## Main definitions

* `Pattern`, `Action`, `Rule`: Rules as data.
* `Pattern.match?`: Matching, with the expressions the letters stand for.
* `Action.build?`: The replacement of a match.
* `firstMatch`: The first rule of a list that matches.
-/

namespace YulToolchain

/-- A pattern for expressions. -/
inductive Pattern where
  /-- Any expression, named by a letter. -/
  | any (letter : Char)
  /-- Any literal, named by a letter. -/
  | constant (letter : Char)
  /-- A literal with a value. -/
  | number (w : Word)
  /-- An instruction whose arguments match. -/
  | op (i : Instruction) (args : List Pattern)
deriving Repr, Inhabited

/-- How a replacement is built. -/
inductive Action where
  /-- The expression that a letter stands for. -/
  | keep (letter : Char)
  /-- A number. -/
  | number (w : Word)
  /-- The value of the matched instruction, whose arguments are literals. -/
  | fold
  /-- An instruction with built arguments. -/
  | op (i : Instruction) (args : List Action)
deriving Repr, Inhabited

/-- A simplification rule. -/
structure Rule where
  /-- What it matches. -/
  pattern : Pattern
  /-- What it puts in place of a match. -/
  action : Action
  /-- Whether an operand that is no literal gets lost. Then the rule may only be
      applied to movable expressions. -/
  dropsOperand : Bool
deriving Repr, Inhabited

/-- The expressions that letters stand for. -/
abbrev Bindings := List (Char × Expr)

namespace Bindings

/-- Lets a letter stand for an expression. It may stand for the same expression
    already. -/
def bind? (letter : Char) (e : Expr) (bs : Bindings) : Option Bindings :=
  match bs.lookup letter with
  | some bound => if bound.same e then some bs else none
  | none => some (bs ++ [(letter, e)])

end Bindings

mutual

/-- Matches an expression, extending what the letters stand for. -/
def Pattern.match? : Pattern → Expr → Bindings → Option Bindings
  | .any letter, e, bs => bs.bind? letter e
  | .constant letter, .literal l, bs => bs.bind? letter (.literal l)
  | .number w, .literal l, bs => match l.value with
    | .ok v => if v = w then some bs else none
    | .error _ => none
  | .op i ps, .instr _ j args, bs => if i = j then Pattern.matchAll? ps args bs else none
  | _, _, _ => none

/-- Matches arguments one by one. -/
def Pattern.matchAll? : List Pattern → List Expr → Bindings → Option Bindings
  | [], [], bs => some bs
  | p :: ps, e :: es, bs => (p.match? e bs).bind (Pattern.matchAll? ps es)
  | _, _, _ => none

end

/-- The value of an expression that is a literal. -/
def Expr.literalValue? : Expr → Option Word
  | .literal l => l.value.toOption
  | _ => none

/-- The value of an instruction whose arguments are literals, as a literal. -/
def Expr.fold? : Expr → Option Expr
  | .instr line i args => do
    let values ← args.mapM Expr.literalValue?
    return Expr.number line (← i.evaluate values)
  | _ => none

mutual

/-- The replacement of a matched expression. There is none when a letter is
    unknown or a value can not be computed. -/
def Action.build? (matched : Expr) (bs : Bindings) : Action → Option Expr
  | .keep letter => bs.lookup letter
  | .number w => some (.number matched.line w)
  | .fold => matched.fold?
  | .op i args => (Action.buildAll? matched bs args).map (.instr matched.line i)

/-- The replacements for some arguments. -/
def Action.buildAll? (matched : Expr) (bs : Bindings) : List Action → Option (List Expr)
  | [] => some []
  | a :: rest => do
    let e ← a.build? matched bs
    return e :: (← Action.buildAll? matched bs rest)

end

/-- The first rule of a list that matches an expression, with its position,
    counted from `index`. -/
def firstMatch (e : Expr) : Nat → List Rule → Option (Nat × Rule × Bindings)
  | _, [] => none
  | index, r :: rest => match r.pattern.match? e [] with
    | some bs => some (index, r, bs)
    | none => firstMatch e (index + 1) rest

end YulToolchain
