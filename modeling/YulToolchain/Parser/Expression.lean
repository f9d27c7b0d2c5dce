import YulToolchain.Dialect
import YulToolchain.Parser.Cursor

/-!
# Reading Expressions

The grammar of expressions. Whether a call is an instruction is decided here,
by the dialect.

Reading recurses on a bound that the callers derive from the number of tokens;
every third step of the recursion reads a token, so the bound is never met.

## Main definitions

* `Parse.expression`: Reads an expression.
* `Parse.call`: Reads the arguments of a call.
* `resolveCall`: The node a call becomes.
-/

namespace YulToolchain

namespace Parse

/-- The node a call becomes: an instruction if the dialect offers one by that
    name, a function call otherwise. The instructions that a machine dialect
    does not offer can not be called. -/
def resolveCall (d : Dialect) (id : Identifier) (args : List Expr) : Except ParseError Expr :=
  match d.functionalInstruction? id.name with
  | some op => .ok (.instr id.line op args)
  | none =>
    if d.machine?.isSome && (d.builtin? id.name).isNone
        && (Instruction.ofMnemonic? id.name).isSome then
      .error (.instruction id.name id.line)
    else .ok (.call id.line id.name args)

/-- Reads a number or a truth value with its type. -/
def plainLiteral (kind : LiteralKind) : Parse Expr := do
  let t ← advance
  return .literal ⟨t.line, kind, t.text, ← optionalType⟩

/-- Reads a string with its type. It has to denote a word. -/
def stringLiteral : Parse Expr := do
  let t ← advance
  let l : Literal := ⟨t.line, .string, t.contents, ""⟩
  match l.stringBytes with
  | .ok bytes =>
    if bytes.length > 32 then complain t .badStringLiteral
    else return .literal { l with type := ← optionalType }
  | .error _ => complain t .badStringLiteral

mutual

/-- Reads an expression. -/
def expression (d : Dialect) : Nat → Nat → Parse Expr
  | 0, _ => do complain (← current) .nestedTooDeep
  | fuel + 1, depth => do
    let t ← current
    match t.kind with
    | .identifier =>
      let id ← identifier
      if ← check .leftParen then call d fuel depth id else return .ident id.line id.name
    | .number => plainLiteral .number
    | .trueWord => plainLiteral .boolean
    | .falseWord => plainLiteral .boolean
    | .string => stringLiteral
    | _ => complain t .expectedExpression

/-- Reads the arguments of a call, whose name was read already. -/
def call (d : Dialect) : Nat → Nat → Identifier → Parse Expr
  | 0, _, _ => do complain (← current) .nestedTooDeep
  | fuel + 1, depth, id => do
    let _ ← consume .leftParen .expectedArguments
    let depth ← nest depth
    let args ← if ← check .rightParen then pure [] else arguments d fuel depth
    let _ ← consume .rightParen .expectedArgumentsEnd
    resolveCall d id args

/-- Reads one or more arguments. -/
def arguments (d : Dialect) : Nat → Nat → Parse (List Expr)
  | 0, _ => do complain (← current) .nestedTooDeep
  | fuel + 1, depth => do
    let e ← expression d fuel depth
    if ← accept .comma then return e :: (← arguments d fuel depth) else return [e]

end

end Parse

end YulToolchain
