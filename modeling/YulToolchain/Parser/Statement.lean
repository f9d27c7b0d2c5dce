import YulToolchain.Parser.Expression
import YulToolchain.Token.Lexer

/-!
# Reading Statements

The grammar of statements and blocks. As for expressions, the recursion is
bounded by a number derived from the number of tokens.

## Main definitions

* `Parse.statement`: Reads a statement.
* `Parse.block`: Reads a block.
* `parseBlock`: Reads a source that is one block.
-/

namespace YulToolchain

namespace Parse

/-- Reads further names after commas. -/
def moreTypedNames : Nat → Parse (List TypedName)
  | 0 => return []
  | fuel + 1 => do
    if ← accept .comma then
      let v ← typedName
      return v :: (← moreTypedNames fuel)
    else return []

/-- Reads one or more names with their types. -/
def typedNames (fuel : Nat) : Parse (List TypedName) := do
  let v ← typedName
  return v :: (← moreTypedNames fuel)

/-- Reads further identifiers after commas. -/
def moreIdentifiers : Nat → Parse (List Identifier)
  | 0 => return []
  | fuel + 1 => do
    if ← accept .comma then
      let id ← identifier
      return id :: (← moreIdentifiers fuel)
    else return []

/-- Fails unless the dialect is loose. -/
def requireLoose (d : Dialect) (complaint : Complaint) : Parse Unit := do
  if d.flavour = .loose then return () else complain (← current) complaint

/-- Reads a declaration. -/
def declaration (d : Dialect) (fuel depth : Nat) : Parse Stmt := do
  let t ← advance
  let vars ← typedNames fuel
  if ← accept .colonEqual then
    return .decl t.line vars (some (← expression d fuel depth))
  else return .decl t.line vars none

/-- Reads a stack assignment. -/
def stackAssignment (d : Dialect) : Parse Stmt := do
  requireLoose d .stackAssignmentNotLoose
  let t ← advance
  return .stackAssign t.line (← identifier)

/-- Reads a statement that starts with an identifier: a call, an assignment, a
    label, or a lone name. -/
def identifierStatement (d : Dialect) (fuel depth : Nat) : Parse Stmt := do
  let first ← identifier
  match (← current).kind with
  | .leftParen => return .expr first.line (← call d fuel depth first)
  | .comma | .colonEqual =>
    let targets := first :: (← moreIdentifiers fuel)
    let _ ← consume .colonEqual .expectedAssign
    return .assign first.line targets (← expression d fuel depth)
  | .colon =>
    requireLoose d .labelNotLoose
    let _ ← advance
    return .label first.line first.name
  | _ => return .expr first.line (.ident first.line first.name)

/-- Reads the head of a function definition up to its body. -/
def functionHead (fuel : Nat) : Parse (Nat × String × List TypedName × List TypedName) := do
  let t ← advance
  let id ← identifier
  let _ ← consume .leftParen .expectedParameters
  let params ← if ← check .rightParen then pure [] else typedNames fuel
  let _ ← consume .rightParen .expectedParametersEnd
  let returns ← if ← accept .rightArrow then typedNames fuel else pure []
  return (t.line, id.name, params, returns)

/-- Reads the value of a case. -/
def caseValue (d : Dialect) (fuel depth : Nat) : Parse Literal := do
  match ← expression d fuel depth with
  | .literal l => return l
  | _ => complain (← previous) .literalExpected

/-- Checks the end of a switch: it has a case, and none follows its default. -/
def checkCases (cases : List Case) : Parse Unit := do
  let t ← current
  if cases.isEmpty then complain t .switchWithoutCases
  else if t.kind = .caseWord ∨ t.kind = .defaultWord then complain t .caseAfterDefault
  else return ()

mutual

/-- Reads a block. -/
def block (d : Dialect) : Nat → Nat → Parse Block
  | 0, _ => do complain (← current) .nestedTooDeep
  | fuel + 1, depth => do
    let t ← consume .leftBrace .expectedLeftBrace
    let depth ← nest depth
    return ⟨t.line, ← statements d fuel depth⟩

/-- Reads the statements of a block and its closing brace. -/
def statements (d : Dialect) : Nat → Nat → Parse (List Stmt)
  | 0, _ => do complain (← current) .nestedTooDeep
  | fuel + 1, depth => do
    if ← accept .rightBrace then return []
    else if ← check .endOfInput then complain (← current) .expectedRightBrace
    else
      let s ← statement d fuel depth
      return s :: (← statements d fuel depth)

/-- Reads a statement. -/
def statement (d : Dialect) : Nat → Nat → Parse Stmt
  | 0, _ => do complain (← current) .nestedTooDeep
  | fuel + 1, depth => do
    let t ← current
    match t.kind with
    | .leftBrace => return .block (← block d fuel depth)
    | .functionWord =>
      let (line, name, params, returns) ← functionHead fuel
      return .func line name params returns (← block d fuel depth)
    | .letWord => declaration d fuel depth
    | .ifWord =>
      let t ← advance
      let test ← expression d fuel depth
      return .cond t.line test (← block d fuel depth)
    | .switchWord =>
      let t ← advance
      let subject ← expression d fuel depth
      let cases ← cases d fuel depth
      checkCases cases
      return .switch t.line subject cases
    | .forWord =>
      let t ← advance
      let pre ← block d fuel depth
      let test ← expression d fuel depth
      let post ← block d fuel depth
      return .loop t.line pre test post (← block d fuel depth)
    | .breakWord => return .brk (← advance).line
    | .continueWord => return .cont (← advance).line
    | .equalColon => stackAssignment d
    | .identifier => identifierStatement d fuel depth
    | _ => return .expr t.line (← expression d fuel depth)

/-- Reads the cases of a switch. The default comes last. -/
def cases (d : Dialect) : Nat → Nat → Parse (List Case)
  | 0, _ => do complain (← current) .nestedTooDeep
  | fuel + 1, depth => do
    let t ← current
    if ← accept .caseWord then
      let value ← caseValue d fuel depth
      let body ← block d fuel depth
      return ⟨t.line, some value, body⟩ :: (← cases d fuel depth)
    else if ← accept .defaultWord then
      return [⟨t.line, none, ← block d fuel depth⟩]
    else return []

end

/-- The bound of the recursion for a number of tokens. -/
def fuelFor (count : Nat) : Nat := 4 * (count + 2)

end Parse

/-- Reads a source that is one block. -/
def parseBlock (d : Dialect) (source : String) : Except ParseError Block := do
  let ts := tokens source
  let start ← Cursor.ofTokens ts
  let reader : Parse Block := do
    let b ← Parse.block d (Parse.fuelFor ts.length) 0
    let _ ← Parse.consume .endOfInput .expectedEnd
    return b
  (·.1) <$> reader.run start

end YulToolchain
