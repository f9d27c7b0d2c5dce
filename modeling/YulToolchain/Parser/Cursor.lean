import YulToolchain.Parser.Error

/-!
# The Cursor over Tokens

The state of a reader of tokens: the tokens still to be read and the one read
last. An error token stops the reader as soon as it comes next, before anything
looks at it.

## Main definitions

* `Cursor`: The state of a reader.
* `Parse`: Readers.
* `Parse.advance`, `Parse.accept`, `Parse.consume`: Reading one token.
-/

namespace YulToolchain

/-- The state of a reader of tokens. -/
structure Cursor where
  /-- The token read last. -/
  previous : Token
  /-- The tokens to come. The end of the input stays the last of them. -/
  rest : List Token

/-- The token at the end of every source. -/
def endToken : Token := ⟨.endOfInput, "", 0⟩

namespace Cursor

/-- The next token. -/
def current (c : Cursor) : Token := c.rest.headD endToken

/-- A cursor whose next token can be read, or the fault of that token. -/
def checked (c : Cursor) : Except ParseError Cursor :=
  match c.current.kind with
  | .fault why => .error (.lexical why c.current.line)
  | _ => .ok c

/-- The cursor behind the next token. Nothing comes behind the end of the
    input. -/
def advance (c : Cursor) : Except ParseError Cursor :=
  match c.rest with
  | [] => .ok c
  | [t] => .ok ⟨t, [t]⟩
  | t :: rest => checked ⟨t, rest⟩

/-- The cursor at the start of some tokens. -/
def ofTokens (ts : List Token) : Except ParseError Cursor := checked ⟨endToken, ts⟩

end Cursor

/-- Readers of tokens. -/
abbrev Parse := StateT Cursor (Except ParseError)

namespace Parse

/-- The next token. -/
def current : Parse Token := do return (← get).current

/-- The token read last. -/
def previous : Parse Token := do return (← get).previous

/-- Fails with a complaint about a token. -/
def complain {α : Type} (t : Token) (complaint : Complaint) : Parse α :=
  throw (.token complaint t.lexeme t.line)

/-- Reads the next token. -/
def advance : Parse Token := do
  let c ← get
  let next ← c.advance
  set next
  return c.current

/-- Whether the next token is of a kind. -/
def check (kind : TokenKind) : Parse Bool := do return (← current).kind == kind

/-- Reads the next token if it is of a kind. -/
def accept (kind : TokenKind) : Parse Bool := do
  if ← check kind then
    let _ ← advance
    return true
  else return false

/-- Reads the next token, which has to be of a kind. -/
def consume (kind : TokenKind) (complaint : Complaint) : Parse Token := do
  let t ← current
  if t.kind == kind then advance else complain t complaint

/-- One level of nesting more, up to the limit. -/
def nest (depth : Nat) : Parse Nat := do
  if depth + 1 > maxNesting then complain (← current) .nestedTooDeep else return depth + 1

/-- Reads an identifier. -/
def identifier : Parse Identifier := do
  let t ← consume .identifier .expectedIdentifier
  return ⟨t.line, t.text⟩

/-- Reads a type after a colon, or nothing. -/
def optionalType : Parse String := do
  if ← accept .colon then return (← identifier).name else return ""

/-- Reads a name with its type. -/
def typedName : Parse TypedName := do
  let id ← identifier
  return ⟨id.line, id.name, ← optionalType⟩

end Parse

end YulToolchain
