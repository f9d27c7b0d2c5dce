import YulToolchain.Text.Bytes
import YulToolchain.Token

/-!
# Reading Tokens

The cursor over the source and the token that starts at it.

The source is a list of characters of which the lexer keeps the unread part. A
character outside ASCII can stand in strings and comments only; anywhere else
it is reported once for every byte of its encoding, so the lexer also counts
how many bytes of the first unread character it has reported.

A backslash in a string hides the character after it. If there is none, the
cursor ends up behind the end of the source, where no token can be cut out any
more, not even the one for the end of the input. `overrun` records this, and
`scan` has no answer then.

## Main definitions

* `skipGap`: What is left after blanks and comments.
* `Lexer.scan`: The next token.
* `tokens`: All tokens of a source.
-/

namespace YulToolchain

/-- Whether a character can start an identifier. -/
def isIdentifierStart (c : Char) : Bool := c.isAlpha || c == '_' || c == '$'

/-- Whether a character can continue an identifier. -/
def isIdentifierPart (c : Char) : Bool := isIdentifierStart c || c.isDigit || c == '.'

/-- Whether a character is a hexadecimal digit. -/
def isHexDigit (c : Char) : Bool :=
  c.isDigit || ('a' ≤ c && c ≤ 'f') || ('A' ≤ c && c ≤ 'F')

/-- Where the reader of a gap stands: between comments, or inside one of the
    two kinds. -/
inductive GapState where
  | between
  | lineComment
  | blockComment
deriving DecidableEq

/-- What remains of the source behind a gap. -/
structure Gap where
  /-- The unread characters. -/
  rest : List Char
  /-- The line reached. -/
  line : Nat
  /-- Whether a block comment was left open. -/
  unterminated : Bool
deriving DecidableEq

/-- Reads past blanks, line ends and comments, and counts the line ends. A line
    comment ends before its line end. -/
def skipGap : GapState → Nat → List Char → Gap
  | .between, line, ' ' :: rest => skipGap .between line rest
  | .between, line, '\r' :: rest => skipGap .between line rest
  | .between, line, '\t' :: rest => skipGap .between line rest
  | .between, line, '\n' :: rest => skipGap .between (line + 1) rest
  | .between, line, '/' :: '/' :: rest => skipGap .lineComment line rest
  | .between, line, '/' :: '*' :: rest => skipGap .blockComment line rest
  | .between, line, rest => ⟨rest, line, false⟩
  | .lineComment, line, [] => ⟨[], line, false⟩
  | .lineComment, line, '\n' :: rest => skipGap .between (line + 1) rest
  | .lineComment, line, _ :: rest => skipGap .lineComment line rest
  | .blockComment, line, [] => ⟨[], line, true⟩
  | .blockComment, line, '*' :: '/' :: rest => skipGap .between line rest
  | .blockComment, line, '\n' :: rest => skipGap .blockComment (line + 1) rest
  | .blockComment, line, _ :: rest => skipGap .blockComment line rest

/-- How the reading of a string ends. -/
inductive StringEnd where
  /-- At its closing quote: the characters of the string with the quote, and
      what follows. -/
  | closed (text rest : List Char)
  /-- At a line end, which is not read. -/
  | newline (rest : List Char)
  /-- At the end of the source. -/
  | endOfInput
  /-- Behind the end of the source, after a backslash. -/
  | overrun
deriving DecidableEq

/-- Adds a character to the front of a string that was read to its quote. -/
def StringEnd.cons (c : Char) : StringEnd → StringEnd
  | closed text rest => closed (c :: text) rest
  | other => other

/-- Reads a string after its opening quote. A backslash hides the character
    after it, whatever that is. -/
def scanString : List Char → StringEnd
  | [] => .endOfInput
  | '"' :: rest => .closed ['"'] rest
  | '\n' :: rest => .newline ('\n' :: rest)
  | ['\\'] => .overrun
  | '\\' :: c :: rest => ((scanString rest).cons c).cons '\\'
  | c :: rest => (scanString rest).cons c

/-- The state of the lexer. -/
structure Lexer where
  /-- The unread characters. -/
  rest : List Char
  /-- How many bytes of the first unread character were reported already. -/
  reported : Nat
  /-- Whether the cursor lies behind the end of the source. -/
  overrun : Bool
  /-- The current line. -/
  line : Nat
deriving DecidableEq

namespace Lexer

/-- The lexer at the start of a source. -/
def ofChars (source : List Char) : Lexer := ⟨source, 0, false, 1⟩

/-- The lexer at the start of some unread characters. -/
def reading (rest : List Char) (line : Nat) : Lexer := ⟨rest, 0, false, line⟩

/-- Reports one byte of the first unread character and moves past it. -/
def reportByte (lx : Lexer) : Lexer :=
  match lx.rest with
  | [] => lx
  | c :: rest =>
    if lx.reported + 1 < c.utf8Size then { lx with reported := lx.reported + 1 }
    else { lx with rest, reported := 0 }

/-- The token of a string or hex string. `opening` is what was read up to and
    including the opening quote. -/
def stringToken (kind : TokenKind) (opening rest : List Char) (line : Nat) : Token × Lexer :=
  match scanString rest with
  | .closed text rest => (⟨kind, String.ofList (opening ++ text), line⟩, .reading rest line)
  | .newline rest => (⟨.fault .unterminatedString, "", line⟩, .reading rest line)
  | .endOfInput => (⟨.fault .unterminatedString, "", line⟩, .reading [] line)
  | .overrun => (⟨.fault .unterminatedString, "", line⟩, ⟨[], 0, true, line⟩)

/-- The token of a word. A word is a keyword, the mark of a hex string if a
    quote follows it, or an identifier. -/
def wordToken (cs : List Char) (line : Nat) : Token × Lexer :=
  let word := cs.takeWhile isIdentifierPart
  let rest := cs.dropWhile isIdentifierPart
  match word == "hex".toList, rest with
  | true, '"' :: rest => stringToken .hexString (word ++ ['"']) rest line
  | _, _ =>
    let text := String.ofList word
    (⟨(keyword? text).getD .identifier, text, line⟩, .reading rest line)

/-- The digits of a number at the start of some characters, and what follows
    them. -/
def splitNumber : List Char → List Char × List Char
  | '0' :: 'x' :: rest => ('0' :: 'x' :: rest.takeWhile isHexDigit, rest.dropWhile isHexDigit)
  | cs => (cs.takeWhile Char.isDigit, cs.dropWhile Char.isDigit)

/-- The token of a number. A letter right behind the digits is a fault. -/
def numberToken (cs : List Char) (line : Nat) : Token × Lexer :=
  let (digits, rest) := splitNumber cs
  if rest.head?.any isIdentifierPart then (⟨.fault .badNumber, "", line⟩, .reading rest line)
  else (⟨.number, String.ofList digits, line⟩, .reading rest line)

/-- The punctuation mark at the start of some characters, with what follows
    it. -/
def mark? : List Char → Option (TokenKind × String × List Char)
  | '(' :: rest => some (.leftParen, "(", rest)
  | ')' :: rest => some (.rightParen, ")", rest)
  | '\x7b' :: rest => some (.leftBrace, "\x7b", rest)
  | '\x7d' :: rest => some (.rightBrace, "\x7d", rest)
  | ',' :: rest => some (.comma, ",", rest)
  | '-' :: '>' :: rest => some (.rightArrow, "->", rest)
  | ':' :: '=' :: rest => some (.colonEqual, ":=", rest)
  | ':' :: rest => some (.colon, ":", rest)
  | '=' :: ':' :: rest => some (.equalColon, "=:", rest)
  | _ => none

/-- The token that starts at the cursor, which stands on no blank. -/
def tokenAt (lx : Lexer) : Token × Lexer :=
  match lx.rest with
  | [] => (⟨.endOfInput, "", lx.line⟩, lx)
  | c :: rest =>
    -- The rest of a character outside ASCII is reported byte by byte.
    if lx.reported > 0 then (⟨.fault .unexpectedCharacter, "", lx.line⟩, lx.reportByte)
    else if isIdentifierStart c then wordToken (c :: rest) lx.line
    else if c.isDigit then numberToken (c :: rest) lx.line
    else if c = '"' then stringToken .string ['"'] rest lx.line
    else match mark? (c :: rest) with
      | some (kind, text, rest) => (⟨kind, text, lx.line⟩, .reading rest lx.line)
      | none => (⟨.fault .unexpectedCharacter, "", lx.line⟩, lx.reportByte)

/-- The next token and the lexer behind it. There is none once the cursor lies
    behind the end of the source. -/
def scan (lx : Lexer) : Option (Token × Lexer) :=
  if lx.overrun then none
  else if lx.reported > 0 then some lx.tokenAt
  else
    let gap := skipGap .between lx.line lx.rest
    if gap.unterminated then
      some (⟨.fault .unterminatedComment, "", gap.line⟩, .reading gap.rest gap.line)
    else some (Lexer.reading gap.rest gap.line).tokenAt

/-- The tokens from a cursor on, up to the one for the end of the input. The
    first argument bounds their number. -/
def scanAll : Nat → Lexer → List Token
  | 0, _ => []
  | fuel + 1, lx => match lx.scan with
    | none => []
    | some (t, next) => if t.kind = .endOfInput then [t] else t :: scanAll fuel next

end Lexer

/-- All tokens of a source up to the one for the end of the input. Every token
    but that one moves the cursor past at least one byte. -/
def tokens (source : String) : List Token :=
  Lexer.scanAll (source.utf8ByteSize + 1) (Lexer.ofChars source.toList)

end YulToolchain
