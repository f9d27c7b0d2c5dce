/-!
# Tokens

The words of the source language.

A token keeps the text it was read from and the line on which that text ends.
A place where no token can be read is an error token: it carries the fault and
no text, and reading goes on after it.

## Main definitions

* `Token`: A token with its kind, text and line.
* `LexicalFault`: Why no token can be read.
* `Token.contents`: What stands between the quotes of a string.
* `keyword?`: The keywords.
-/

namespace YulToolchain

/-- Why no token can be read at a place. -/
inductive LexicalFault where
  /-- No token starts with the character. -/
  | unexpectedCharacter
  /-- A number is followed by a letter. -/
  | badNumber
  /-- A string does not end on its line. -/
  | unterminatedString
  /-- A comment does not end. -/
  | unterminatedComment
deriving DecidableEq, Repr, Inhabited

/-- The wording of a lexical fault. -/
def LexicalFault.message : LexicalFault → String
  | unexpectedCharacter => "Unexpected character."
  | badNumber => "Invalid character in number literal."
  | unterminatedString => "Unterminated string."
  | unterminatedComment => "Unterminated comment."

/-- The kinds of tokens. -/
inductive TokenKind where
  | leftParen | rightParen | leftBrace | rightBrace
  | comma | colon | colonEqual | equalColon | rightArrow
  | identifier | string | hexString | number
  | letWord | functionWord | ifWord | switchWord | caseWord | defaultWord | forWord
  | breakWord | continueWord | trueWord | falseWord | objectWord | codeWord | dataWord
  /-- The end of the source. -/
  | endOfInput
  /-- A place where no token can be read. -/
  | fault (why : LexicalFault)
deriving DecidableEq, Repr, Inhabited

/-- A token of the source. -/
structure Token where
  /-- Its kind. -/
  kind : TokenKind
  /-- The text it was read from. -/
  text : String
  /-- The line its text ends on. -/
  line : Nat
deriving DecidableEq, Repr, Inhabited

namespace Token

/-- What is shown of a token: its text, or the wording of the fault. -/
def lexeme (t : Token) : String :=
  match t.kind with
  | .fault why => why.message
  | _ => t.text

/-- What stands between the quotes of a string: the text after the first quote
    and before the last character. -/
def contents (t : Token) : String :=
  String.ofList ((t.text.toList.dropWhile (· ≠ '"')).drop 1).dropLast

end Token

/-- The kind of the token that a word is, if it is a keyword. -/
def keyword? : String → Option TokenKind
  | "let" => some .letWord
  | "function" => some .functionWord
  | "if" => some .ifWord
  | "switch" => some .switchWord
  | "case" => some .caseWord
  | "default" => some .defaultWord
  | "for" => some .forWord
  | "break" => some .breakWord
  | "continue" => some .continueWord
  | "true" => some .trueWord
  | "false" => some .falseWord
  | "object" => some .objectWord
  | "code" => some .codeWord
  | "data" => some .dataWord
  | _ => none

end YulToolchain
