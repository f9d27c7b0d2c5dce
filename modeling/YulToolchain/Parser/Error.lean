import YulToolchain.Ast.Basic
import YulToolchain.Token

/-!
# Parse Errors

Why a source is no program. Reading stops at the first error.

Most errors complain about one token and show its text. The others are places
where no token can be read, calls of instructions that the dialect does not
offer, and data whose text is malformed.

## Main definitions

* `Complaint`: What is wrong with a token.
* `ParseError`: The errors.
* `ParseError.messages`: Their wording.
-/

namespace YulToolchain

/-- What is wrong with a token. -/
inductive Complaint where
  | expectedEnd
  | expectedObjectOrBlock
  | expectedObjectName
  | expectedObjectBrace
  | expectedCode
  | expectedAttachment
  | expectedDataName
  | badHexString
  | expectedDataLiteral
  | nestedTooDeep
  | expectedLeftBrace
  | expectedRightBrace
  | stackAssignmentNotLoose
  | labelNotLoose
  | expectedAssign
  | expectedParameters
  | expectedParametersEnd
  | literalExpected
  | switchWithoutCases
  | caseAfterDefault
  | expectedIdentifier
  | badStringLiteral
  | expectedExpression
  | expectedArguments
  | expectedArgumentsEnd
deriving DecidableEq, Repr, Inhabited

/-- The wording of a complaint. -/
def Complaint.message : Complaint → String
  | expectedEnd => "Expected end of input"
  | expectedObjectOrBlock => "Expected 'object' or '\x7b'"
  | expectedObjectName => "Expected object name"
  | expectedObjectBrace => "Expected '\x7b' after object name"
  | expectedCode => "Expected 'code'"
  | expectedAttachment => "Expected 'object', 'data' or '\x7d'"
  | expectedDataName => "Expected data name"
  | badHexString => "Invalid hex string"
  | expectedDataLiteral => "Expected data literal"
  | nestedTooDeep => "Nesting deeper than " ++ toString maxNesting
  | expectedLeftBrace => "Expected '\x7b'"
  | expectedRightBrace => "Expected '\x7d'"
  | stackAssignmentNotLoose => "Stack assignment only allowed in loose assembly"
  | labelNotLoose => "Label only allowed in loose assembly"
  | expectedAssign => "Expected ':='"
  | expectedParameters => "Expected '(' after function name"
  | expectedParametersEnd => "Expected ')' after parameters"
  | literalExpected => "Literal expected"
  | switchWithoutCases => "Switch statement without any cases"
  | caseAfterDefault => "Case not allowed after default case"
  | expectedIdentifier => "Expected identifier"
  | badStringLiteral => "String literal too long or malformed"
  | expectedExpression => "Literal or identifier expected"
  | expectedArguments => "Expected '('"
  | expectedArgumentsEnd => "Expected ')' after arguments"

/-- Why a source is no program. -/
inductive ParseError where
  /-- A token does not fit. -/
  | token (complaint : Complaint) (lexeme : String) (line : Nat)
  /-- No token can be read. -/
  | lexical (why : LexicalFault) (line : Nat)
  /-- An instruction is called that the dialect does not offer. -/
  | instruction (name : String) (line : Nat)
  /-- The text of some data is malformed. -/
  | data (why : LiteralFault)
deriving DecidableEq

namespace ParseError

/-- The wording of an error at a line. -/
def located (line : Nat) (message : String) : String :=
  "[line " ++ toString line ++ "] Parse error: " ++ message

/-- The wordings of a parse error, outermost first. -/
def messages : ParseError → List String
  | token complaint lexeme line => [located line (complaint.message ++ " at '" ++ lexeme ++ "'")]
  | lexical why line => [located line why.message]
  | instruction name line =>
    [located line ("Instruction \"" ++ name ++ "\" not allowed in this context")]
  | data why => why.messages

end ParseError

end YulToolchain
