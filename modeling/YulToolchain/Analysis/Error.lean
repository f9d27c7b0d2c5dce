import YulToolchain.Ast.Literal

/-!
# Analysis Errors

Why a program is not well formed. The first violation found is reported, with
the line of the offending node.

## Main definitions

* `AnalysisFault`: The violations.
* `AnalysisError`: A violation at a line.
-/

namespace YulToolchain

/-- The ways in which a program can be ill-formed. -/
inductive AnalysisFault where
  /-- A reserved name is declared. -/
  | reservedName (name : String)
  /-- A name is declared where it is taken already. -/
  | alreadyDeclared (name : String)
  /-- An expression statement leaves values. -/
  | valuesLeft (count : Nat)
  /-- A loop is to be left where there is none. -/
  | outsideLoop
  /-- Two cases of a switch have one value. -/
  | duplicateCase
  /-- An assignment to something that is no variable. -/
  | notAVariable (name : String)
  /-- An assignment to an unknown name. -/
  | unknownVariable (name : String)
  /-- An expression has the wrong number of values. -/
  | wrongValueCount (expected actual : Nat)
  /-- A literal denotes nothing. -/
  | badLiteral (why : LiteralFault)
  /-- A function is used as a value. -/
  | uncalledFunction (name : String)
  /-- A value is read from an unknown name. -/
  | unknownName (name : String)
  /-- A call has the wrong number of arguments. -/
  | wrongArgumentCount (expected actual : Nat)
  /-- A builtin that takes literals has the wrong number of them. -/
  | wrongLiteralCount (expected : Nat)
  /-- A builtin that takes literals is given something else. -/
  | literalExpected
  /-- Something that is no function is called. -/
  | notAFunction (name : String)
  /-- An unknown function is called. -/
  | unknownFunction (name : String)
deriving DecidableEq

/-- The wording of a violation. -/
def AnalysisFault.message : AnalysisFault → String
  | reservedName name => "Cannot use builtin name \"" ++ name ++ "\" as identifier"
  | alreadyDeclared name => "Identifier \"" ++ name ++ "\" already declared"
  | valuesLeft count =>
    "Top-level expressions are not supposed to return values (this expression returns "
      ++ toString count ++ " values). Use ``pop()`` or assign them."
  | outsideLoop => "Keyword \"break\" or \"continue\" needs to be inside a for-loop body"
  | duplicateCase => "Duplicate case defined"
  | notAVariable name => "Assignment requires variable, \"" ++ name ++ "\" is not one"
  | unknownVariable name => "Variable not found or variable not lvalue: \"" ++ name ++ "\""
  | wrongValueCount expected actual =>
    "Expected expression to return " ++ toString expected
      ++ " item(s) to the stack, but it returns " ++ toString actual
  | badLiteral why => why.message
  | uncalledFunction name => "Function \"" ++ name ++ "\" used without being called"
  | unknownName name => "Identifier not found: \"" ++ name ++ "\""
  | wrongArgumentCount expected actual =>
    "Function expects " ++ toString expected ++ " arguments but got " ++ toString actual
  | wrongLiteralCount expected => "Function expects " ++ toString expected ++ " arguments"
  | literalExpected => "Function expects direct literals as arguments"
  | notAFunction name => "Attempt to call variable instead of function: \"" ++ name ++ "\""
  | unknownFunction name => "Function not found: \"" ++ name ++ "\""

/-- A violation with the line it was found on. -/
structure AnalysisError where
  /-- The line. -/
  line : Nat
  /-- The violation. -/
  fault : AnalysisFault
deriving DecidableEq

/-- The wording of an error. -/
def AnalysisError.message (e : AnalysisError) : String :=
  "[line " ++ toString e.line ++ "] Analysis error: " ++ e.fault.message

end YulToolchain
