import YulToolchain.Failure
import YulToolchain.Pass.Declarations
import YulToolchain.Pass.LoopCondition
import YulToolchain.Pass.LoopInit
import YulToolchain.Pass.Rematerialize
import YulToolchain.Pass.Rename
import YulToolchain.Pass.Reuse
import YulToolchain.Pass.Simplify
import YulToolchain.Pass.Structure
import YulToolchain.Text.Blank

/-!
# Sequences of Steps

The steps of an optimisation by name, and their application in sequence.

Before the first step all names are made unique, which most steps rely on.
After the last one the result has to be well formed; if it is not, a step is to
blame.

## Main definitions

* `Step`: The steps.
* `Step.run`: What a step does.
* `Step.ofText`: A sequence of steps from text.
* `Step.defaultSequence`: The sequence used when none is given.
* `optimizeCode`: Applies a sequence to a program.
-/

namespace YulToolchain

/-- The steps of an optimisation. Each one applies a pass. -/
inductive Step where
  | flatten
  | initializeVars
  | hoistLoopInit
  | moveLoopCondition
  | rematerialize
  | reuse
  | simplify
  | simplifyStructure
deriving DecidableEq, Repr, Inhabited

namespace Step

/-- All steps. -/
def all : List Step :=
  [flatten, initializeVars, hoistLoopInit, moveLoopCondition,
    rematerialize, reuse, simplify, simplifyStructure]

/-- The name of a step. -/
def name : Step → String
  | flatten => "BlockFlattener"
  | initializeVars => "VarDeclInitializer"
  | hoistLoopInit => "ForLoopInitRewriter"
  | moveLoopCondition => "ForLoopConditionIntoBody"
  | rematerialize => "Rematerialiser"
  | reuse => "CommonSubexpressionEliminator"
  | simplify => "ExpressionSimplifier"
  | simplifyStructure => "StructuralSimplifier"

/-- The step with a name. -/
def ofName? (text : String) : Option Step := all.find? fun s => s.name == text

/-- What a step does to a program. -/
def run (d : Dialect) : Step → Block → Block
  | flatten => Pass.flatten
  | initializeVars => Pass.initializeVars
  | hoistLoopInit => Pass.hoistLoopInit
  | moveLoopCondition => Pass.moveLoopCondition
  | rematerialize => Pass.rematerialize d
  | reuse => Pass.reuse d
  | simplify => Pass.simplify d
  | simplifyStructure => Pass.simplifyStructure d

/-- Applies steps one after the other. -/
def runAll (d : Dialect) (steps : List Step) (code : Block) : Block :=
  steps.foldl (fun code s => s.run d code) code

/-- The parts of a text between commas. -/
def splitCommas (cs : List Char) : List (List Char) := cs.splitOn ','

/-- A sequence of steps from their names between commas. Blanks around a name
    are dropped, and so are names that are blank altogether. -/
def ofText (text : String) : Except Cause (List Step) :=
  let names := ((splitCommas text.toList).map Text.trimmed).filter (!·.isEmpty)
  names.mapM fun cs => match ofName? (String.ofList cs) with
    | some s => .ok s
    | none => .error (.unknownStep (String.ofList cs))

/-- The sequence used when none is given. -/
def defaultSequence : List Step :=
  [initializeVars, flatten, hoistLoopInit, flatten, simplifyStructure,
    flatten, simplify, reuse, rematerialize,
    simplifyStructure, flatten, simplify, reuse,
    simplifyStructure, flatten]

end Step

/-- Makes the names of a program unique and applies a sequence of steps to it.
    The names in `external` keep their spelling. -/
def optimizeCode (d : Dialect) (external : List String) (steps : List Step) (code : Block) :
    Except Failure Block := do
  let ss ← within "Analysing optimiser input" (orFail .analysis (analyze d code))
  let unique ← orFail .internal (makeNamesUnique d ss external code)
  let result := Step.runAll d steps unique
  match analyze d result with
  | .ok _ => return result
  | .error e => throw (.of (.internal ⟨result.line, .resultIllFormed e⟩))

end YulToolchain
