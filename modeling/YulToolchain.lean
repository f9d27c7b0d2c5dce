import YulToolchain.Analysis
import YulToolchain.Analysis.Error
import YulToolchain.Assembly
import YulToolchain.Assembly.Disassembly
import YulToolchain.Assembly.Item
import YulToolchain.Assembly.Target
import YulToolchain.Ast.Basic
import YulToolchain.Ast.BottomUp
import YulToolchain.Ast.Equal
import YulToolchain.Ast.Literal
import YulToolchain.Ast.Print
import YulToolchain.CodeGen.Expression
import YulToolchain.CodeGen.Frame
import YulToolchain.CodeGen.Gen
import YulToolchain.CodeGen.Object
import YulToolchain.CodeGen.Statement
import YulToolchain.CommandLine
import YulToolchain.CommandLine.Options
import YulToolchain.Dialect
import YulToolchain.Effects
import YulToolchain.Execution.Environment
import YulToolchain.Execution.Halt
import YulToolchain.Execution.Interpreter
import YulToolchain.Execution.MachineState
import YulToolchain.Execution.Operation
import YulToolchain.Failure
import YulToolchain.Flow.Known
import YulToolchain.Flow.Record
import YulToolchain.Flow.Traversal
import YulToolchain.Hash.Keccak
import YulToolchain.Internal
import YulToolchain.Machine.Evaluate
import YulToolchain.Machine.Instruction
import YulToolchain.Main
import YulToolchain.Metrics
import YulToolchain.Names.Fresh
import YulToolchain.Names.Occurrences
import YulToolchain.Object
import YulToolchain.Parser.Cursor
import YulToolchain.Parser.Error
import YulToolchain.Parser.Expression
import YulToolchain.Parser.Object
import YulToolchain.Parser.Statement
import YulToolchain.Pass.Declarations
import YulToolchain.Pass.Flatten
import YulToolchain.Pass.LoopCondition
import YulToolchain.Pass.LoopInit
import YulToolchain.Pass.Rematerialize
import YulToolchain.Pass.Rename
import YulToolchain.Pass.Reuse
import YulToolchain.Pass.Sequence
import YulToolchain.Pass.Simplify
import YulToolchain.Pass.Structure
import YulToolchain.Pipeline
import YulToolchain.Proofs.Assembly.Decoding
import YulToolchain.Proofs.Assembly.Distinct
import YulToolchain.Proofs.Assembly.Embedding
import YulToolchain.Proofs.Assembly.Jumps
import YulToolchain.Proofs.Assembly.Layout
import YulToolchain.Proofs.Assembly.Listing
import YulToolchain.Proofs.Assembly.Naming
import YulToolchain.Proofs.Bytecode.Agreement
import YulToolchain.Proofs.Bytecode.Assignment
import YulToolchain.Proofs.Bytecode.Coded
import YulToolchain.Proofs.Bytecode.Confinement
import YulToolchain.Proofs.Bytecode.Emission
import YulToolchain.Proofs.Bytecode.Items
import YulToolchain.Proofs.Bytecode.Lowering
import YulToolchain.Proofs.Bytecode.Machine
import YulToolchain.Proofs.Bytecode.Mirror
import YulToolchain.Proofs.Bytecode.Pieces
import YulToolchain.Proofs.Bytecode.Runs
import YulToolchain.Proofs.Bytecode.Simulation
import YulToolchain.Proofs.CodeGen.Abreast
import YulToolchain.Proofs.CodeGen.Accounts
import YulToolchain.Proofs.CodeGen.Attribution
import YulToolchain.Proofs.CodeGen.Balance
import YulToolchain.Proofs.CodeGen.Bond
import YulToolchain.Proofs.CodeGen.DryRun
import YulToolchain.Proofs.CodeGen.Frame
import YulToolchain.Proofs.CodeGen.Growth
import YulToolchain.Proofs.CodeGen.Height
import YulToolchain.Proofs.CodeGen.Labels
import YulToolchain.Proofs.CodeGen.Ledger
import YulToolchain.Proofs.CodeGen.Modularity
import YulToolchain.Proofs.CodeGen.Relabelled
import YulToolchain.Proofs.Execution.Calls
import YulToolchain.Proofs.Execution.Derivation
import YulToolchain.Proofs.Execution.Dispatch
import YulToolchain.Proofs.Execution.Environment
import YulToolchain.Proofs.Execution.Extension
import YulToolchain.Proofs.Execution.Frames
import YulToolchain.Proofs.Execution.Leaving
import YulToolchain.Proofs.Execution.Lexical
import YulToolchain.Proofs.Execution.Metering
import YulToolchain.Proofs.Execution.Operation
import YulToolchain.Proofs.Execution.Outcome
import YulToolchain.Proofs.Execution.Reachable
import YulToolchain.Proofs.Execution.Routine
import YulToolchain.Proofs.Execution.Safety
import YulToolchain.Proofs.Execution.Soundness
import YulToolchain.Proofs.Execution.Watch
import YulToolchain.Proofs.Flow.Course
import YulToolchain.Proofs.Flow.Hooks
import YulToolchain.Proofs.Flow.Interrupted
import YulToolchain.Proofs.Flow.Knowledge
import YulToolchain.Proofs.Flow.Movability
import YulToolchain.Proofs.Flow.Movable
import YulToolchain.Proofs.Flow.Order
import YulToolchain.Proofs.Flow.Slate
import YulToolchain.Proofs.Flow.Transfer
import YulToolchain.Proofs.Flow.Validity
import YulToolchain.Proofs.Flow.Visits
import YulToolchain.Proofs.Machine.Arithmetic
import YulToolchain.Proofs.Names.Fresh
import YulToolchain.Proofs.Names.Granted
import YulToolchain.Proofs.Pass.Agreement
import YulToolchain.Proofs.Pass.Becomes
import YulToolchain.Proofs.Pass.Budget
import YulToolchain.Proofs.Pass.Constants
import YulToolchain.Proofs.Pass.Copied
import YulToolchain.Proofs.Pass.Copies
import YulToolchain.Proofs.Pass.Exact
import YulToolchain.Proofs.Pass.Expression
import YulToolchain.Proofs.Pass.Growth
import YulToolchain.Proofs.Pass.Loop
import YulToolchain.Proofs.Pass.NormalForm
import YulToolchain.Proofs.Pass.Preservation
import YulToolchain.Proofs.Pass.References
import YulToolchain.Proofs.Pass.Repeated
import YulToolchain.Proofs.Pass.Rules
import YulToolchain.Proofs.Pass.Settled
import YulToolchain.Proofs.Pass.Shape
import YulToolchain.Proofs.Pass.Simplified
import YulToolchain.Proofs.Pass.Simulation
import YulToolchain.Proofs.Pass.Standing
import YulToolchain.Proofs.Pass.Steps
import YulToolchain.Proofs.Pass.Traversals
import YulToolchain.Proofs.Pass.Twins
import YulToolchain.Proofs.Pass.WellFormed
import YulToolchain.Proofs.Pass.Widening
import YulToolchain.Proofs.Rename.Alpha
import YulToolchain.Proofs.Rename.Exact
import YulToolchain.Proofs.Rename.Lockstep
import YulToolchain.Proofs.Rename.Occurrence
import YulToolchain.Proofs.Rename.Reanalysis
import YulToolchain.Proofs.Rename.Respell
import YulToolchain.Proofs.Rename.Spelled
import YulToolchain.Proofs.Rename.Walk
import YulToolchain.Proofs.Rename.Written
import YulToolchain.Proofs.Sequence.Accepted
import YulToolchain.Proofs.Sequence.Behaviour
import YulToolchain.Proofs.Sequence.Reread
import YulToolchain.Proofs.Static.Acceptance
import YulToolchain.Proofs.Static.Analyzed
import YulToolchain.Proofs.Static.Builtin
import YulToolchain.Proofs.Static.Chart
import YulToolchain.Proofs.Static.Lookups
import YulToolchain.Proofs.Static.Passage
import YulToolchain.Proofs.Static.Readable
import YulToolchain.Proofs.Static.Resolved
import YulToolchain.Proofs.Static.Scopes
import YulToolchain.Proofs.Static.Secluded
import YulToolchain.Proofs.Static.Sight
import YulToolchain.Proofs.Static.Standing
import YulToolchain.Proofs.Static.Twin
import YulToolchain.Proofs.Syntax.Evaluation
import YulToolchain.Proofs.Syntax.Lexeme
import YulToolchain.Proofs.Syntax.Lookahead
import YulToolchain.Proofs.Syntax.Numbers
import YulToolchain.Proofs.Syntax.Parts
import YulToolchain.Proofs.Syntax.Printed
import YulToolchain.Proofs.Syntax.Reread
import YulToolchain.Proofs.Syntax.Written
import YulToolchain.Proofs.Text.Bytes
import YulToolchain.Proofs.Text.Encoding
import YulToolchain.Proofs.Text.Escapes
import YulToolchain.Proofs.Text.Hexadecimal
import YulToolchain.Proofs.Token.Call
import YulToolchain.Proofs.Token.Gap
import YulToolchain.Proofs.Token.Layout
import YulToolchain.Proofs.Token.Line
import YulToolchain.Proofs.Token.Position
import YulToolchain.Rule
import YulToolchain.Rule.Arithmetic
import YulToolchain.Scope
import YulToolchain.Table
import YulToolchain.Text.Blank
import YulToolchain.Text.Bytes
import YulToolchain.Text.Hex
import YulToolchain.Text.Printable
import YulToolchain.Text.Quoted
import YulToolchain.Token
import YulToolchain.Token.Lexer
import YulToolchain.Word
