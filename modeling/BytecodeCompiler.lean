import BytecodeCompiler.Code
import BytecodeCompiler.Code.Decode
import BytecodeCompiler.Code.Encode
import BytecodeCompiler.Compiler
import BytecodeCompiler.Compiler.Artifact
import BytecodeCompiler.Compiler.Checked
import BytecodeCompiler.Decimal
import BytecodeCompiler.Diagnostic
import BytecodeCompiler.Disk
import BytecodeCompiler.Emission
import BytecodeCompiler.Fault
import BytecodeCompiler.Ident
import BytecodeCompiler.Instr
import BytecodeCompiler.Instr.Emit
import BytecodeCompiler.Instr.Text
import BytecodeCompiler.Json
import BytecodeCompiler.Lower
import BytecodeCompiler.Lower.Control
import BytecodeCompiler.Lower.Expression
import BytecodeCompiler.Lower.Program
import BytecodeCompiler.Lower.State
import BytecodeCompiler.Lower.Statement
import BytecodeCompiler.Machine
import BytecodeCompiler.Names
import BytecodeCompiler.Names.Hashed
import BytecodeCompiler.Operator
import BytecodeCompiler.Proofs.Code.Reading
import BytecodeCompiler.Proofs.Code.RoundTrip
import BytecodeCompiler.Proofs.Code.Spelling
import BytecodeCompiler.Proofs.Code.Written
import BytecodeCompiler.Proofs.Code.Limits
import BytecodeCompiler.Proofs.Code.Reencoding
import BytecodeCompiler.Proofs.Emission.Assembly
import BytecodeCompiler.Proofs.Emission.Decoded
import BytecodeCompiler.Proofs.Emission.Layout
import BytecodeCompiler.Proofs.Emission.OnePass
import BytecodeCompiler.Proofs.Emission.Operands
import BytecodeCompiler.Proofs.Emission.Patching
import BytecodeCompiler.Proofs.Emission.Recovery
import BytecodeCompiler.Proofs.Emission.TwoPass
import BytecodeCompiler.Proofs.Emission.Walk
import BytecodeCompiler.Proofs.Firsts
import BytecodeCompiler.Proofs.Lower.Labels
import BytecodeCompiler.Proofs.Lower.Ledger
import BytecodeCompiler.Proofs.Names
import BytecodeCompiler.Scopes
import BytecodeCompiler.SourceMap
import BytecodeCompiler.SourceMap.Json
import BytecodeCompiler.Span
import BytecodeCompiler.Text.Quoted
import BytecodeCompiler.Text.Shown
import BytecodeCompiler.Tree
import BytecodeCompiler.Tree.Builder
import BytecodeCompiler.Ty
import BytecodeCompiler.Ty.Equality
import BytecodeCompiler.Ty.Text
import BytecodeCompiler.Value
import BytecodeCompiler.Value.Agreement
import BytecodeCompiler.Value.Text
import BytecodeCompiler.Proofs.Lower.Progress
import BytecodeCompiler.Proofs.Instr.ResultStack
import BytecodeCompiler.Proofs.Tree.Evaluation
import BytecodeCompiler.Proofs.Lower.Expressions
import BytecodeCompiler.Proofs.Lower.OperandOrder
import BytecodeCompiler.Proofs.Tree.Calm
import BytecodeCompiler.Proofs.Lower.Scratch
import BytecodeCompiler.Proofs.Lower.LiveScratch
import BytecodeCompiler.Proofs.Lower.PairedControl
import BytecodeCompiler.Proofs.Lower.Flat
import BytecodeCompiler.Proofs.Emission.Mapped
import BytecodeCompiler.Proofs.Emission.Renamed
import BytecodeCompiler.Proofs.Emission.Resolution
import BytecodeCompiler.Proofs.Lower.LabelBlind
import BytecodeCompiler.Proofs.Lower.Nested
import BytecodeCompiler.Proofs.Lower.JumpScope
import BytecodeCompiler.Proofs.Compiler.SourceNames
import BytecodeCompiler.Proofs.Instr.Execution
import BytecodeCompiler.Proofs.Lower.LoopLayout
import BytecodeCompiler.Proofs.Lower.ForInRuns
import BytecodeCompiler.Proofs.Instr.Parts
import BytecodeCompiler.Proofs.Lower.Guards
import BytecodeCompiler.Proofs.Lower.ChainRuns
import BytecodeCompiler.Proofs.Lower.ForIfRuns
import BytecodeCompiler.Proofs.Code.Locality
import BytecodeCompiler.Proofs.Tree.Ancestors
import BytecodeCompiler.Proofs.Code.WordReading
import BytecodeCompiler.Proofs.Lower.Termination
import BytecodeCompiler.Proofs.Scopes
import BytecodeCompiler.Proofs.Tree.Declarations
import BytecodeCompiler.Proofs.Compiler.RepeatedNames
import BytecodeCompiler.Proofs.SourceMap.Recording
import BytecodeCompiler.Proofs.SourceMap.Queries
import BytecodeCompiler.Proofs.Json.Compact
import BytecodeCompiler.Proofs.SourceMap.Indexed
import BytecodeCompiler.Proofs.SourceMap.RoundTrip
import BytecodeCompiler.Proofs.Names.Exhaustion
import BytecodeCompiler.Proofs.Instr.Listing
import BytecodeCompiler.Proofs.Scopes.Nesting
import BytecodeCompiler.Proofs.Lower.Appending
import BytecodeCompiler.Proofs.Lower.StructLayout
import BytecodeCompiler.Proofs.Lower.SharedOnce
