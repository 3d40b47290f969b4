import TapeCompiler.Operand
import TapeCompiler.Position
import TapeCompiler.Instruction
import TapeCompiler.Source
import TapeCompiler.Merge
import TapeCompiler.Target
import TapeCompiler.Flatten
import TapeCompiler.Pass
import TapeCompiler.Width
import TapeCompiler.Channel
import TapeCompiler.Jumps
import TapeCompiler.Store
import TapeCompiler.Machine
import TapeCompiler.Session
import TapeCompiler.Emission
import TapeCompiler.Code.Layout
import TapeCompiler.Code.Qbe
import TapeCompiler.Code.Llvm
import TapeCompiler.Backend.Block
import TapeCompiler.Backend.Listing
import TapeCompiler.Backend.C
import TapeCompiler.Backend.JavaScript
import TapeCompiler.Backend.Qbe
import TapeCompiler.Backend.Llvm
import TapeCompiler.Backend.Symbols
import TapeCompiler.Emit
import TapeCompiler.CommandLine.Arguments
import TapeCompiler.CommandLine.Host
import TapeCompiler.CommandLine.FileTree
import TapeCompiler.CommandLine.Workspace
import TapeCompiler.CommandLine.Compile
import TapeCompiler.Main
import TapeCompiler.Proofs.Blocks
import TapeCompiler.Proofs.StoreLaws
import TapeCompiler.Proofs.Structured
import TapeCompiler.Proofs.JumpLabels
import TapeCompiler.Proofs.ControlFlow
import TapeCompiler.Proofs.CellSteps
import TapeCompiler.Proofs.Similarity
import TapeCompiler.Proofs.Merging
import TapeCompiler.Proofs.MergeSound
import TapeCompiler.Proofs.Refinement
import TapeCompiler.Proofs.Deposits
import TapeCompiler.Proofs.Verdicts
import TapeCompiler.Proofs.FlattenStep
import TapeCompiler.Proofs.LoopRules
import TapeCompiler.Proofs.Flattening
import TapeCompiler.Proofs.FlattenPass
import TapeCompiler.Proofs.FlattenSound
import TapeCompiler.Proofs.SourceLabels
import TapeCompiler.Proofs.Pipeline
import TapeCompiler.Proofs.Reading
import TapeCompiler.Proofs.LoopNesting
import TapeCompiler.Proofs.Delivery
import TapeCompiler.Proofs.SymbolText
import TapeCompiler.Proofs.FlattenBounds
import TapeCompiler.Proofs.EmitTotal
import TapeCompiler.Proofs.Compilation
import TapeCompiler.Proofs.FlattenExact
import TapeCompiler.Proofs.NormalForm
import TapeCompiler.Proofs.MergeFixpoint
import TapeCompiler.Proofs.MergePasses
import TapeCompiler.Proofs.MergePositions
import TapeCompiler.Proofs.RoundTrip
import TapeCompiler.Proofs.DivisionLoops
import TapeCompiler.Proofs.Divisors
import TapeCompiler.Proofs.Pieces
import TapeCompiler.Proofs.QbeMachine
import TapeCompiler.Proofs.QbeLayout
import TapeCompiler.Proofs.QbeCells
import TapeCompiler.Proofs.QbeControl
import TapeCompiler.Proofs.QbeSound
import TapeCompiler.Proofs.MergeCanonical
import TapeCompiler.Proofs.BracketFaults
import TapeCompiler.Proofs.UnclosedLoops
import TapeCompiler.Proofs.StepLimit
import TapeCompiler.Proofs.BlockWarnings
import TapeCompiler.Proofs.LlvmLayout
import TapeCompiler.Proofs.LlvmDivision
import TapeCompiler.Proofs.LlvmText
import TapeCompiler.Proofs.LlvmBlocks
import TapeCompiler.Proofs.LlvmReferences
import TapeCompiler.Proofs.LlvmScopes
import TapeCompiler.Proofs.LlvmDebugInfo
import TapeCompiler.Proofs.FullSink
import TapeCompiler.Proofs.TextLines
import TapeCompiler.Proofs.ListingText
import TapeCompiler.Proofs.CommentLines
import TapeCompiler.Proofs.BraceBlocks
import TapeCompiler.Proofs.CellRange
import TapeCompiler.Proofs.FlattenLength
import TapeCompiler.Proofs.LoopAccounts
