import SsaCompiler.Check.Directive
import SsaCompiler.Check.Fault
import SsaCompiler.Check.Spec
import SsaCompiler.Error
import SsaCompiler.Graph.BlockSet
import SsaCompiler.Graph.Cfg
import SsaCompiler.Graph.DominatorTree
import SsaCompiler.Graph.Listing
import SsaCompiler.Graph.LoopForest
import SsaCompiler.Graph.ReversePostorder
import SsaCompiler.Ir.Builder
import SsaCompiler.Ir.Builtin
import SsaCompiler.Ir.Edit
import SsaCompiler.Ir.Function
import SsaCompiler.Ir.Inst
import SsaCompiler.Ir.Listing
import SsaCompiler.Ir.Module
import SsaCompiler.Ir.Operator
import SsaCompiler.Ir.Promote
import SsaCompiler.Ir.Simplify
import SsaCompiler.Ir.Snapshot
import SsaCompiler.Ir.StringConst
import SsaCompiler.Ir.Verify
import SsaCompiler.Machine.Allocate
import SsaCompiler.Machine.Assembly
import SsaCompiler.Machine.Coloring
import SsaCompiler.Machine.Frame
import SsaCompiler.Machine.Function
import SsaCompiler.Machine.Instr
import SsaCompiler.Machine.Interference
import SsaCompiler.Machine.Liveness
import SsaCompiler.Machine.Operator
import SsaCompiler.Machine.Register
import SsaCompiler.Machine.RegisterSet
import SsaCompiler.Machine.Runtime
import SsaCompiler.Machine.Select
import SsaCompiler.Machine.Spill
import SsaCompiler.Main
import SsaCompiler.Marking
import SsaCompiler.NatSet
import SsaCompiler.Pipeline.Compile
import SsaCompiler.Pipeline.Dump
import SsaCompiler.Pipeline.Session
import SsaCompiler.Proofs.Check.MatchedDirectives
import SsaCompiler.Proofs.Edits
import SsaCompiler.Proofs.Graph.Convergence
import SsaCompiler.Proofs.Graph.Dominance
import SsaCompiler.Proofs.Graph.Frontier
import SsaCompiler.Proofs.Graph.LoopNest
import SsaCompiler.Proofs.Graph.NaturalLoops
import SsaCompiler.Proofs.Graph.Reachability
import SsaCompiler.Proofs.Graph.TopologicalOrder
import SsaCompiler.Proofs.Graph.TreeDepth
import SsaCompiler.Proofs.Graph.TreeOrder
import SsaCompiler.Proofs.Ir.Additions
import SsaCompiler.Proofs.Ir.BlockStructure
import SsaCompiler.Proofs.Ir.CallHistory
import SsaCompiler.Proofs.Ir.CompletePromotion
import SsaCompiler.Proofs.Ir.ExactUses
import SsaCompiler.Proofs.Ir.FoldedBranches
import SsaCompiler.Proofs.Ir.ForwardedPhis
import SsaCompiler.Proofs.Ir.KeptNames
import SsaCompiler.Proofs.Ir.ListedNames
import SsaCompiler.Proofs.Ir.ListingLines
import SsaCompiler.Proofs.Ir.LiveValues
import SsaCompiler.Proofs.Ir.NeededPhis
import SsaCompiler.Proofs.Ir.Outlines
import SsaCompiler.Proofs.Ir.PlacedPhis
import SsaCompiler.Proofs.Ir.Placement
import SsaCompiler.Proofs.Ir.PromotedForm
import SsaCompiler.Proofs.Ir.PromotedRuns
import SsaCompiler.Proofs.Ir.PromotedSlots
import SsaCompiler.Proofs.Ir.PrunedBlocks
import SsaCompiler.Proofs.Ir.RemovedBlocks
import SsaCompiler.Proofs.Ir.RenamedSlots
import SsaCompiler.Proofs.Ir.Renumbering
import SsaCompiler.Proofs.Ir.Rerouting
import SsaCompiler.Proofs.Ir.Reshaping
import SsaCompiler.Proofs.Ir.RetainedCode
import SsaCompiler.Proofs.Ir.Semantics
import SsaCompiler.Proofs.Ir.ShrinkingSteps
import SsaCompiler.Proofs.Ir.SimplifiedRuns
import SsaCompiler.Proofs.Ir.SlotValues
import SsaCompiler.Proofs.Ir.SlotWalk
import SsaCompiler.Proofs.Ir.SoundPasses
import SsaCompiler.Proofs.Ir.SplicedBlocks
import SsaCompiler.Proofs.Ir.Strictness
import SsaCompiler.Proofs.Ir.SuccessfulEdits
import SsaCompiler.Proofs.Ir.TendedRecords
import SsaCompiler.Proofs.Ir.TotalPromote
import SsaCompiler.Proofs.Ir.TotalRenaming
import SsaCompiler.Proofs.Ir.TotalSimplify
import SsaCompiler.Proofs.Ir.UseIndex
import SsaCompiler.Proofs.Ir.Verified
import SsaCompiler.Proofs.Machine.AllocatedRun
import SsaCompiler.Proofs.Machine.AssignedRun
import SsaCompiler.Proofs.Machine.BoundedRounds
import SsaCompiler.Proofs.Machine.Colors
import SsaCompiler.Proofs.Machine.Conflicts
import SsaCompiler.Proofs.Machine.ConservativeMerging
import SsaCompiler.Proofs.Machine.Degrees
import SsaCompiler.Proofs.Machine.DismantledGraph
import SsaCompiler.Proofs.Machine.EncodableCode
import SsaCompiler.Proofs.Machine.ExactLiveness
import SsaCompiler.Proofs.Machine.FinishedAllocation
import SsaCompiler.Proofs.Machine.FinishedColoring
import SsaCompiler.Proofs.Machine.FinishedFrame
import SsaCompiler.Proofs.Machine.FinishedSelection
import SsaCompiler.Proofs.Machine.InstCode
import SsaCompiler.Proofs.Machine.InstRuns
import SsaCompiler.Proofs.Machine.KeptSelection
import SsaCompiler.Proofs.Machine.LoweredPhis
import SsaCompiler.Proofs.Machine.Merging
import SsaCompiler.Proofs.Machine.OperandRuns
import SsaCompiler.Proofs.Machine.ParallelCopies
import SsaCompiler.Proofs.Machine.PathLiveness
import SsaCompiler.Proofs.Machine.Reloads
import SsaCompiler.Proofs.Machine.SelectedBlocks
import SsaCompiler.Proofs.Machine.SelectedCode
import SsaCompiler.Proofs.Machine.SelectedFunction
import SsaCompiler.Proofs.Machine.SelectedInsts
import SsaCompiler.Proofs.Machine.SelectedRuns
import SsaCompiler.Proofs.Machine.SelectionFlaws
import SsaCompiler.Proofs.Machine.SelectionSteps
import SsaCompiler.Proofs.Machine.Semantics
import SsaCompiler.Proofs.Machine.SeparatedNodes
import SsaCompiler.Proofs.Machine.SettledLiveness
import SsaCompiler.Proofs.Machine.ShortTemporaries
import SsaCompiler.Proofs.Machine.SpilledRegister
import SsaCompiler.Proofs.Machine.SpilledRun
import SsaCompiler.Proofs.Machine.StraightRuns
import SsaCompiler.Proofs.Machine.StrictCode
import SsaCompiler.Proofs.Machine.StrictSelection
import SsaCompiler.Proofs.Machine.TakingApart
import SsaCompiler.Proofs.Machine.Worklists
import SsaCompiler.Proofs.NatSet
import SsaCompiler.Proofs.Pipeline.DataLabels
import SsaCompiler.Proofs.Pipeline.FinishedCompilation
import SsaCompiler.Proofs.Pipeline.IteratedFrontiers
import SsaCompiler.Proofs.Pipeline.KeptMeaning
import SsaCompiler.Proofs.Pipeline.NormalForm
import SsaCompiler.Proofs.Pipeline.PromotedModules
import SsaCompiler.Proofs.Pipeline.RepeatedNames
import SsaCompiler.Proofs.Pipeline.StringData
import SsaCompiler.Proofs.Pipeline.TextLabels
import SsaCompiler.Proofs.Pipeline.TotalPasses
import SsaCompiler.Proofs.Runs
import SsaCompiler.Proofs.Stateful
import SsaCompiler.Proofs.Text.ArrangedCode
import SsaCompiler.Proofs.Text.BodyFaults
import SsaCompiler.Proofs.Text.BuiltFunctions
import SsaCompiler.Proofs.Text.ByteTokens
import SsaCompiler.Proofs.Text.DistinctNames
import SsaCompiler.Proofs.Text.FilledPhis
import SsaCompiler.Proofs.Text.FinishedBodies
import SsaCompiler.Proofs.Text.ForwardReferences
import SsaCompiler.Proofs.Text.GrownCode
import SsaCompiler.Proofs.Text.LocatedFaults
import SsaCompiler.Proofs.Text.NamedValues
import SsaCompiler.Proofs.Text.PhiOrder
import SsaCompiler.Proofs.Text.PrintedFormats
import SsaCompiler.Proofs.Text.ReadModules
import SsaCompiler.Proofs.Text.RearrangedBodies
import SsaCompiler.Proofs.Text.RearrangedPhis
import SsaCompiler.Proofs.Text.SeparateFunctions
import SsaCompiler.Proofs.Text.SpelledNames
import SsaCompiler.Proofs.Text.StatementFaults
import SsaCompiler.Text.Blank
import SsaCompiler.Text.ByteScan
import SsaCompiler.Text.Fault
import SsaCompiler.Text.Lexer
import SsaCompiler.Text.Lines
import SsaCompiler.Text.Numeral
import SsaCompiler.Text.Printable
import SsaCompiler.Text.Quoted
import SsaCompiler.Text.Reading
import SsaCompiler.Text.Source
import SsaCompiler.Text.Statement
import SsaCompiler.Text.Token
import SsaCompiler.Tool.CommandLine
import SsaCompiler.Tool.Compiler
import SsaCompiler.Tool.FileTree
import SsaCompiler.Tool.Report
import SsaCompiler.Tool.Trace
import SsaCompiler.Word
