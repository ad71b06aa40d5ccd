import PlainScript.CommandLine.Run
import PlainScript.Main
import PlainScript.Proofs.Boundary
import PlainScript.Proofs.Trivia
import PlainScript.Proofs.Lexemes
import PlainScript.Proofs.Primitives
import PlainScript.Proofs.Walks
import PlainScript.Proofs.ScopesWalk
import PlainScript.Proofs.RulesWalk
import PlainScript.Proofs.Tiling
import PlainScript.Proofs.PassesWrite
import PlainScript.Proofs.Progress
import PlainScript.Proofs.Runs
import PlainScript.Proofs.PrimitivesRun
import PlainScript.Proofs.RulesRun
import PlainScript.Proofs.Idles
import PlainScript.Proofs.Termination
import PlainScript.Proofs.Choice
import PlainScript.Proofs.FreeNames
import PlainScript.Proofs.ImportPlans
import PlainScript.Proofs.Readers
import PlainScript.Proofs.Prepared
import PlainScript.Proofs.References
import PlainScript.Proofs.Exports
import PlainScript.Proofs.Vlq
import PlainScript.Proofs.SourceMaps
import PlainScript.Proofs.Scopes
import PlainScript.Proofs.MovesOn
import PlainScript.Proofs.PassesMoveOn
import PlainScript.Proofs.PassProgress
import PlainScript.Proofs.ErasedTypes
import PlainScript.Proofs.LoadedPaths
import PlainScript.Proofs.LineFeeds
import PlainScript.Proofs.Traces
import PlainScript.Proofs.TracedPasses
import PlainScript.Proofs.TracedModules
import PlainScript.Proofs.TracedFiles
import PlainScript.Proofs.GeneratedLines
import PlainScript.Proofs.Reassembly
import PlainScript.Proofs.LineAlignment
import PlainScript.Proofs.FirstLine
import PlainScript.Proofs.Unchanged
import PlainScript.Proofs.TokenIndices
import PlainScript.Proofs.ClassPairs
import PlainScript.Proofs.ClassOutlines
import PlainScript.Proofs.OperationSearch
import PlainScript.Proofs.ChainCalls
import PlainScript.Proofs.StickyErrors
import PlainScript.Proofs.ShadowedNames
import PlainScript.Proofs.OutputPaths
import PlainScript.Proofs.ElementTexts
import PlainScript.Proofs.GapScanners
import PlainScript.Proofs.NullishMarks
import PlainScript.Proofs.Peeking
import PlainScript.Proofs.LinePositions
import PlainScript.Proofs.FailedJobs
import PlainScript.Proofs.LineNumbers
