import ScriptIndex.Program
import ScriptIndex.Index.Resolver
import ScriptIndex.Proofs.ScriptRuns
import ScriptIndex.Proofs.AssemblyInv
import ScriptIndex.Proofs.DocInv
import ScriptIndex.Proofs.Links
import ScriptIndex.Proofs.Programs
import ScriptIndex.Proofs.GatherRuns
import ScriptIndex.Proofs.IndexInv
import ScriptIndex.Proofs.Answers
import ScriptIndex.Proofs.QualifiedNames
import ScriptIndex.Proofs.Agreement
import ScriptIndex.Proofs.StubSteps
import ScriptIndex.Proofs.Syntactic
import ScriptIndex.Proofs.SiteOrder
import ScriptIndex.Proofs.IndexOrder
import ScriptIndex.Proofs.StubLifecycle
import ScriptIndex.Proofs.Depth
import ScriptIndex.Proofs.Widened
import ScriptIndex.Proofs.RegionSplit
import ScriptIndex.Proofs.Forest
import ScriptIndex.Proofs.ExternOrder
import ScriptIndex.Proofs.Relocation
import ScriptIndex.Proofs.TypeRelocation
import ScriptIndex.Proofs.ScriptRelocation
import ScriptIndex.Proofs.Encoding
import ScriptIndex.Proofs.ScriptAppend
import ScriptIndex.Proofs.Lexemes
import ScriptIndex.Proofs.Spelling
import ScriptIndex.Proofs.Phrases
import ScriptIndex.Proofs.Planting
import ScriptIndex.Proofs.Yields
import ScriptIndex.Proofs.PhraseRuns
import ScriptIndex.Proofs.StatementRuns
import ScriptIndex.Proofs.RoundTrip
import ScriptIndex.Arena.Traversal
import ScriptIndex.Proofs.TraversalRuns
import ScriptIndex.Proofs.Places
import ScriptIndex.Arena.Descendants
import ScriptIndex.Proofs.Descent
import ScriptIndex.Proofs.Tiling
import ScriptIndex.Proofs.Progress
import ScriptIndex.Proofs.TypeProgress
import ScriptIndex.Proofs.ScriptProgress
import ScriptIndex.Proofs.SameTokens
import ScriptIndex.Proofs.Respacing
import ScriptIndex.Proofs.FormInv
import ScriptIndex.Proofs.FunctionSites
import ScriptIndex.Proofs.Simulation
import ScriptIndex.Proofs.ScriptSimulation
import ScriptIndex.Proofs.DocsAside
import ScriptIndex.Proofs.StreamAppend
import ScriptIndex.Proofs.ScriptConcat
import ScriptIndex.Proofs.ScriptUnrolled
import ScriptIndex.Proofs.IndexCalls
import ScriptIndex.Proofs.StubTrace
import ScriptIndex.Proofs.Redocumented
import ScriptIndex.Proofs.Legible
import ScriptIndex.Proofs.NodeShapes
import ScriptIndex.Proofs.LexicalErrors
import ScriptIndex.Proofs.Refusals
import ScriptIndex.Proofs.ReadOnce
import ScriptIndex.Proofs.ReadingProgress
import ScriptIndex.Proofs.Superseding
import ScriptIndex.Proofs.CommentLines
import ScriptIndex.Proofs.TypePhrases
import ScriptIndex.Proofs.TypeLexemes
import ScriptIndex.Proofs.TypePhraseRuns
import ScriptIndex.Proofs.TypeRoundTrip
import ScriptIndex.Proofs.Nesting
import ScriptIndex.Proofs.TypeNesting
import ScriptIndex.Proofs.ScriptNesting
import ScriptIndex.Proofs.SpanNesting
import ScriptIndex.Proofs.Continued
import ScriptIndex.Proofs.ScriptContinued
import ScriptIndex.Proofs.Operands
import ScriptIndex.Proofs.Operations
import ScriptIndex.Proofs.Precedence
import ScriptIndex.Proofs.Escapes
import ScriptIndex.Proofs.StringLiterals
import ScriptIndex.Proofs.DottedPaths
import ScriptIndex.Proofs.NameClasses
import ScriptIndex.Proofs.BucketHistory
import ScriptIndex.Proofs.Rearrangement
import ScriptIndex.Proofs.CheckedAccess
import ScriptIndex.Proofs.CheckedLexer
import ScriptIndex.Proofs.CheckedRuns
import ScriptIndex.Proofs.CheckedComments
import ScriptIndex.Proofs.CheckedTypes
import ScriptIndex.Proofs.CheckedDocs
import ScriptIndex.Proofs.TokenCuts
import ScriptIndex.Proofs.CheckedScript
import ScriptIndex.Proofs.CheckedScriptRuns
