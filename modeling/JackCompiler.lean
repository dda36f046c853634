import JackCompiler.Build.FileTree
import JackCompiler.Main
import JackCompiler.Pass.Rules
import JackCompiler.Proofs.Scanning
import JackCompiler.Proofs.TreeDirectives
import JackCompiler.Proofs.Unambiguity
import JackCompiler.Proofs.ReadingSoundness
import JackCompiler.Proofs.ReadingCompleteness
import JackCompiler.Proofs.Declarations
import JackCompiler.Proofs.ReferenceCode
import JackCompiler.Proofs.Generation
import JackCompiler.Proofs.Compilation
import JackCompiler.Proofs.Acceptance
import JackCompiler.Proofs.Labels
import JackCompiler.Proofs.ControlFlow
import JackCompiler.Proofs.Evaluation
import JackCompiler.Proofs.BodyCommands
import JackCompiler.Proofs.StackDepth
import JackCompiler.Proofs.ConstantRange
import JackCompiler.Proofs.Storage
import JackCompiler.Proofs.Branches
import JackCompiler.Proofs.Jumps
import JackCompiler.Proofs.Independence
import JackCompiler.Proofs.LexicalGrammar
import JackCompiler.Proofs.Agenda
import JackCompiler.Proofs.Completion
import JackCompiler.Proofs.AgendaReading
import JackCompiler.Proofs.NamePlaces
import JackCompiler.Proofs.AgendaTrees
import JackCompiler.Proofs.EarliestErrors
import JackCompiler.Proofs.Respelling
import JackCompiler.Proofs.Layout
import JackCompiler.Proofs.RenamedTexts
import JackCompiler.Proofs.Renaming
import JackCompiler.Proofs.FileTrees
import JackCompiler.Proofs.Utf8Texts
import JackCompiler.Proofs.SourceFiles
import JackCompiler.Proofs.Building
import JackCompiler.Proofs.ScopeHistory
import JackCompiler.Proofs.CodeNames
import JackCompiler.Proofs.CodeText
import JackCompiler.Proofs.JoinedTexts
import JackCompiler.Proofs.PrintedTexts
import JackCompiler.Proofs.Places
import JackCompiler.Proofs.TextSlices
import JackCompiler.Proofs.CheckedScanning
import JackCompiler.Proofs.CheckedMachine
import JackCompiler.Proofs.CheckedReading
import JackCompiler.Proofs.CheckedCompilation
import JackCompiler.Proofs.Resumption
import JackCompiler.Proofs.Cursor
import JackCompiler.Proofs.Coordinates
import JackCompiler.Proofs.Carets
import JackCompiler.Proofs.Rules
import JackCompiler.Proofs.RuleProgress
import JackCompiler.Proofs.Descent
import JackCompiler.Proofs.KeptTokens
import JackCompiler.Proofs.SinglePass
import JackCompiler.Proofs.SinglePassRules
import JackCompiler.Proofs.SinglePassTranscript
import JackCompiler.Proofs.SinglePassSources
import JackCompiler.Proofs.Recording
import JackCompiler.Proofs.Delivery
import JackCompiler.Proofs.SinglePassTrees
import JackCompiler.Proofs.SinglePassCode
import JackCompiler.Proofs.Computation
import JackCompiler.Proofs.Receiver
