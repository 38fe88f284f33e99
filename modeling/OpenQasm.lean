import OpenQasm.Analysis.Program
import OpenQasm.Config.Document
import OpenQasm.Directive
import OpenQasm.Instruction.Json
import OpenQasm.Proofs.Allocation
import OpenQasm.Proofs.BitSlices
import OpenQasm.Proofs.BranchDependencies
import OpenQasm.Proofs.BuiltViews
import OpenQasm.Proofs.ChainedIndices
import OpenQasm.Proofs.Coercions
import OpenQasm.Proofs.CountedLoops
import OpenQasm.Proofs.DeclaredLiterals
import OpenQasm.Proofs.FailedDeclarations
import OpenQasm.Proofs.InferredTypes
import OpenQasm.Proofs.Inlining
import OpenQasm.Proofs.LegiblePrograms
import OpenQasm.Proofs.LexicalScoping
import OpenQasm.Proofs.ModifiedCalls
import OpenQasm.Proofs.ModifierAlgebra
import OpenQasm.Proofs.OperationOrder
import OpenQasm.Proofs.ParameterValues
import OpenQasm.Proofs.PartialEvaluation
import OpenQasm.Proofs.PrintedExpressions
import OpenQasm.Proofs.PrintedLiterals
import OpenQasm.Proofs.PrintedParameters
import OpenQasm.Proofs.Progressions
import OpenQasm.Proofs.ReadOnlyArguments
import OpenQasm.Proofs.ReadingProgress
import OpenQasm.Proofs.Reanalysis
import OpenQasm.Proofs.Recovery
import OpenQasm.Proofs.Recursion
import OpenQasm.Proofs.ReexpandedGates
import OpenQasm.Proofs.Remeasurements
import OpenQasm.Proofs.RenamedQubits
import OpenQasm.Proofs.RepeatedIndices
import OpenQasm.Proofs.RereadValues
import OpenQasm.Proofs.ReturnedResults
import OpenQasm.Proofs.Rollback
import OpenQasm.Proofs.RuntimeBranches
import OpenQasm.Proofs.Signals
import OpenQasm.Proofs.StatementSpans
import OpenQasm.Proofs.StoredSymbols
import OpenQasm.Proofs.TrackedValues
import OpenQasm.Proofs.Transformations
import OpenQasm.Proofs.TransformedDepth
import OpenQasm.Proofs.UnsignedArithmetic
import OpenQasm.Syntax.Json
