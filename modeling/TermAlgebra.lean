import TermAlgebra.Text.Blank
import TermAlgebra.Text.Letter
import TermAlgebra.Text.Quoted
import TermAlgebra.Number.Decimal
import TermAlgebra.Number.Numeral
import TermAlgebra.Table
import TermAlgebra.Value.Equality
import TermAlgebra.Value.Show
import TermAlgebra.Term.Notation
import TermAlgebra.Json.Reader
import TermAlgebra.Json.Writer
import TermAlgebra.Theory.Domain
import TermAlgebra.Theory.Reference
import TermAlgebra.Theory.Standard
import TermAlgebra.Algebra.Basic
import TermAlgebra.Algebra.Calculus
import TermAlgebra.Algebra.Override
import TermAlgebra.Algebra.Free
import TermAlgebra.Algebra.Operation
import TermAlgebra.Algebra.Functor
import TermAlgebra.Algebra.NodeAction
import TermAlgebra.SExpr.Decode
import TermAlgebra.Display
import TermAlgebra.Document
import TermAlgebra.CommandLine.Run
import TermAlgebra.Main
import TermAlgebra.Proofs.AcceptedTheories
import TermAlgebra.Proofs.SilentOutcomes
import TermAlgebra.Proofs.TheoryLookups
import TermAlgebra.Proofs.PlainCalculus
import TermAlgebra.Proofs.BuiltValues
import TermAlgebra.Proofs.AlikeValues
import TermAlgebra.Proofs.RebuiltValues
import TermAlgebra.Proofs.PrimitiveCalculus
import TermAlgebra.Proofs.DecodedValues
import TermAlgebra.Proofs.StandardExpressions
import TermAlgebra.Proofs.EqualValues
import TermAlgebra.Proofs.EmbeddedCalculi
import TermAlgebra.Proofs.ExtendedTheories
import TermAlgebra.Proofs.ReachedParameters
import TermAlgebra.Proofs.StrictDomains
import TermAlgebra.Proofs.SafeCalls
import TermAlgebra.Proofs.DeclaredSorts
import TermAlgebra.Proofs.RecoveredParameters
import TermAlgebra.Proofs.SortedExpressions
import TermAlgebra.Proofs.FunctorValues
import TermAlgebra.Proofs.TabledGenerators
import TermAlgebra.Proofs.ComposedImages
import TermAlgebra.Proofs.PreservedTypes
import TermAlgebra.Proofs.FreeSimplification
import TermAlgebra.Proofs.NotationTokens
import TermAlgebra.Proofs.PrintedTerms
import TermAlgebra.Proofs.ExactNotation
import TermAlgebra.Proofs.RecordedCalls
import TermAlgebra.Proofs.ComposablePairs
import TermAlgebra.Proofs.EqualTypes
import TermAlgebra.Proofs.SettledResults
import TermAlgebra.Proofs.DefinedInterpretations
import TermAlgebra.Proofs.FollowedEvaluations
import TermAlgebra.Proofs.EvaluatedImages
import TermAlgebra.Proofs.ExactPaths
import TermAlgebra.Proofs.DecodedEncodings
import TermAlgebra.Proofs.EscapedTexts
import TermAlgebra.Proofs.WrittenDocuments
import TermAlgebra.Proofs.WrittenExpressions
import TermAlgebra.Proofs.SimplifyingCalculus
import TermAlgebra.Proofs.RebuiltExpressions
import TermAlgebra.Proofs.ReducedExpressions
import TermAlgebra.Proofs.ConstantCycles
import TermAlgebra.Proofs.NullaryCalls
import TermAlgebra.Proofs.ReadDocuments
import TermAlgebra.Proofs.StandardCalls
import TermAlgebra.Proofs.LoadedFiles
import TermAlgebra.Proofs.ReorderedTheories
import TermAlgebra.Proofs.AmbiguousOverloads
import TermAlgebra.Proofs.PassingOverrides
import TermAlgebra.Proofs.SubstitutedTerms
import TermAlgebra.Proofs.NodePositions
import TermAlgebra.Proofs.OrderedVisits
import TermAlgebra.Proofs.ReadableNotation
import TermAlgebra.Proofs.PairedMorphisms
