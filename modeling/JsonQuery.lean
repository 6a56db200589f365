import JsonQuery.Command.Run
import JsonQuery.Main
import JsonQuery.Expr.Parser
import JsonQuery.Proofs.StreamReaders
import JsonQuery.Proofs.GroupNesting
import JsonQuery.Proofs.Reading
import JsonQuery.Proofs.ReadingSoundness
import JsonQuery.Proofs.ReadingCompleteness
import JsonQuery.Proofs.Nodes
import JsonQuery.Proofs.Payloads
import JsonQuery.Proofs.ChainGrammar
import JsonQuery.Proofs.ExpressionGrammar
import JsonQuery.Proofs.DerivedChains
import JsonQuery.Proofs.Projections
import JsonQuery.Proofs.ChainSoundness
import JsonQuery.Proofs.ChainCompleteness
import JsonQuery.Proofs.AcceptedTexts
import JsonQuery.Proofs.ProjectionChains
import JsonQuery.Proofs.Height
import JsonQuery.Proofs.ParallelEvaluation
import JsonQuery.Proofs.Conduct
import JsonQuery.Proofs.PlainEvaluation
import JsonQuery.Proofs.CountedEvaluation
import JsonQuery.Proofs.DepthLimit
import JsonQuery.Proofs.Lexing
import JsonQuery.Proofs.WrittenTokens
import JsonQuery.Proofs.GroupedTexts
import JsonQuery.Proofs.Printing
import JsonQuery.Proofs.Rounding
import JsonQuery.Proofs.NumberOrder
import JsonQuery.Proofs.Failures
import JsonQuery.Proofs.Dictionaries
import JsonQuery.Proofs.StableSorting
import JsonQuery.Proofs.KeyOrder
import JsonQuery.Proofs.OrderBlindness
import JsonQuery.Proofs.FloatText
import JsonQuery.Proofs.NumberText
import JsonQuery.Proofs.JsonText
import JsonQuery.Proofs.JsonTrees
import JsonQuery.Proofs.LiteralText
import JsonQuery.Proofs.Offsets
import JsonQuery.Proofs.Rendering
import JsonQuery.Proofs.CallDispatch
import JsonQuery.Proofs.LibraryContracts
import JsonQuery.Proofs.ParserSteps
import JsonQuery.Proofs.ParserHistory
import JsonQuery.Proofs.LexerTiling
import JsonQuery.Proofs.SpacedTexts
import JsonQuery.Proofs.IntegerSums
import JsonQuery.Proofs.KeyedSorting
import JsonQuery.Proofs.DeepEquality
import JsonQuery.Proofs.ProjectionFusion
import JsonQuery.Proofs.Slices
import JsonQuery.Proofs.ExtremeItems
import JsonQuery.Proofs.CalledFunctions
import JsonQuery.Proofs.NullStrictness
import JsonQuery.Proofs.ErrorPositions
import JsonQuery.Proofs.ParsedShapes
import JsonQuery.Proofs.MergedObjects
import JsonQuery.Proofs.WholeDoubles
import JsonQuery.Proofs.IntegerArithmetic
import JsonQuery.Proofs.DecimalEntry
import JsonQuery.Proofs.NeutralZero
import JsonQuery.Proofs.LongestPaths
import JsonQuery.Proofs.MappedProjections
import JsonQuery.Proofs.NumberRoundTrip
import JsonQuery.Proofs.RegistryHistory
import JsonQuery.Proofs.DistinctKeys
