import ShaderDialect.Catalog.Basic
import ShaderDialect.Catalog.Bundled
import ShaderDialect.Catalog.Signature
import ShaderDialect.Conversion
import ShaderDialect.Error
import ShaderDialect.Grammar.Declaration
import ShaderDialect.Grammar.Expression
import ShaderDialect.Grammar.Production
import ShaderDialect.Grammar.Statement
import ShaderDialect.Inference.Call
import ShaderDialect.Inference.Demand
import ShaderDialect.Inference.Finding
import ShaderDialect.Inference.Typing
import ShaderDialect.Plan.Declared
import ShaderDialect.Plan.Edits
import ShaderDialect.Plan.Walk
import ShaderDialect.Proofs.Answers
import ShaderDialect.Proofs.ArgumentTypes
import ShaderDialect.Proofs.CanonicalTree
import ShaderDialect.Proofs.CatalogText
import ShaderDialect.Proofs.Causality
import ShaderDialect.Proofs.Climbing
import ShaderDialect.Proofs.Constructors
import ShaderDialect.Proofs.Convergence
import ShaderDialect.Proofs.Diagnostics
import ShaderDialect.Proofs.EditedText
import ShaderDialect.Proofs.ExpressionRoundTrip
import ShaderDialect.Proofs.FiniteMaps
import ShaderDialect.Proofs.FloatContexts
import ShaderDialect.Proofs.FloatFree
import ShaderDialect.Proofs.FloatFreeScope
import ShaderDialect.Proofs.FloatingParts
import ShaderDialect.Proofs.Grammatical
import ShaderDialect.Proofs.HiddenText
import ShaderDialect.Proofs.Idempotence
import ShaderDialect.Proofs.IntegerPositions
import ShaderDialect.Proofs.Layout
import ShaderDialect.Proofs.Lexicon
import ShaderDialect.Proofs.Lexing
import ShaderDialect.Proofs.Likeness
import ShaderDialect.Proofs.LineFeeds
import ShaderDialect.Proofs.LinePositions
import ShaderDialect.Proofs.Locality
import ShaderDialect.Proofs.LongestMatch
import ShaderDialect.Proofs.Lookahead
import ShaderDialect.Proofs.Lossless
import ShaderDialect.Proofs.Members
import ShaderDialect.Proofs.Neighbours
import ShaderDialect.Proofs.Nesting
import ShaderDialect.Proofs.Numbering
import ShaderDialect.Proofs.OverloadResolution
import ShaderDialect.Proofs.Parameters
import ShaderDialect.Proofs.Partition
import ShaderDialect.Proofs.PlanContent
import ShaderDialect.Proofs.Precedence
import ShaderDialect.Proofs.Progress
import ShaderDialect.Proofs.Promotion
import ShaderDialect.Proofs.Readback
import ShaderDialect.Proofs.Reading
import ShaderDialect.Proofs.Recursion
import ShaderDialect.Proofs.Redeclaration
import ShaderDialect.Proofs.Registration
import ShaderDialect.Proofs.Relexing
import ShaderDialect.Proofs.ReportPlaces
import ShaderDialect.Proofs.Reports
import ShaderDialect.Proofs.Rereading
import ShaderDialect.Proofs.Respelled
import ShaderDialect.Proofs.Scoping
import ShaderDialect.Proofs.Settled
import ShaderDialect.Proofs.Shapes
import ShaderDialect.Proofs.SignatureGrammar
import ShaderDialect.Proofs.SignatureLines
import ShaderDialect.Proofs.SpacedTokens
import ShaderDialect.Proofs.Spellings
import ShaderDialect.Proofs.SplicedBytes
import ShaderDialect.Proofs.Splicing
import ShaderDialect.Proofs.Stamps
import ShaderDialect.Proofs.Swizzles
import ShaderDialect.Proofs.Totality
import ShaderDialect.Proofs.TreeGrammar
import ShaderDialect.Proofs.Unsettled
import ShaderDialect.Proofs.VersionLine
import ShaderDialect.Proofs.Visibility
import ShaderDialect.Proofs.Visits
import ShaderDialect.Proofs.Weight
import ShaderDialect.Proofs.Writes
import ShaderDialect.Proofs.WrittenNames
import ShaderDialect.Scope
import ShaderDialect.Shader.File
import ShaderDialect.SyntaxTree
import ShaderDialect.Table.Arena
import ShaderDialect.Table.Side
import ShaderDialect.Text.Lines
import ShaderDialect.Text.Position
import ShaderDialect.Text.Space
import ShaderDialect.Token.Basic
import ShaderDialect.Token.Hidden
import ShaderDialect.Token.Literal
import ShaderDialect.Token.Scan
import ShaderDialect.Token.Stream
import ShaderDialect.Token.Vocabulary
import ShaderDialect.Tree.Arena
import ShaderDialect.Tree.Basic
import ShaderDialect.Type.Basic
import ShaderDialect.Type.Builtin
import ShaderDialect.Type.Member
