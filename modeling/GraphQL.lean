import GraphQL.Token.Stream
import GraphQL.Compact.Codec
import GraphQL.Data.Compact
import GraphQL.Data.Node
import GraphQL.Data.Schema
import GraphQL.Main
import GraphQL.Proofs.RoundTrip
import GraphQL.Proofs.SchemaBuild
import GraphQL.Proofs.FieldMerging
import GraphQL.Proofs.TypeSafety
import GraphQL.Proofs.Subtypes
import GraphQL.Proofs.DirectiveUses
import GraphQL.Proofs.Layout
import GraphQL.Proofs.SchemaGrammar
import GraphQL.Proofs.CompactCodec
import GraphQL.Proofs.CompactSound
import GraphQL.Proofs.CompactExpansion
import GraphQL.Proofs.SpanExact
import GraphQL.Proofs.CompactAccess
import GraphQL.Proofs.RuleIndependence
import GraphQL.Proofs.DefinitionOrder
import GraphQL.Proofs.SchemaOrder
import GraphQL.Proofs.LiteralSubtypes
import GraphQL.Proofs.SessionRuns
import GraphQL.Proofs.FaultPlaces
import GraphQL.Proofs.LineEndings
import GraphQL.Proofs.TokenLines
import GraphQL.Proofs.BlockStringValue
import GraphQL.Proofs.SnippetLines
import GraphQL.Proofs.InterfaceConformance
import GraphQL.Proofs.SpreadCycles
import GraphQL.Proofs.NumberTokens
import GraphQL.Proofs.LiteralCoercion
import GraphQL.Proofs.QuotedSpelling
import GraphQL.Proofs.PossibleTypes
import GraphQL.Proofs.BlockIndentation
import GraphQL.Proofs.StringTokens
import GraphQL.Proofs.CompactEquality
import GraphQL.Proofs.QueryTrees
import GraphQL.Proofs.StreamRuns
import GraphQL.Proofs.SpreadReach
import GraphQL.Proofs.TypedWalks
import GraphQL.Proofs.EditScripts
import GraphQL.Proofs.ComparisonRuns
