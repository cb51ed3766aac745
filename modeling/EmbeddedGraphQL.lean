import EmbeddedGraphQL.CommandLine.Grammar
import EmbeddedGraphQL.CommandLine.Help
import EmbeddedGraphQL.CommandLine.Invocation
import EmbeddedGraphQL.CommandLine.Run
import EmbeddedGraphQL.Completion.Hint
import EmbeddedGraphQL.Completion.Offer
import EmbeddedGraphQL.Completion.Path
import EmbeddedGraphQL.Decimal.Binary64
import EmbeddedGraphQL.Decimal.General
import EmbeddedGraphQL.Decimal.Numeral
import EmbeddedGraphQL.Decimal.Shortest
import EmbeddedGraphQL.Document.Ast
import EmbeddedGraphQL.Document.Excerpt
import EmbeddedGraphQL.Document.NameUse
import EmbeddedGraphQL.Document.Outline
import EmbeddedGraphQL.Document.Parser
import EmbeddedGraphQL.Document.Printer
import EmbeddedGraphQL.Document.Symbol
import EmbeddedGraphQL.Embedding.Answer
import EmbeddedGraphQL.Embedding.Artifact
import EmbeddedGraphQL.Embedding.Environment
import EmbeddedGraphQL.Embedding.Extraction
import EmbeddedGraphQL.Embedding.FragmentName
import EmbeddedGraphQL.Embedding.Insertion
import EmbeddedGraphQL.Embedding.Restoration
import EmbeddedGraphQL.Embedding.Template
import EmbeddedGraphQL.Highlight.Grammar
import EmbeddedGraphQL.Highlight.Lexeme
import EmbeddedGraphQL.Highlight.SchemaText
import EmbeddedGraphQL.Highlight.Token
import EmbeddedGraphQL.Highlight.Tokenizer
import EmbeddedGraphQL.Http.Query
import EmbeddedGraphQL.Http.Site
import EmbeddedGraphQL.Json.Basic
import EmbeddedGraphQL.Json.Encoded
import EmbeddedGraphQL.Json.Reader
import EmbeddedGraphQL.Json.Shown
import EmbeddedGraphQL.Json.Writer
import EmbeddedGraphQL.Main
import EmbeddedGraphQL.Project.Config
import EmbeddedGraphQL.Project.FileTree
import EmbeddedGraphQL.Project.Loader
import EmbeddedGraphQL.Project.PathName
import EmbeddedGraphQL.Proofs.Brackets
import EmbeddedGraphQL.Proofs.OpenFrames
import EmbeddedGraphQL.Proofs.Lexemes
import EmbeddedGraphQL.Proofs.Phrases
import EmbeddedGraphQL.Proofs.Accepted
import EmbeddedGraphQL.Proofs.StrictSymbols
import EmbeddedGraphQL.Proofs.Rounds
import EmbeddedGraphQL.Schema.Basic
import EmbeddedGraphQL.Schema.Builtin
import EmbeddedGraphQL.Schema.Constant
import EmbeddedGraphQL.Schema.DefinitionRules
import EmbeddedGraphQL.Schema.DirectiveValue
import EmbeddedGraphQL.Schema.Documentation
import EmbeddedGraphQL.Schema.IntrospectionError
import EmbeddedGraphQL.Schema.OfDocument
import EmbeddedGraphQL.Schema.OfIntrospection
import EmbeddedGraphQL.Schema.Order
import EmbeddedGraphQL.Schema.Printer
import EmbeddedGraphQL.Schema.Reachable
import EmbeddedGraphQL.Schema.Soundness
import EmbeddedGraphQL.Schema.Standard
import EmbeddedGraphQL.Schema.Store
import EmbeddedGraphQL.Service.Coercion
import EmbeddedGraphQL.Service.Command
import EmbeddedGraphQL.Service.Request
import EmbeddedGraphQL.Service.Session
import EmbeddedGraphQL.Service.Wire
import EmbeddedGraphQL.Settings.Basic
import EmbeddedGraphQL.Text.Blank
import EmbeddedGraphQL.Text.CodePoint
import EmbeddedGraphQL.Text.Digit
import EmbeddedGraphQL.Text.Position
import EmbeddedGraphQL.Text.Quoted
import EmbeddedGraphQL.Text.Similar
import EmbeddedGraphQL.Text.Slice
import EmbeddedGraphQL.Text.Upper
import EmbeddedGraphQL.Text.Utf8
import EmbeddedGraphQL.Text.WordChar
import EmbeddedGraphQL.Validation.Directives
import EmbeddedGraphQL.Validation.Findings
import EmbeddedGraphQL.Validation.Fragments
import EmbeddedGraphQL.Validation.Lint
import EmbeddedGraphQL.Validation.Merging
import EmbeddedGraphQL.Validation.Operations
import EmbeddedGraphQL.Validation.Rule
import EmbeddedGraphQL.Validation.Selections
import EmbeddedGraphQL.Validation.Values
import EmbeddedGraphQL.Validation.Variables
import EmbeddedGraphQL.Validation.Violation
import EmbeddedGraphQL.Validation.Visit
import EmbeddedGraphQL.Yaml.Plain
import EmbeddedGraphQL.Yaml.Reading
import EmbeddedGraphQL.Yaml.Token
import EmbeddedGraphQL.Yaml.Writing
import EmbeddedGraphQL.Proofs.Overwriting
import EmbeddedGraphQL.Proofs.Lines
import EmbeddedGraphQL.Proofs.OrderedInsertions
import EmbeddedGraphQL.Proofs.FragmentSites
import EmbeddedGraphQL.Proofs.Placement
import EmbeddedGraphQL.Proofs.Cursors
import EmbeddedGraphQL.Proofs.TokenWalk
import EmbeddedGraphQL.Proofs.Tiling
import EmbeddedGraphQL.Proofs.MovedTokens
import EmbeddedGraphQL.Proofs.Chaining
import EmbeddedGraphQL.Proofs.RoundTrip
import EmbeddedGraphQL.Proofs.Coverage
import EmbeddedGraphQL.Proofs.Shorthands
import EmbeddedGraphQL.Proofs.Untouched
import EmbeddedGraphQL.Proofs.Owners
import EmbeddedGraphQL.Proofs.TokenPlaces
import EmbeddedGraphQL.Proofs.RestoredStyles
import EmbeddedGraphQL.Proofs.RestoredTemplates
import EmbeddedGraphQL.Proofs.Agreement
import EmbeddedGraphQL.Proofs.SymbolRuns
import EmbeddedGraphQL.Proofs.Openings
import EmbeddedGraphQL.Proofs.TextRuns
import EmbeddedGraphQL.Proofs.ArgumentRuns
import EmbeddedGraphQL.Proofs.BraceOwners
import EmbeddedGraphQL.Proofs.SelectionOwners
import EmbeddedGraphQL.Proofs.CutTexts
import EmbeddedGraphQL.Proofs.Spans
import EmbeddedGraphQL.Proofs.Loading
import EmbeddedGraphQL.Proofs.ExpectedFaults
import EmbeddedGraphQL.Proofs.Fallback
import EmbeddedGraphQL.Proofs.Freshness
import EmbeddedGraphQL.Proofs.LedgerRuns
import EmbeddedGraphQL.Proofs.ShownDiagnostics
import EmbeddedGraphQL.Proofs.AnyTokens
import EmbeddedGraphQL.Proofs.Terminated
import EmbeddedGraphQL.Proofs.GreedySelection
import EmbeddedGraphQL.Proofs.Identity
import EmbeddedGraphQL.Proofs.ClosingQuotes
import EmbeddedGraphQL.Proofs.SchemaTokens
import EmbeddedGraphQL.Proofs.Words
import EmbeddedGraphQL.Proofs.Narrowing
import EmbeddedGraphQL.Proofs.StoreVersions
import EmbeddedGraphQL.Proofs.IgnoredText
import EmbeddedGraphQL.Proofs.KeyedLists
import EmbeddedGraphQL.Proofs.RequestSources
import EmbeddedGraphQL.Proofs.CoherentSchemas
import EmbeddedGraphQL.Proofs.LoadedSchemas
import EmbeddedGraphQL.Proofs.SelectedTypes
import EmbeddedGraphQL.Proofs.Positions
import EmbeddedGraphQL.Proofs.LineBuckets
import EmbeddedGraphQL.Proofs.OffsetMap
