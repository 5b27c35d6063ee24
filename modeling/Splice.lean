import Splice.Body.Closing
import Splice.Body.Context
import Splice.Body.Lower
import Splice.Body.Rejection
import Splice.Body.Resolve
import Splice.Body.Scan
import Splice.Body.Segment
import Splice.CommandLine.FileTree
import Splice.CommandLine.Json
import Splice.CommandLine.Options
import Splice.CommandLine.Report
import Splice.CommandLine.Run
import Splice.Decimal.Binary64
import Splice.Decimal.Notation
import Splice.Decimal.Shortest
import Splice.Diagnostic
import Splice.Failure
import Splice.Grammar.Automaton
import Splice.Grammar.Lexeme
import Splice.Grammar.LexemeLength
import Splice.Grammar.Lexer
import Splice.Grammar.PackedTable
import Splice.Grammar.Production
import Splice.Grammar.Reader
import Splice.Grammar.Symbol
import Splice.Grammar.Terminal
import Splice.Grammar.Token
import Splice.Literal.Constant
import Splice.Literal.Escape
import Splice.Literal.Interpolation
import Splice.Literal.Quote
import Splice.Literal.Value
import Splice.Main
import Splice.Parse.Fragment
import Splice.Parse.Source
import Splice.Parse.SyntaxError
import Splice.Parse.Tree
import Splice.Proofs.Body.Alike
import Splice.Proofs.Body.Alternation
import Splice.Proofs.Body.Anchored
import Splice.Proofs.Body.Atomic
import Splice.Proofs.Body.Balanced
import Splice.Proofs.Body.BareNames
import Splice.Proofs.Body.Closing
import Splice.Proofs.Body.Enclosed
import Splice.Proofs.Body.Lowering
import Splice.Proofs.Body.Moved
import Splice.Proofs.Body.Positions
import Splice.Proofs.Body.Preference
import Splice.Proofs.Body.Rejecting
import Splice.Proofs.Body.Scanning
import Splice.Proofs.Body.Spans
import Splice.Proofs.CommandLine.Console
import Splice.Proofs.CommandLine.Isolation
import Splice.Proofs.CommandLine.Stopping
import Splice.Proofs.Decimal.Digits
import Splice.Proofs.Decimal.Reading
import Splice.Proofs.Decimal.Rounding
import Splice.Proofs.Decimal.Shortest
import Splice.Proofs.Decimal.Written
import Splice.Proofs.Embedding.Arguments
import Splice.Proofs.Embedding.Bodies
import Splice.Proofs.Failing
import Splice.Proofs.Grammar.Completeness
import Splice.Proofs.Grammar.Decoding
import Splice.Proofs.Grammar.DecodingOrder
import Splice.Proofs.Grammar.Derivation
import Splice.Proofs.Grammar.HostTables
import Splice.Proofs.Grammar.Parsing
import Splice.Proofs.Grammar.Reading
import Splice.Proofs.Grammar.Sorted
import Splice.Proofs.Grammar.Steps
import Splice.Proofs.Grammar.Tables
import Splice.Proofs.Grammar.Traces
import Splice.Proofs.Grammar.Viable
import Splice.Proofs.Lexing.Blank
import Splice.Proofs.Lexing.Cutting
import Splice.Proofs.Lexing.Local
import Splice.Proofs.Lexing.Moved
import Splice.Proofs.Lexing.Order
import Splice.Proofs.Lexing.Shapes
import Splice.Proofs.Lexing.Spaced
import Splice.Proofs.Lexing.Spelling
import Splice.Proofs.Literal.Encoding
import Splice.Proofs.Literal.Items
import Splice.Proofs.Literal.Pairing
import Splice.Proofs.Literal.Places
import Splice.Proofs.Literal.Quoting
import Splice.Proofs.Literal.Surroundings
import Splice.Proofs.Literal.Tokens
import Splice.Proofs.Parse.FirstFault
import Splice.Proofs.Parse.Reported
import Splice.Proofs.Parse.Trees
import Splice.Proofs.Parse.Unexpected
import Splice.Proofs.Phrase.Basic
import Splice.Proofs.Phrase.Carried
import Splice.Proofs.Phrase.Derived
import Splice.Proofs.Phrase.Located
import Splice.Proofs.Phrase.Moved
import Splice.Proofs.Phrase.Order
import Splice.Proofs.Phrase.Parsed
import Splice.Proofs.Phrase.Parts
import Splice.Proofs.Phrase.Spaced
import Splice.Proofs.Phrase.Surface
import Splice.Proofs.Phrase.TypeOnly
import Splice.Proofs.Printing.Arguments
import Splice.Proofs.Printing.Constants
import Splice.Proofs.Printing.Numbers
import Splice.Proofs.Printing.Operators
import Splice.Proofs.Printing.Placement
import Splice.Proofs.Printing.RoundTrip
import Splice.Proofs.Printing.Statements
import Splice.Proofs.Printing.Types
import Splice.Proofs.Rewrite.Again
import Splice.Proofs.Rewrite.Conservation
import Splice.Proofs.Rewrite.Conserves
import Splice.Proofs.Rewrite.Depth
import Splice.Proofs.Rewrite.Inserted
import Splice.Proofs.Rewrite.LiteralFree
import Splice.Proofs.Rewrite.Moved
import Splice.Proofs.Rewrite.Rejected
import Splice.Proofs.Rewrite.Reports
import Splice.Proofs.Rewrite.Sessions
import Splice.Proofs.Rewrite.Sites
import Splice.Proofs.Rewrite.SourceOrder
import Splice.Proofs.Rewrite.Spans
import Splice.Proofs.Rewrite.Unsited
import Splice.Proofs.Rewrite.Visits
import Splice.Proofs.Syntax.Nodes
import Splice.Proofs.Syntax.Sorts
import Splice.Rewrite.Expr
import Splice.Rewrite.Program
import Splice.Rewrite.Walk
import Splice.Source.Loc
import Splice.Source.PlacedText
import Splice.Source.Span
import Splice.Syntax.Kind
import Splice.Syntax.Node
import Splice.Syntax.Operator
import Splice.Syntax.Printer
import Splice.Syntax.TypeForm
import Splice.Text.Basic
import Splice.Text.Blank
import Splice.Text.Digit
import Splice.Text.Printable
import Splice.Text.Quoted
