import Stylesheet.Check.AtRule
import Stylesheet.Check.Checker
import Stylesheet.Check.Indentation
import Stylesheet.Check.Property
import Stylesheet.Check.Scope
import Stylesheet.Check.Selector
import Stylesheet.Cli
import Stylesheet.Config
import Stylesheet.Config.Read
import Stylesheet.Cursor
import Stylesheet.Finding
import Stylesheet.Json.Quote
import Stylesheet.Json.Value
import Stylesheet.Knowledge
import Stylesheet.Lint
import Stylesheet.Main
import Stylesheet.Pattern
import Stylesheet.Position
import Stylesheet.Prelude
import Stylesheet.Scan.Payload
import Stylesheet.Scan.Rule
import Stylesheet.Scan.Run
import Stylesheet.Scan.State
import Stylesheet.Scan.Window
import Stylesheet.Selector
import Stylesheet.Source
import Stylesheet.Text.Age
import Stylesheet.Text.Alphabetic
import Stylesheet.Text.Blank
import Stylesheet.Text.Escape
import Stylesheet.Text.Lines
import Stylesheet.Text.Mark
import Stylesheet.Text.Numeral
import Stylesheet.Text.Offset
import Stylesheet.Text.Quoted
import Stylesheet.Text.Ranges
import Stylesheet.Text.WordChar
import Stylesheet.Token
import Stylesheet.Token.Json
import Stylesheet.Tokenize
import Stylesheet.Utf8
import Stylesheet.Vocabulary
import Stylesheet.Proofs.Position
import Stylesheet.Proofs.Cell
import Stylesheet.Proofs.Window
import Stylesheet.Proofs.Token
import Stylesheet.Proofs.Scan.Claim
import Stylesheet.Proofs.Scan.Coherence
import Stylesheet.Proofs.Scan.Consistency
import Stylesheet.Proofs.Scan.Tiling
import Stylesheet.Proofs.Scan.Coverage
import Stylesheet.Proofs.Tree
import Stylesheet.Proofs.Scan.Forest
import Stylesheet.Proofs.Scan.Growth
import Stylesheet.Proofs.Tokenize
import Stylesheet.Proofs.Utf8
import Stylesheet.Proofs.Source
import Stylesheet.Proofs.Printing
import Stylesheet.Proofs.Payload
import Stylesheet.Proofs.Scan.Reading
import Stylesheet.Proofs.Scan.Findings
import Stylesheet.Proofs.RoundTrip
import Stylesheet.Proofs.Likeness
import Stylesheet.Proofs.Scan.Past
import Stylesheet.Proofs.Scan.Alike
import Stylesheet.Proofs.Scan.Lockstep
import Stylesheet.Proofs.Transparency
import Stylesheet.Proofs.Relocation
import Stylesheet.Proofs.Scan.Stuck
import Stylesheet.Proofs.Scan.Following
import Stylesheet.Proofs.Scan.Openers
import Stylesheet.Proofs.Nesting
import Stylesheet.Proofs.Concatenation
import Stylesheet.Proofs.Linting
import Stylesheet.Proofs.Scoping
import Stylesheet.Proofs.Report
import Stylesheet.Proofs.ReadFailure
import Stylesheet.Proofs.Scan.Uncommented
import Stylesheet.Proofs.Scan.Finished
import Stylesheet.Proofs.Excerpt
import Stylesheet.Proofs.SourceText
import Stylesheet.Proofs.Breaks.Text
import Stylesheet.Proofs.Breaks.Window
import Stylesheet.Proofs.Breaks.Token
import Stylesheet.Proofs.Breaks.Rule
import Stylesheet.Proofs.Breaks.Run
import Stylesheet.Proofs.Breaks.Pattern
import Stylesheet.Proofs.Breaks.Check
import Stylesheet.Proofs.Breaks.Source
import Stylesheet.Proofs.Breaks.Lint
import Stylesheet.Proofs.LineEndings
import Stylesheet.Proofs.Indentation
import Stylesheet.Proofs.Brackets
import Stylesheet.Proofs.Quoting
import Stylesheet.Proofs.Scan.Braces
import Stylesheet.Proofs.Matching
import Stylesheet.Proofs.Location
import Stylesheet.Proofs.DoubledPairs
import Stylesheet.Proofs.HeaderText
import Stylesheet.Proofs.Scan.Stack
import Stylesheet.Proofs.Ending
import Stylesheet.Proofs.Scan.Blanks
import Stylesheet.Proofs.Parentheses
import Stylesheet.Proofs.Knowledge
import Stylesheet.Proofs.ByteOrder
import Stylesheet.Proofs.Configuration
import Stylesheet.Proofs.BlankRuns
import Stylesheet.Proofs.Silencing
import Stylesheet.Proofs.Stretches
import Stylesheet.Proofs.PairScan
import Stylesheet.Proofs.Pattern
import Stylesheet.Proofs.Preludes
import Stylesheet.Proofs.Scan.Course
import Stylesheet.Proofs.Scan.Editing
