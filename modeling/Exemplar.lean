import Exemplar.Assembly
import Exemplar.Check.Blocks
import Exemplar.Check.Body
import Exemplar.Check.Finding
import Exemplar.Check.Locals
import Exemplar.Command.Files
import Exemplar.Command.Request
import Exemplar.Command.Run
import Exemplar.Command.Usage
import Exemplar.Diagnostic.Basic
import Exemplar.Diagnostic.Code
import Exemplar.Diagnostic.Excerpt
import Exemplar.Diagnostic.Report
import Exemplar.Docs.Fences
import Exemplar.Docs.Sections
import Exemplar.Double
import Exemplar.Example.Merge
import Exemplar.Example.Pipeline
import Exemplar.Example.Settings
import Exemplar.Example.Snippets
import Exemplar.Example.Tag
import Exemplar.Example.Units
import Exemplar.Grammar.Blocks
import Exemplar.Grammar.Exprs
import Exemplar.Grammar.Fault
import Exemplar.Grammar.Reading
import Exemplar.Grammar.Stmts
import Exemplar.Grammar.Types
import Exemplar.Headers
import Exemplar.Library
import Exemplar.Main
import Exemplar.Origin
import Exemplar.Program
import Exemplar.Proofs.Check.Alike
import Exemplar.Proofs.Check.Duplicates
import Exemplar.Proofs.Check.Lexical
import Exemplar.Proofs.Check.Marks
import Exemplar.Proofs.Check.Spans
import Exemplar.Proofs.Check.Unused
import Exemplar.Proofs.Command.Verdicts
import Exemplar.Proofs.Contribution
import Exemplar.Proofs.Diagnostic.Colours
import Exemplar.Proofs.Diagnostic.Excerpt
import Exemplar.Proofs.Diagnostic.Lines
import Exemplar.Proofs.Diagnostic.Places
import Exemplar.Proofs.Diagnostic.Rows
import Exemplar.Proofs.Docs.Bodies
import Exemplar.Proofs.Docs.Fencing
import Exemplar.Proofs.Example.Addresses
import Exemplar.Proofs.Example.Canonical
import Exemplar.Proofs.Example.Capture
import Exemplar.Proofs.Example.Containment
import Exemplar.Proofs.Example.Extension
import Exemplar.Proofs.Example.Lookup
import Exemplar.Proofs.Example.Marking
import Exemplar.Proofs.Example.Outcome
import Exemplar.Proofs.Example.Rescan
import Exemplar.Proofs.Example.Reuse
import Exemplar.Proofs.Example.Wrapping
import Exemplar.Proofs.Grammar.Acceptance
import Exemplar.Proofs.Grammar.BlockExtents
import Exemplar.Proofs.Grammar.Blocks
import Exemplar.Proofs.Grammar.Braces
import Exemplar.Proofs.Grammar.Exprs
import Exemplar.Proofs.Grammar.Extents
import Exemplar.Proofs.Grammar.Items
import Exemplar.Proofs.Grammar.Joining
import Exemplar.Proofs.Grammar.Language
import Exemplar.Proofs.Grammar.Loops
import Exemplar.Proofs.Grammar.Membership
import Exemplar.Proofs.Grammar.Nesting
import Exemplar.Proofs.Grammar.Printer
import Exemplar.Proofs.Grammar.Progress
import Exemplar.Proofs.Grammar.Reader
import Exemplar.Proofs.Grammar.Recovery
import Exemplar.Proofs.Grammar.Spans
import Exemplar.Proofs.Grammar.Starts
import Exemplar.Proofs.Grammar.Stmts
import Exemplar.Proofs.Grammar.Stretches
import Exemplar.Proofs.Grammar.Takes
import Exemplar.Proofs.Grammar.Termination
import Exemplar.Proofs.Grammar.TypeTexts
import Exemplar.Proofs.Grammar.Types
import Exemplar.Proofs.Library
import Exemplar.Proofs.Placement
import Exemplar.Proofs.Resolution
import Exemplar.Proofs.Text.Positions
import Exemplar.Proofs.Token.Coverage
import Exemplar.Proofs.Token.Lines
import Exemplar.Proofs.Token.Locality
import Exemplar.Proofs.Token.Rendering
import Exemplar.Proofs.Token.Spans
import Exemplar.Proofs.Token.Words
import Exemplar.Proofs.Tree.Bare
import Exemplar.Proofs.Tree.Layout
import Exemplar.Proofs.Tree.Spans
import Exemplar.Proofs.Workspace.Assembly
import Exemplar.Proofs.Workspace.Cascades
import Exemplar.Proofs.Workspace.History
import Exemplar.Proofs.Workspace.Locations
import Exemplar.Proofs.Workspace.Order
import Exemplar.Proofs.Workspace.Refusal
import Exemplar.Proofs.Workspace.Scopes
import Exemplar.Proofs.Workspace.Warnings
import Exemplar.QualifiedName
import Exemplar.Text.Chars
import Exemplar.Text.Json
import Exemplar.Text.LineIndex
import Exemplar.Text.Rich
import Exemplar.Text.Span
import Exemplar.Token.Basic
import Exemplar.Token.Lexeme
import Exemplar.Token.Scan
import Exemplar.Toml.Document
import Exemplar.Toml.Moment
import Exemplar.Toml.Number
import Exemplar.Toml.Table
import Exemplar.Toml.Text
import Exemplar.Tree.Declaration
import Exemplar.Tree.Expr
import Exemplar.Tree.Stmt
import Exemplar.Tree.TypeExpr
import Exemplar.Value
import Exemplar.View
import Exemplar.Workspace
