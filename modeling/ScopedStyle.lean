import ScopedStyle.Component
import ScopedStyle.Document.Cascade
import ScopedStyle.Interpolation
import ScopedStyle.Rule.Printer
import ScopedStyle.Proofs.Nested.Layout
import ScopedStyle.Proofs.Rule.RoundTrip
import ScopedStyle.Proofs.Document.Selection
import ScopedStyle.Proofs.Document.Sheets
import ScopedStyle.Proofs.Document.Consistency
import ScopedStyle.Proofs.Document.Cascade
import ScopedStyle.Proofs.Document.Structural
import ScopedStyle.Proofs.Nested.Root
import ScopedStyle.Proofs.Scope
import ScopedStyle.Proofs.Engine.Classes
import ScopedStyle.Proofs.Document.SheetStore
import ScopedStyle.Proofs.Nested.OneLine
import ScopedStyle.Proofs.Engine.Sheet
import ScopedStyle.Proofs.Nested.Declarations
import ScopedStyle.Proofs.Rule.Spans
import ScopedStyle.Proofs.Text.Words
import ScopedStyle.Proofs.Entries
import ScopedStyle.Proofs.Node
import ScopedStyle.Proofs.Document.ClassRule
import ScopedStyle.Proofs.Component
import ScopedStyle.Proofs.Nested.Acts
import ScopedStyle.Proofs.Nested.Closing
import ScopedStyle.Proofs.Nested.History
import ScopedStyle.Proofs.Token.Regular
import ScopedStyle.Proofs.Token.Tiling
import ScopedStyle.Proofs.Document.Frame
import ScopedStyle.Proofs.Lint.Dropped
import ScopedStyle.Proofs.Document.Attached
import ScopedStyle.Proofs.Engine.Ledger
import ScopedStyle.Proofs.Engine.Shared
import ScopedStyle.Proofs.Document.Subtree
import ScopedStyle.Proofs.Rule.Descendant
import ScopedStyle.Proofs.Rule.Values
import ScopedStyle.Proofs.Props
import ScopedStyle.Proofs.Document.Adoption
import ScopedStyle.Proofs.Rendering
import ScopedStyle.Proofs.Document.Move
import ScopedStyle.Proofs.RuleList
import ScopedStyle.Proofs.Document.Renumbering
import ScopedStyle.Proofs.Interpolation.SlotBody
import ScopedStyle.Proofs.Interpolation.Pieces
import ScopedStyle.Proofs.Template
import ScopedStyle.Proofs.Lint.Matching
import ScopedStyle.Proofs.Lint.Braces
