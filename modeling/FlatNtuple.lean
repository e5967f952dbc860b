import FlatNtuple.Binary.Hypot
import FlatNtuple.Binary.Remainder
import FlatNtuple.Decimal.Layout
import FlatNtuple.Decimal.Numeral
import FlatNtuple.SortedMap
import FlatNtuple.Text.Blank
import FlatNtuple.Json.Decode
import FlatNtuple.Json.Quoted
import FlatNtuple.Json.Reader
import FlatNtuple.Expr.Parser
import FlatNtuple.Expr.Printer
import FlatNtuple.Expr.Scanner
import FlatNtuple.Object.Accessor
import FlatNtuple.Object.Document
import FlatNtuple.Event.Document
import FlatNtuple.Meaning.Compiled
import FlatNtuple.Function.Library
import FlatNtuple.Branch.Ntuple
import FlatNtuple.Selection.Counter
import FlatNtuple.Selection.Document
import FlatNtuple.Jet.Shift
import FlatNtuple.CommandLine
import FlatNtuple.Main
import FlatNtuple.Proofs.Expr.Completeness
import FlatNtuple.Proofs.Expr.RoundTrip
import FlatNtuple.Proofs.Expr.DepthLimit
import FlatNtuple.Proofs.Expr.FirstError
import FlatNtuple.Proofs.Expr.Ungrouped
import FlatNtuple.Proofs.Expr.Segments
import FlatNtuple.Proofs.Expr.Spacing
import FlatNtuple.Proofs.Expr.Quoting
import FlatNtuple.Proofs.Meaning.Typing
import FlatNtuple.Proofs.Meaning.Interpreter
import FlatNtuple.Proofs.Meaning.Daughter
import FlatNtuple.Proofs.Meaning.CallForm
import FlatNtuple.Proofs.Meaning.Missing
import FlatNtuple.Proofs.Function.Memo
import FlatNtuple.Proofs.Function.Layers
import FlatNtuple.Proofs.Function.Failure
import FlatNtuple.Proofs.Function.Erasure
import FlatNtuple.Proofs.Branch.Sharing
import FlatNtuple.Proofs.Branch.Rows
import FlatNtuple.Proofs.Branch.Merge
import FlatNtuple.Proofs.Binary.Order
import FlatNtuple.Proofs.Branch.Resolution
import FlatNtuple.Proofs.Expr.Position
import FlatNtuple.Proofs.Expr.LongestMatch
import FlatNtuple.Proofs.Expr.Overrun
import FlatNtuple.Proofs.Jet.Nearest
import FlatNtuple.Proofs.Selection.Embedder
import FlatNtuple.Proofs.Selection.RelativeIsolation
import FlatNtuple.Proofs.Selection.Counter
import FlatNtuple.Proofs.Function.Leading
import FlatNtuple.Proofs.Jet.Shift
import FlatNtuple.Proofs.Object.Radiation
import FlatNtuple.Proofs.Function.Overflow
import FlatNtuple.Proofs.Branch.Document
import FlatNtuple.Function.Overflow
