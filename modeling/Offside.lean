import Offside.Blocks
import Offside.Command
import Offside.Command.Failure
import Offside.Command.Folder
import Offside.Command.Line
import Offside.Command.Report
import Offside.CommandLine
import Offside.Cursor
import Offside.Diagnostic.Catalog
import Offside.Diagnostic.Template
import Offside.Kind
import Offside.Lines
import Offside.Listing
import Offside.Main
import Offside.Margin
import Offside.Mode
import Offside.Number
import Offside.Number.Decimal
import Offside.Program
import Offside.Proofs.Cursor
import Offside.Reader
import Offside.Scanner.Basic
import Offside.Scanner.Progress
import Offside.Scanner.Scan
import Offside.Snapshot
import Offside.Store
import Offside.Text.Basic
import Offside.Text.Literal
import Offside.Text.Quoted
import Offside.Text.Utf8
import Offside.Token
import Offside.Tokenize
import Offside.Trace
import Offside.Proofs.Moves
import Offside.Proofs.Steps
import Offside.Proofs.Line
import Offside.Proofs.Outline
import Offside.Proofs.Position
import Offside.Proofs.Tiling
import Offside.Proofs.Nesting
import Offside.Proofs.Scanner
import Offside.Proofs.Session
import Offside.Proofs.Reachable
import Offside.Proofs.Decision
import Offside.Proofs.Deferral
import Offside.Proofs.Marks
import Offside.Proofs.BlankLines
import Offside.Proofs.TextLines
import Offside.Proofs.Modes
import Offside.Proofs.Termination
import Offside.Proofs.Owed
import Offside.Proofs.Capacity
import Offside.Proofs.Log
import Offside.Proofs.LineEndings
import Offside.Proofs.Command
import Offside.Proofs.Recovery
import Offside.Proofs.CommandLine
import Offside.Proofs.Program
import Offside.Proofs.Truncation
import Offside.Proofs.Effect
import Offside.Proofs.Levels
import Offside.Proofs.Locality
import Offside.Proofs.Pieces
import Offside.Proofs.IndentWidth
import Offside.Proofs.Measure
import Offside.Proofs.Messages
import Offside.Proofs.Rounding
import Offside.Proofs.Decimal
import Offside.Proofs.Listing
import Offside.Proofs.Addition
import Offside.Proofs.Location
import Offside.Proofs.Actions
