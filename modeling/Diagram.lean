import Diagram.CommandLine.Run
import Diagram.Diagnostic.Json
import Diagram.Main
import Diagram.Report
import Diagram.Settings.Json
import Diagram.Tree.Equivalence
import Diagram.Tree.Outline
import Diagram.Proofs.Sound.Progress
import Diagram.Proofs.Twin.Append
import Diagram.Proofs.Twin.Failing
import Diagram.Proofs.Ahead.Node
import Diagram.Proofs.Document.Text
import Diagram.Proofs.Document.Container
import Diagram.Proofs.Document.RoundTrip
import Diagram.Proofs.Twin.Nesting
import Diagram.Proofs.Twin.Raising
import Diagram.Proofs.Twin.Standalone
import Diagram.Proofs.Depth.Bounded
import Diagram.Proofs.Clean.Coverage
import Diagram.Proofs.Truncation.Parse
import Diagram.Proofs.Truncation.Skipping
import Diagram.Proofs.Json.Diagnostic
import Diagram.Proofs.Diagnostics.Skipped
import Diagram.Proofs.Keys.Parse
import Diagram.Proofs.Normal.Parse
import Diagram.Proofs.Quoting.Parse
import Diagram.Proofs.Literal
import Diagram.Proofs.Report
import Diagram.Proofs.Run
import Diagram.Proofs.Separator.Parse
import Diagram.Proofs.Block.Unclosed
import Diagram.Proofs.Chain.Parse
import Diagram.Proofs.Written.Escapes
import Diagram.Proofs.Written.Verbatim
import Diagram.Proofs.Indentation
import Diagram.Proofs.Comments
import Diagram.Proofs.Tape.Head
import Diagram.Proofs.Position.Room
import Diagram.Proofs.Equivalence
import Diagram.Proofs.Order.Parse
