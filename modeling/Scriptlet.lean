import Scriptlet.Main
import Scriptlet.Proofs.ByText.Session
import Scriptlet.Proofs.Lexical.Segments
import Scriptlet.Proofs.Parser.Acceptance
import Scriptlet.Proofs.Parser.RoundTrip
import Scriptlet.Proofs.Run.Adequacy
import Scriptlet.Proofs.Run.Caller
import Scriptlet.Proofs.Run.ForLoop
import Scriptlet.Proofs.Run.Isolation
import Scriptlet.Proofs.Run.Place
import Scriptlet.Proofs.Session.Blame
import Scriptlet.Proofs.Session.Pieces
import Scriptlet.Proofs.Session.Rejection
import Scriptlet.Proofs.Session.Layout
import Scriptlet.Proofs.Run.Course
import Scriptlet.Proofs.Run.Rooted
import Scriptlet.Proofs.Session.Rooted
import Scriptlet.Proofs.Parser.Built
import Scriptlet.Proofs.Parser.Ending
import Scriptlet.Proofs.Parser.Prefix
import Scriptlet.Proofs.Parser.Unended
import Scriptlet.Proofs.Parser.Kept
import Scriptlet.Proofs.Run.Reader
import Scriptlet.Proofs.Run.Refit
import Scriptlet.Proofs.Run.Delivery
import Scriptlet.Proofs.Command.Prompt
import Scriptlet.Proofs.Parser.Recovery
import Scriptlet.Proofs.Parser.Cascade
import Scriptlet.Proofs.Run.Declaring
import Scriptlet.Proofs.Lexical.Lines
import Scriptlet.Proofs.Run.Environments
import Scriptlet.Proofs.Run.Streams
import Scriptlet.Proofs.Run.Provenance
import Scriptlet.Proofs.Session.Provenance
import Scriptlet.Proofs.Lexical.Lexica
import Scriptlet.Proofs.Number.Printed
import Scriptlet.Proofs.Parser.MissingSemicolon
import Scriptlet.Proofs.Run.Calls
import Scriptlet.Proofs.Session.Lines
