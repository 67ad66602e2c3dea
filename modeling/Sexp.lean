import Sexp.Datum.Inspect
import Sexp.Datum.Render
import Sexp.Datum.Shape
import Sexp.Json.Canonical
import Sexp.Json.Datum
import Sexp.Json.Limit
import Sexp.Json.Token
import Sexp.Proofs.Chunking
import Sexp.Proofs.Depth
import Sexp.Proofs.Derivation
import Sexp.Proofs.Finality
import Sexp.Proofs.Layout
import Sexp.Proofs.Lines
import Sexp.Proofs.Lookahead
import Sexp.Proofs.OnePass
import Sexp.Proofs.Promptness
import Sexp.Proofs.ReadAll
import Sexp.Proofs.ReadFailure
import Sexp.Proofs.Remaining
import Sexp.Proofs.Rendering
import Sexp.Proofs.RoundTrip
import Sexp.Proofs.Scanning
import Sexp.Proofs.Validity
import Sexp.Proofs.Viability
import Sexp.Proofs.WriteBack
import Sexp.Reader.Grammar
import Sexp.Reader.OfTokens
import Sexp.Reader.Session
import Sexp.Token.OnePass
import Sexp.Proofs.Concatenation
import Sexp.Proofs.Denotation
import Sexp.Proofs.Encoding
import Sexp.Proofs.Levels
import Sexp.Proofs.Progress
import Sexp.Proofs.Yielding
import Sexp.Proofs.Exchange
import Sexp.Proofs.Chains
import Sexp.Proofs.Inspection
import Sexp.Proofs.Renewal
import Sexp.Proofs.Spelling
import Sexp.Guarded.Lexer
import Sexp.Guarded.Reader
import Sexp.Proofs.Polling
import Sexp.Proofs.LexerSafety
import Sexp.Proofs.ReaderSafety
