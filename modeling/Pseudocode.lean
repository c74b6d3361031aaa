import Pseudocode.Json.Reader
import Pseudocode.Json.Writer
import Pseudocode.Main
import Pseudocode.Measure.Coverage
import Pseudocode.Measure.Round
import Pseudocode.Measure.Timing
import Pseudocode.Session.Desk
import Pseudocode.Token.Kept
import Pseudocode.Token.Lexer
import Pseudocode.Tree.Parser
import Pseudocode.Tree.Tables
import Pseudocode.Proofs.Grammar
import Pseudocode.Tree.Path
import Pseudocode.Proofs.ReaderSound
import Pseudocode.Proofs.ReaderComplete
import Pseudocode.Proofs.TableReader
import Pseudocode.Proofs.Jump
import Pseudocode.Proofs.Safety
import Pseudocode.Proofs.Direct
import Pseudocode.Proofs.Names
import Pseudocode.Proofs.Occurrence
import Pseudocode.Proofs.Capture
import Pseudocode.Proofs.Layout
import Pseudocode.Proofs.Block
import Pseudocode.Proofs.Indentation
import Pseudocode.Proofs.Conservation
import Pseudocode.Proofs.Program
import Pseudocode.Proofs.RoundTrip
import Pseudocode.Proofs.Sequence
import Pseudocode.Proofs.HandBack
import Pseudocode.Proofs.Home
import Pseudocode.Proofs.LexerPast
import Pseudocode.Proofs.Processing
import Pseudocode.Proofs.Replay
import Pseudocode.Proofs.Clearing
import Pseudocode.Proofs.Attachment
import Pseudocode.Proofs.LogicalLine
import Pseudocode.Proofs.Typing
import Pseudocode.Proofs.Showing
import Pseudocode.Proofs.Grouping
import Pseudocode.Proofs.LoneExpression
import Pseudocode.Proofs.Comparing
import Pseudocode.Proofs.Search
import Pseudocode.Proofs.Account
import Pseudocode.Proofs.UnwrittenLine
import Pseudocode.Proofs.Stretching
import Pseudocode.Proofs.Collected
import Pseudocode.Proofs.Fingerprint
import Pseudocode.Proofs.Plateau
import Pseudocode.Proofs.Rounds
