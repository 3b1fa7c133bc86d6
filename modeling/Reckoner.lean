import Reckoner.Text.Quoted
import Reckoner.Lexicon
import Reckoner.Error
import Reckoner.Reals.Term
import Reckoner.Settings
import Reckoner.Dual
import Reckoner.Expression
import Reckoner.Evaluation
import Reckoner.Codec.Reader
import Reckoner.Desk
import Reckoner.Shipped
import Reckoner.Proofs.Fields
import Reckoner.Proofs.Lookahead
import Reckoner.Proofs.Leaves
import Reckoner.Proofs.Passes
import Reckoner.Proofs.Sharing
import Reckoner.Proofs.Carrying
import Reckoner.Proofs.RoundTrip
import Reckoner.Proofs.Alike
import Reckoner.Proofs.Consumption
import Reckoner.Proofs.History
import Reckoner.Proofs.Restore
import Reckoner.Proofs.Agreement
import Reckoner.Proofs.BinaryValue
import Reckoner.Proofs.Rounding
import Reckoner.Proofs.Accuracy
import Reckoner.Proofs.Failures
import Reckoner.Proofs.Decoding
import Reckoner.Proofs.Collapse
import Reckoner.Proofs.Drawing
import Reckoner.Proofs.IntegerTest
import Reckoner.Proofs.ExactFunctions
import Reckoner.Proofs.Meaning
import Reckoner.Proofs.Leniency
import Reckoner.Proofs.Tidiness
import Reckoner.Proofs.Closing
import Reckoner.Proofs.SpelledOut
import Reckoner.Proofs.DecodedNumbers
import Reckoner.Proofs.ExactDomains
import Reckoner.Proofs.Captions
import Reckoner.Proofs.Words
import Reckoner.Proofs.Retyping
import Reckoner.Proofs.DomainErrors
import Reckoner.Proofs.DecimalText
import Reckoner.Proofs.DecimalRounding
import Reckoner.Proofs.Rendering
import Reckoner.Proofs.ClosedOff
import Reckoner.Proofs.Comparison
import Reckoner.Proofs.Juxtaposition
import Reckoner.Proofs.Undo
import Reckoner.Proofs.ExplicitStack
import Reckoner.Proofs.Truncation
import Reckoner.Proofs.ExactRoots
import Reckoner.Proofs.ExactSize
import Reckoner.Proofs.ExactBound
import Reckoner.Proofs.Resuming
import Reckoner.Proofs.Progress
import Reckoner.Proofs.Fallback
import Reckoner.Proofs.RepeatedSquaring
