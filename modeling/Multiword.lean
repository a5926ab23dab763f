import Multiword.Positional
import Multiword.Session.Run
import Multiword.Proofs.Integer.Bits
import Multiword.Proofs.Integer.Bytes
import Multiword.Proofs.Integer.Divisor
import Multiword.Proofs.Integer.DivisorGrowth
import Multiword.Proofs.Integer.DivisorRounds
import Multiword.Proofs.Integer.Encoding
import Multiword.Proofs.Integer.Expression
import Multiword.Proofs.Integer.Granted
import Multiword.Proofs.Integer.Invariant
import Multiword.Proofs.Integer.Native
import Multiword.Proofs.Integer.Operator
import Multiword.Proofs.Integer.Order
import Multiword.Proofs.Integer.Product
import Multiword.Proofs.Integer.Query
import Multiword.Proofs.Integer.Quiet
import Multiword.Proofs.Integer.Quotient
import Multiword.Proofs.Integer.QuotientSteps
import Multiword.Proofs.Integer.Shift
import Multiword.Proofs.Integer.Sound
import Multiword.Proofs.Integer.Storage
import Multiword.Proofs.Integer.Sum
import Multiword.Proofs.Run.Attempt
import Multiword.Proofs.Run.Commit
import Multiword.Proofs.Run.Conclusion
import Multiword.Proofs.Run.Ending
import Multiword.Proofs.Run.Heed
import Multiword.Proofs.Run.Record
import Multiword.Proofs.Run.Success
import Multiword.Proofs.Sampling
import Multiword.Proofs.Sampling.Block
import Multiword.Proofs.Sampling.Ending
import Multiword.Proofs.Sampling.Range
import Multiword.Proofs.Sampling.Retry
import Multiword.Proofs.Sampling.Signed
import Multiword.Proofs.Sampling.Uniform
import Multiword.Proofs.Session.Capacity
import Multiword.Proofs.Session.Command
import Multiword.Proofs.Session.Division
import Multiword.Proofs.Session.Run
import Multiword.Proofs.Session.Safety
import Multiword.Proofs.Session.Shift
import Multiword.Proofs.Text.Capacity
import Multiword.Proofs.Text.Numeral
import Multiword.Proofs.Text.Parse
import Multiword.Proofs.Text.Print
import Multiword.Proofs.Text.Reading
import Multiword.Proofs.Text.RoundTrip
import Multiword.Proofs.Words.Bits
import Multiword.Proofs.Words.Bytes
import Multiword.Proofs.Words.Carry
import Multiword.Proofs.Words.InPlace
import Multiword.Proofs.Words.Length
import Multiword.Proofs.Words.Order
import Multiword.Proofs.Words.Product
import Multiword.Proofs.Words.Quotient
import Multiword.Proofs.Words.Shift
