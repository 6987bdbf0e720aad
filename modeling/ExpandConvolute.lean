import ExpandConvolute.Alphabet.Symbol
import ExpandConvolute.Code.Batch
import ExpandConvolute.Convolution.Recurrence
import ExpandConvolute.Draws
import ExpandConvolute.Parameters.Text
import ExpandConvolute.Proofs.Code.EntryPoints
import ExpandConvolute.Proofs.Code.Linearity
import ExpandConvolute.Proofs.Alphabet.Binary
import ExpandConvolute.Proofs.Alphabet.Laws
import ExpandConvolute.Proofs.Convolution.Lossless
import ExpandConvolute.Proofs.Expansion.DrawOrder
import ExpandConvolute.Proofs.Session.Refuses
import ExpandConvolute.Proofs.Code.Accepted
import ExpandConvolute.Proofs.Code.Refusals
import ExpandConvolute.Proofs.Code.Naturality
import ExpandConvolute.Proofs.Code.PassThrough
import ExpandConvolute.Proofs.Code.Schedules
import ExpandConvolute.Proofs.BinaryField.Irreducible
import ExpandConvolute.Proofs.Convolution.Bounds
import ExpandConvolute.Proofs.Convolution.Causal
import ExpandConvolute.Proofs.Calls
import ExpandConvolute.Proofs.Convolution.Calls
import ExpandConvolute.Proofs.Convolution.Octet
import ExpandConvolute.Proofs.Expansion.Calls
import ExpandConvolute.Proofs.Expansion.Strata
import ExpandConvolute.Proofs.Code.Acceptance
import ExpandConvolute.Proofs.Code.Sizes
import ExpandConvolute.Proofs.Code.Trace
import ExpandConvolute.Proofs.Code.Keystreams
import ExpandConvolute.Proofs.Parameters.RoundTrip
