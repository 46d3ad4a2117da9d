import Http1Client.Build
import Http1Client.Describe
import Http1Client.Proofs.Body.ChunkGrammar
import Http1Client.Proofs.Head.Taking
import Http1Client.Proofs.Body.Reading
import Http1Client.Proofs.Segmentation
import Http1Client.Proofs.Arrival
import Http1Client.Proofs.Reception
import Http1Client.Proofs.Delivery
import Http1Client.Proofs.Opening
import Http1Client.Proofs.Course
import Http1Client.Proofs.Reuse
import Http1Client.Proofs.Truncation
import Http1Client.Proofs.Body.Writing
import Http1Client.Proofs.Body.RoundTrip
import Http1Client.Proofs.Head.Printing
import Http1Client.Proofs.Outbox
import Http1Client.Proofs.Strides
import Http1Client.Proofs.Holdings
import Http1Client.Proofs.Cancellation
import Http1Client.Proofs.Link
import Http1Client.Proofs.Promise
import Http1Client.Proofs.Keeping
import Http1Client.Proofs.Emission
import Http1Client.Proofs.Head.Announcing
import Http1Client.Proofs.Background.Working
import Http1Client.Proofs.Background.Service
import Http1Client.Proofs.Background.Sequence
import Http1Client.Proofs.Background.Standing
import Http1Client.Proofs.Background.Cancelling
import Http1Client.Proofs.Background.Interleaving
import Http1Client.Proofs.Body.Acceptance
import Http1Client.Proofs.Head.ReadBack
import Http1Client.Proofs.Head.Delimiting
import Http1Client.Proofs.Salvage
import Http1Client.Proofs.Buffering
import Http1Client.Proofs.PassingOver
import Http1Client.Proofs.FixedLength
import Http1Client.Proofs.ExactReads
import Http1Client.Proofs.Progress
import Http1Client.Proofs.Body.Packing
import Http1Client.Proofs.Flushing
import Http1Client.Proofs.Head.Withholding
import Http1Client.Proofs.Body.Breaking
import Http1Client.Proofs.Forfeit
import Http1Client.Proofs.Uri.Authority
import Http1Client.Proofs.Uri.Spelling
import Http1Client.Proofs.Head.RequestLine
import Http1Client.Proofs.Head.Block
import Http1Client.Proofs.Dialling
import Http1Client.Proofs.BodyReader
import Http1Client.Proofs.InPhase
