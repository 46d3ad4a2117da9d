/-
# Writing a body of any framing

A body encoder takes pieces and gives the bytes to send for them. It refuses
data beyond a declared length and an end before it, and a refusal writes
nothing.

Key definitions: `BodyEncoder`, `BodyEncoder.ofFraming`, `BodyEncoder.push`,
`BodyEncoder.isFinished`.
-/
import Http1Client.Body.Chunked

namespace Http1Client

/-- The state of the writing of a body. -/
inductive BodyEncoder where
  /-- This many bytes are still due. -/
  | length (left : Nat)
  | chunked (ended : Bool)
  /-- No byte may come. -/
  | empty
  deriving DecidableEq, Repr

namespace BodyEncoder

/-- The encoder for a body that is framed so. The end of a connection frames
no request. -/
def ofFraming : Framing → Except EncodeError BodyEncoder
  | .length n => .ok (if n = 0 then empty else length n)
  | .chunked => .ok (chunked false)
  | .empty => .ok empty
  | .untilClose => .error .untilClose

def isChunked : BodyEncoder → Bool
  | chunked _ => true
  | _ => false

/-- Is the body complete as its framing wants it? -/
def isFinished : BodyEncoder → Bool
  | length left => left == 0
  | chunked ended => ended
  | empty => true

/-- The bytes to send for a piece, and the state after it. Empty data needs
none: a chunk of size zero would end the body. -/
def push (e : BodyEncoder) (p : Piece) : Except EncodeError Bytes × BodyEncoder :=
  match e, p with
  | chunked true, _ => (.ok [], e)
  | _, .data [] => (.ok [], e)
  | length left, .data b =>
    if b.length ≤ left then (.ok b, length (left - b.length))
    else (.error (.overLength (b.length - left)), e)
  | length left, .finish => (if left = 0 then .ok [] else .error (.underLength left), e)
  | chunked false, .data b => (.ok (Chunked.encodeChunk b), e)
  | chunked false, .finish => (.ok Chunked.lastChunk, chunked true)
  | empty, .data b => (.error (.overLength b.length), e)
  | empty, .finish => (.ok [], e)

end BodyEncoder
end Http1Client
