/-
# Sending a request

A sender encodes requests into a buffer and flushes the buffer to a wire. The
buffer is let go of only when the wire has taken all of it, and then the wire
itself is flushed. `Flush` is how far one flush has come, so that a flush that
is not ready is a value that can be taken up again or be given up.

Key definitions: `Sender`, `Sender.putHead`, `Sender.putBody`, `Flush`,
`Sender.pollFlush`, `writeAll`.
-/
import Http1Client.Outgoing
import Http1Client.Wire

namespace Http1Client

/-- A writer of requests with its buffer. -/
structure Sender where
  /-- The most bytes that go into one chunk; zero counts as one. -/
  segment : Nat
  buffer : Bytes := []
  outgoing : Outgoing := {}
  deriving DecidableEq

/-- Cuts a body into segments of `n` bytes, the last one maybe shorter. Zero
counts as one. -/
def segments (n : Nat) (b : Bytes) : List Bytes :=
  if b = [] then [] else b.take (max n 1) :: segments n (b.drop (max n 1))
termination_by b.length
decreasing_by
  next h =>
    have := List.length_pos_iff.mpr h
    simp only [List.length_drop]
    omega

namespace Sender

/-- Encodes a head into the buffer. -/
def putHead (s : Sender) (h : RequestHead) (framing : Framing) :
    Except EncodeError Unit × Sender :=
  match s.outgoing.pushHead h framing with
  | (.error e, o) => (.error e, { s with outgoing := o })
  | (.ok bytes, o) => (.ok (), { s with buffer := s.buffer ++ bytes, outgoing := o })

/-- The pieces that a whole body goes out in: segments if it is chunked, else
one piece, and the end. -/
def pieces (s : Sender) (body : Bytes) : List Piece :=
  (if s.outgoing.isChunked then (segments s.segment body).map Piece.data
    else if body = [] then [] else [.data body]) ++ [.finish]

/-- Encodes a whole body into the buffer. -/
def putBody (s : Sender) (body : Bytes) : Except EncodeError Unit × Sender :=
  match s.outgoing.pushPieces (s.pieces body) with
  | (bytes, none, o) => (.ok (), { s with buffer := s.buffer ++ bytes, outgoing := o })
  | (bytes, some e, o) => (.error e, { s with buffer := s.buffer ++ bytes, outgoing := o })

/-- Lets go of what is in the buffer. -/
def clear (s : Sender) : Sender := { s with buffer := [] }

end Sender

/-- How far a flush has come. -/
inductive Flush where
  | start
  /-- The wire is taking bytes; these are left. -/
  | writing (left : Bytes)
  /-- The wire has taken everything and is flushed itself. -/
  | syncing
  deriving DecidableEq, Repr

/-- Offers bytes to the wire until it has taken all of them or does not go on.
Also gives the bytes that are left. -/
def writeAll (b : Bytes) (w : Wire) : Poll (Except IoError Unit) × Bytes × Wire :=
  if b = [] then (.ready (.ok ()), [], w)
  else
    match w.write b with
    | (.ready (.ok n), w') =>
      if n = 0 then (.ready (.error ⟨.writeZero, none⟩), b, w') else writeAll (b.drop n) w'
    | (.ready (.error e), w') => (.ready (.error e), b, w')
    | (.wait again, w') => (.wait again, b, w')
termination_by b.length
decreasing_by
  next hb hn =>
    have := List.length_pos_iff.mpr hb
    simp only [List.length_drop]
    omega

namespace Sender

/-- What became of a flush that was asked for progress. -/
structure Flushed where
  answer : Poll (Except EncodeError Unit)
  flush : Flush
  sender : Sender
  wire : Wire

/-- Flushes the wire itself. -/
def pollSync (s : Sender) (w : Wire) : Flushed :=
  match w.flush with
  | (.ready (.ok ()), w') => ⟨.ready (.ok ()), .syncing, s, w'⟩
  | (.ready (.error e), w') => ⟨.ready (.error (.io e)), .syncing, s, w'⟩
  | (.wait again, w') => ⟨.wait again, .syncing, s, w'⟩

/-- Writes what is left of the buffer. Only when all of it is taken does the
buffer become empty. -/
def pollWrite (s : Sender) (left : Bytes) (w : Wire) : Flushed :=
  match writeAll left w with
  | (.ready (.ok ()), _, w') => s.clear.pollSync w'
  | (.ready (.error e), left', w') => ⟨.ready (.error (.io e)), .writing left', s, w'⟩
  | (.wait again, left', w') => ⟨.wait again, .writing left', s, w'⟩

/-- Asks a flush for progress. One that starts with an empty buffer has
nothing to do. -/
def pollFlush (s : Sender) (f : Flush) (w : Wire) : Flushed :=
  match f with
  | .start => if s.buffer = [] then ⟨.ready (.ok ()), .start, s, w⟩ else s.pollWrite s.buffer w
  | .writing left => s.pollWrite left w
  | .syncing => s.pollSync w

/-- Flushes as far as the wire lets it. No result means that the flush was not
ready and was let go of. -/
def flush (s : Sender) (w : Wire) : Option (Except EncodeError Unit) × Sender × Wire :=
  match Poll.retry (w.events + 1)
      (fun (f, s, w) =>
        let r := pollFlush s f w
        (r.answer, r.flush, r.sender, r.wire)) (Flush.start, s, w) with
  | (result, _, s', w') => (result, s', w')

end Sender
end Http1Client
