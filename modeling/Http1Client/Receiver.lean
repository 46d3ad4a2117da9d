/-
# Receiving a response

A receiver reads bytes off a wire into a buffer, decodes them, and hands over
first the head and then the body in deliveries. What is not handed over stays
in the buffer, and all that a receiver knows between two answers of the wire
is in the receiver: asking again for what was not ready means asking anew.

How a body is read depends on its framing. A body of known length is read up
to its end or to the size asked for and never beyond. A chunked body is read
as it comes and handed over chunk by chunk. A body that ends with the
connection is handed over as it comes. Bytes behind the end of the body are
thrown away, and the receiver remembers that (`Receiver.discarded`).

Key definitions: `Receiver`, `Receiver.pollHead`, `Receiver.pollBody`,
`Receiver.bodyLeft`, `Incoming.drain`.
-/
import Http1Client.Incoming
import Http1Client.Wire

namespace Http1Client

/-- A reader of one response with its buffer. -/
structure Receiver where
  incoming : Incoming
  /-- The most bytes that are read at once. -/
  room : Nat
  buffer : Bytes := []
  /-- Is the body handed over to its end? -/
  finished : Bool := false
  /-- Were there bytes behind the end of the body? -/
  discarded : Bool := false
  deriving DecidableEq

/-- Gives out data until there is at least `limit` of it, the body ends or
more bytes are needed; `got` is how much there is already. No limit means all
that there is. Also tells whether the body has ended. -/
def Incoming.drain (limit : Option Nat) (got : Nat) (s : Incoming) (b : Bytes) :
    Except DecodeError (Bytes × Bool) × Incoming × Bytes :=
  if limit.all (got < ·) then
    match _given : s.next b with
    | (.item (.piece (.data x)), s', rest) =>
      match drain limit (got + x.length) s' rest with
      | (.ok (data, last), s'', rest') => (.ok (x ++ data, last), s'', rest')
      | (.error e, s'', rest') => (.error e, s'', rest')
    | (.item (.piece .finish), s', rest) => (.ok ([], true), s', rest)
    | (.item (.head _ _), s', rest) => (.error (.badBody .headInsideBody), s', rest)
    | (.fail e, s', rest) => (.error e, s', rest)
    | (.need, s', rest) => (.ok ([], false), s', rest)
  else (.ok ([], false), s, b)
termination_by s.size b
decreasing_by exact Incoming.size_next _given

namespace Receiver

/-- The receiver of the response to a request, which was a `HEAD` or not. -/
def ofRequest (toHead : Bool) (room chunkLimit : Nat) : Receiver :=
  { incoming := { toHead, chunkLimit }, room := max room 1 }

/-- The bytes of the body that are still to be read from the wire, where the
framing tells. -/
def bodyLeft (r : Receiver) : Option Nat :=
  if r.finished then some 0
  else (r.incoming.body.bind BodyDecoder.remaining).map (· - r.buffer.length)

/-- Gives the kept response away. -/
def takeSalvaged (r : Receiver) : Option Response × Receiver :=
  (r.incoming.salvaged, { r with incoming := r.incoming.takeSalvaged.2 })

/-- Puts bytes that were read behind those in the buffer. -/
def receive (r : Receiver) (b : Bytes) : Receiver := { r with buffer := r.buffer ++ b }

/-! ### The head -/

/-- The head, when the wire has ended. -/
def headAtEnd (r : Receiver) : Except DecodeError (Response × Framing) × Receiver :=
  match r.incoming.nextEnd r.buffer with
  | (.item (.head response framing), s, rest) =>
    (.ok (response, framing), { r with incoming := s, buffer := rest })
  | (.fail e, s, rest) => (.error e, { r with incoming := s, buffer := rest })
  | (_, s, rest) =>
    (.error (.cutShort "connection closed before response head"),
      { r with incoming := s, buffer := rest })

/-- Asks for the head. -/
def pollHead (r : Receiver) (w : Wire) :
    Poll (Except DecodeError (Response × Framing)) × Receiver × Wire :=
  match r.incoming.next r.buffer with
  | (.item (.head response framing), s, rest) =>
    (.ready (.ok (response, framing)), { r with incoming := s, buffer := rest }, w)
  | (.item (.piece _), s, rest) =>
    (.ready (.error (.badBody .bodyBeforeHead)), { r with incoming := s, buffer := rest }, w)
  | (.fail e, s, rest) => (.ready (.error e), { r with incoming := s, buffer := rest }, w)
  | (.need, s, rest) =>
    match _read : w.read r.room with
    | (.wait again, w') => (.wait again, { r with incoming := s, buffer := rest }, w')
    | (.ready (.error e), w') =>
      (.ready (.error (.io e)), { r with incoming := s, buffer := rest }, w')
    | (.ready (.ok []), w') =>
      match headAtEnd { r with incoming := s, buffer := rest } with
      | (result, r') => (.ready result, r', w')
    | (.ready (.ok (x :: xs)), w') =>
      pollHead (receive { r with incoming := s, buffer := rest } (x :: xs)) w'
termination_by w.readSize
decreasing_by exact Wire.readSize_read (List.cons_ne_nil x xs) _read

/-! ### The body -/

/-- The body has ended: what is left in the buffer is no part of it. -/
def finish (r : Receiver) : Receiver :=
  { r with finished := true, discarded := r.discarded || r.buffer != [], buffer := [] }

/-- Hands over data from the buffer, at least `limit` of it if there is so much. -/
def drain (r : Receiver) (limit : Option Nat) : Except DecodeError Delivery × Receiver :=
  match r.incoming.drain limit 0 r.buffer with
  | (.error e, s, rest) => (.error e, { r with incoming := s, buffer := rest })
  | (.ok (data, true), s, rest) =>
    (.ok ⟨data, true⟩, finish { r with incoming := s, buffer := rest })
  | (.ok (data, false), s, rest) => (.ok ⟨data, false⟩, { r with incoming := s, buffer := rest })

/-- Hands over data when the wire has ended. -/
def drainAtEnd (r : Receiver) : Except DecodeError Delivery × Receiver :=
  match r.incoming.nextEnd r.buffer with
  | (.item (.piece (.data x)), s, rest) =>
    (.ok ⟨x, false⟩, { r with incoming := s, buffer := rest })
  | (.item (.piece .finish), s, rest) =>
    (.ok .finished, finish { r with incoming := s, buffer := rest })
  | (.fail e, s, rest) => (.error e, { r with incoming := s, buffer := rest })
  | (_, s, rest) =>
    (.error (.cutShort "connection closed inside response body"),
      { r with incoming := s, buffer := rest })

/-- Reads until the buffer holds `target` bytes. -/
def fill (target : Nat) (r : Receiver) (w : Wire) :
    Poll (Except DecodeError Unit) × Receiver × Wire :=
  if r.buffer.length < target then
    match _read : w.read (min r.room (target - r.buffer.length)) with
    | (.wait again, w') => (.wait again, r, w')
    | (.ready (.error e), w') => (.ready (.error (.io e)), r, w')
    | (.ready (.ok []), w') =>
      (.ready (.error (.cutShort
        s!"connection closed with {target - r.buffer.length} body bytes outstanding")), r, w')
    | (.ready (.ok (x :: xs)), w') => fill target (r.receive (x :: xs)) w'
  else (.ready (.ok ()), r, w)
termination_by w.readSize
decreasing_by exact Wire.readSize_read (List.cons_ne_nil x xs) _read

/-- How many bytes the buffer is to hold before data is handed over, of a body
of which `left` bytes are still to be given out. -/
def fillTarget (left size : Nat) (r : Receiver) : Nat :=
  r.buffer.length + min (left - r.buffer.length) (size - r.buffer.length)

/-- Asks for data of a body of which `left` bytes are still to be given out. -/
def pollLength (left size : Nat) (r : Receiver) (w : Wire) :
    Poll (Except DecodeError Delivery) × Receiver × Wire :=
  match fill (r.fillTarget left size) r w with
  | (.wait again, r', w') => (.wait again, r', w')
  | (.ready (.error e), r', w') => (.ready (.error e), r', w')
  | (.ready (.ok ()), r', w') =>
    match r'.drain none with
    | (result, r'') => (.ready result, r'', w')

/-- Asks for data of a chunked body. -/
def pollChunks (size : Nat) (r : Receiver) (w : Wire) :
    Poll (Except DecodeError Delivery) × Receiver × Wire :=
  match r.drain (some (max size 1)) with
  | (.error e, r') => (.ready (.error e), r', w)
  | (.ok d, r') =>
    if d.data ≠ [] ∨ d.last then (.ready (.ok d), r', w)
    else
      match _read : w.read r'.room with
      | (.wait again, w') => (.wait again, r', w')
      | (.ready (.error e), w') => (.ready (.error (.io e)), r', w')
      | (.ready (.ok []), w') =>
        match r'.drainAtEnd with
        | (result, r'') => (.ready result, r'', w')
      | (.ready (.ok (x :: xs)), w') => pollChunks size (r'.receive (x :: xs)) w'
termination_by w.readSize
decreasing_by exact Wire.readSize_read (List.cons_ne_nil x xs) _read

/-- Asks for data of a body that ends with the connection. -/
def pollUntilClose (size : Nat) (r : Receiver) (w : Wire) :
    Poll (Except DecodeError Delivery) × Receiver × Wire :=
  if r.buffer = [] then
    match w.read (min r.room (max size 1)) with
    | (.wait again, w') => (.wait again, r, w')
    | (.ready (.error e), w') => (.ready (.error (.io e)), r, w')
    | (.ready (.ok []), w') =>
      match r.drainAtEnd with
      | (result, r') => (.ready result, r', w')
    | (.ready (.ok b), w') =>
      match (r.receive b).drain none with
      | (result, r') => (.ready result, r', w')
  else
    match r.drain none with
    | (result, r') => (.ready result, r', w)

/-- Asks for data of the body, about `size` bytes of it. -/
def pollBody (size : Nat) (r : Receiver) (w : Wire) :
    Poll (Except DecodeError Delivery) × Receiver × Wire :=
  if r.finished then (.ready (.ok .finished), r, w)
  else
    match r.incoming.body with
    | none => (.ready (.error (.badBody .headUnread)), r, w)
    | some (.length left) => pollLength left size r w
    | some (.chunked _) => pollChunks size r w
    | some (.untilClose _) => pollUntilClose size r w
    | some .empty =>
      match r.drain none with
      | (result, r') => (.ready result, r', w)

/-! ### As far as the wire lets it -/

/-- Receives the head. No result means that it was not ready. -/
def head (r : Receiver) (w : Wire) :
    Option (Except DecodeError (Response × Framing)) × Receiver × Wire :=
  Poll.retry (w.events + 1) (fun (r, w) => r.pollHead w) (r, w)

/-- Receives data of the body. No result means that it was not ready. -/
def body (size : Nat) (r : Receiver) (w : Wire) :
    Option (Except DecodeError Delivery) × Receiver × Wire :=
  Poll.retry (w.events + 1) (fun (r, w) => r.pollBody size w) (r, w)

end Receiver
end Http1Client
