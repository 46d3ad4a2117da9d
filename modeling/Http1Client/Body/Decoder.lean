/-
# Decoding a body of any framing

A body decoder takes bytes off the front of a growing buffer and gives out
pieces. `decode` is asked while the stream is open, `decodeEnd` when it has
ended: only a body that ends with the connection is complete then.

Key definitions: `BodyDecoder`, `BodyDecoder.decode`, `BodyDecoder.decodeEnd`,
`BodyDecoder.remaining`.
Key theorems: `BodyDecoder.decode_data_length`.
-/
import Http1Client.Body.Chunked

namespace Http1Client

/-- The state of the decoding of a body. -/
inductive BodyDecoder where
  /-- This many bytes are still due. -/
  | length (left : Nat)
  | chunked (decoder : ChunkedDecoder)
  | untilClose (ended : Bool)
  | empty
  deriving DecidableEq, Repr

namespace BodyDecoder

/-- The decoder for a body that is framed so, taking chunks up to `limit`. -/
def ofFraming (limit : Nat) : Framing → BodyDecoder
  | .length n => .length n
  | .chunked => .chunked { limit }
  | .untilClose => .untilClose false
  | .empty => .empty

/-- Is everything given out? -/
def isFinished : BodyDecoder → Bool
  | length left => left == 0
  | chunked d => d.isFinished
  | untilClose ended => ended
  | empty => true

/-- The bytes still to be given out, where the framing tells. -/
def remaining : BodyDecoder → Option Nat
  | length left => some left
  | empty => some 0
  | chunked _ => none
  | untilClose _ => none

/-- The next piece, the state after it and the bytes that are left. -/
def decode (d : BodyDecoder) (b : Bytes) : Progress Piece × BodyDecoder × Bytes :=
  match d with
  | length left =>
    if left = 0 then (.item .finish, d, b)
    else if b = [] then (.need, d, b)
    else (.item (.data (b.take left)), length (left - (b.take left).length), b.drop left)
  | chunked c =>
    match c.decode b with
    | (r, c', rest) => (r, chunked c', rest)
  | untilClose ended =>
    if ended then (.item .finish, d, b)
    else if b = [] then (.need, d, b)
    else (.item (.data b), d, [])
  | empty => (.item .finish, d, b)

/-- The same when the stream has ended. -/
def decodeEnd (d : BodyDecoder) (b : Bytes) : Progress Piece × BodyDecoder × Bytes :=
  match d with
  | length left =>
    match decode d b with
    | (.need, d', rest) =>
      (.fail (.cutShort s!"connection closed with {left} body bytes outstanding"), d', rest)
    | r => r
  | chunked c =>
    match c.decodeEnd b with
    | (r, c', rest) => (r, chunked c', rest)
  | untilClose _ => if b = [] then (.item .finish, untilClose true, []) else decode d b
  | empty => (.item .finish, d, b)

/-- Is the next thing to give out the data of a chunk whose size is known? -/
def inData : BodyDecoder → Bool
  | chunked c => c.inData
  | _ => false

/-- Giving out data takes bytes, unless it was the data of a chunk whose size
was known already. -/
theorem decode_data_length {d d' : BodyDecoder} {b x rest : Bytes}
    (h : d.decode b = (.item (.data x), d', rest)) :
    2 * rest.length + d'.inData.toNat < 2 * b.length + d.inData.toNat := by
  cases d with
  | length left =>
    simp only [decode] at h
    split at h
    · simp at h
    · split at h
      · simp at h
      · next h0 hb =>
        simp only [Prod.mk.injEq] at h
        obtain ⟨-, rfl, rfl⟩ := h
        have := List.length_pos_iff.mpr hb
        simp only [List.length_drop, inData, Bool.toNat_false]
        omega
  | chunked c =>
    simp only [decode, Prod.mk.injEq] at h
    obtain ⟨h1, rfl, h3⟩ := h
    have hc : c.decode b = (.item (.data x), (c.decode b).2.1, rest) :=
      Prod.ext h1 (Prod.ext rfl h3)
    obtain ⟨h4, h5⟩ := c.decode_data_length b hc
    simp only [inData, h4, Bool.toNat_false]
    exact h5
  | untilClose ended =>
    simp only [decode] at h
    split at h
    · simp at h
    · split at h
      · simp at h
      · next hb =>
        simp only [Prod.mk.injEq] at h
        obtain ⟨-, rfl, rfl⟩ := h
        have := List.length_pos_iff.mpr hb
        simp only [List.length_nil, inData, Bool.toNat_false]
        omega
  | empty => simp [decode] at h

end BodyDecoder
end Http1Client
