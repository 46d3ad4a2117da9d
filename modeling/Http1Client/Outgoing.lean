/-
# A request as it goes out

`Outgoing` is the state of one side of a connection that sends requests one
behind the other: between two requests, or inside the body of one. A head is
taken only between requests and a piece of a body only inside one, and what
is refused writes nothing.

Key definitions: `Outgoing`, `Outgoing.pushHead`, `Outgoing.pushPiece`,
`Outgoing.pushPieces`.
-/
import Http1Client.Head.Print
import Http1Client.Body.Encoder

namespace Http1Client

/-- The state of the writing of requests. -/
structure Outgoing where
  /-- The body that is being written, if one is. -/
  body : Option BodyEncoder := none
  deriving DecidableEq

namespace Outgoing

/-- Is a head written whose body has not ended? -/
def isSending (o : Outgoing) : Bool := o.body.isSome

/-- Does the body that is being written go out in chunks? -/
def isChunked (o : Outgoing) : Bool := o.body.any BodyEncoder.isChunked

/-- The bytes to send for a head, and the state after it. -/
def pushHead (o : Outgoing) (h : RequestHead) (framing : Framing) :
    Except EncodeError Bytes × Outgoing :=
  match o.body with
  | some _ => (.error .outOfTurn, o)
  | none =>
    match BodyEncoder.ofFraming framing with
    | .error e => (.error e, o)
    | .ok body =>
      match h.print framing with
      | .error e => (.error e, o)
      | .ok bytes => (.ok bytes, { o with body := some body })

/-- The bytes to send for a piece of a body, and the state after it. The last
piece ends the body even where it is refused. -/
def pushPiece (o : Outgoing) (p : Piece) : Except EncodeError Bytes × Outgoing :=
  match o.body with
  | none => (.error .outOfTurn, o)
  | some body =>
    match body.push p with
    | (r, body') => (r, { o with body := if p.isFinish then none else some body' })

/-- The bytes to send for pieces up to the first that is refused, that
refusal if there is one, and the state after them. -/
def pushPieces (o : Outgoing) : List Piece → Bytes × Option EncodeError × Outgoing
  | [] => ([], none, o)
  | p :: ps =>
    match o.pushPiece p with
    | (.error e, o') => ([], some e, o')
    | (.ok bytes, o') =>
      match pushPieces o' ps with
      | (more, e, o'') => (bytes ++ more, e, o'')

end Outgoing
end Http1Client
