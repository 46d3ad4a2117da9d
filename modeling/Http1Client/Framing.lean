/-
# How a body is delimited, and the pieces it travels in

A message head fixes the framing of the body behind it. A body then moves
piece by piece: any number of pieces of data, and one that ends it.

Key definitions: `Framing`, `Piece`, `Delivery`, `Progress`.
-/
import Http1Client.Error
import Http1Client.Bytes

namespace Http1Client

/-- Where the body of a message ends. -/
inductive Framing where
  /-- After this many bytes. -/
  | length (n : Nat)
  /-- At its chunk of size zero. -/
  | chunked
  /-- With the connection. -/
  | untilClose
  /-- There is none. -/
  | empty
  deriving DecidableEq, Repr

namespace Framing

def isChunked : Framing → Bool
  | chunked => true
  | _ => false

def isUntilClose : Framing → Bool
  | untilClose => true
  | _ => false

/-- Is the body known to hold no byte? -/
def isEmpty : Framing → Bool
  | length n => n == 0
  | empty => true
  | _ => false

end Framing

/-- One item of a body on its way through a codec. -/
inductive Piece where
  | data (bytes : Bytes)
  /-- The body is complete. -/
  | finish
  deriving DecidableEq, Repr

namespace Piece

def isFinish : Piece → Bool
  | finish => true
  | data _ => false

def isData : Piece → Bool
  | finish => false
  | data _ => true

/-- The body bytes a piece carries. -/
def bytes : Piece → Bytes
  | data b => b
  | finish => []

end Piece

/-- What one call for body data hands over. -/
structure Delivery where
  data : Bytes := []
  /-- Is the body complete with this data? -/
  last : Bool := false
  deriving DecidableEq, Repr

namespace Delivery

/-- The delivery that only says that the body is complete. -/
def finished : Delivery := ⟨[], true⟩

end Delivery

/-- What a decoder makes of the bytes it has. -/
inductive Progress (α : Type) where
  /-- More bytes are needed. -/
  | need
  | item (a : α)
  | fail (e : DecodeError)
  deriving DecidableEq, Repr

end Http1Client
