/-
# Settings of a client

Sizes of buffers and limits, and the certificates of encrypted connections.
A buffer to read into and a segment to send hold one byte at least.

Key definitions: `Settings`.
-/
import Http1Client.Body.Chunked

namespace Http1Client

/-- What a client is set up with. -/
structure Settings where
  /-- The certificates that are trusted, as text; given, they make
  connections encrypted. -/
  trusted : Option Bytes := none
  /-- The certificates to show and their key, as text. -/
  identity : Option (Bytes × Bytes) := none
  readBuffer : Nat := 8192
  writeBuffer : Nat := 4096
  /-- The most bytes that go into one chunk of a request. -/
  segment : Nat := 8192
  /-- The largest chunk of a response that is taken. -/
  chunkLimit : Nat := Chunked.defaultLimit
  deriving DecidableEq

namespace Settings

def setReadBuffer (s : Settings) (n : Nat) : Settings := { s with readBuffer := max n 1 }

def setSegment (s : Settings) (n : Nat) : Settings := { s with segment := max n 1 }

/-- Are connections encrypted? -/
def isTls (s : Settings) : Bool := s.trusted.isSome

end Settings
end Http1Client
