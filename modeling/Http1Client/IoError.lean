/-
# Errors of a transport

A transport fails with a kind, and sometimes with words of its own. Without
words, the kind supplies them.

Key definitions: `IoKind`, `IoError`, `IoError.message`.
-/

namespace Http1Client

/-- What a transport can fail of. -/
inductive IoKind where
  | notFound
  | permissionDenied
  | connectionRefused
  | connectionReset
  | connectionAborted
  | notConnected
  | addrInUse
  | brokenPipe
  | wouldBlock
  | invalidInput
  | invalidData
  | timedOut
  | writeZero
  | interrupted
  | unsupported
  | unexpectedEof
  | outOfMemory
  | other
  deriving DecidableEq, Repr

namespace IoKind

/-- The words for a failure that has none of its own. -/
def text : IoKind → String
  | notFound => "entity not found"
  | permissionDenied => "permission denied"
  | connectionRefused => "connection refused"
  | connectionReset => "connection reset"
  | connectionAborted => "connection aborted"
  | notConnected => "not connected"
  | addrInUse => "address in use"
  | brokenPipe => "broken pipe"
  | wouldBlock => "operation would block"
  | invalidInput => "invalid input parameter"
  | invalidData => "invalid data"
  | timedOut => "timed out"
  | writeZero => "write zero"
  | interrupted => "operation interrupted"
  | unsupported => "unsupported"
  | unexpectedEof => "unexpected end of file"
  | outOfMemory => "out of memory"
  | other => "other error"

end IoKind

/-- A failure of a transport: its kind, and its own words if it has any. -/
structure IoError where
  kind : IoKind
  words : Option String := none
  deriving DecidableEq, Repr

namespace IoError

/-- What the failure says. -/
def message (e : IoError) : String := e.words.getD e.kind.text

/-- The end of a stream that came too early. -/
def cutShort (words : String) : IoError := ⟨.unexpectedEof, some words⟩

end IoError

end Http1Client
