/-
# Errors of reading a response and of writing a request

An error is a cause. `DecodeError` holds the causes that stop the reading of
a response, `EncodeError` those that stop the writing of a request; the words
for each stand in `message`.

Key definitions: `DecodeError`, `EncodeError`, `BodyFault`, `LengthFault`.
-/
import Http1Client.IoError

namespace Http1Client

/-- What can be wrong with the body of a response. -/
inductive BodyFault where
  /-- A size line or trailer line that does not end within the line limit. -/
  | lineTooLong
  /-- A size line or trailer line whose line feed has no carriage return before it. -/
  | lineEnd
  | sizeMissing
  | sizeInvalid
  /-- A chunk size that no 64-bit number holds. -/
  | sizeOverflow
  | overLimit (size limit : Nat)
  /-- Chunk data that goes on past its size. -/
  | dataUnterminated
  /-- Body data where a response head was due. -/
  | bodyBeforeHead
  /-- A body asked for before its head was read. -/
  | headUnread
  /-- A response head where body data was due. -/
  | headInsideBody
  | other (reason : String)
  deriving DecidableEq, Repr

namespace BodyFault

/-- The words for a fault of a body. -/
def text : BodyFault → String
  | lineTooLong => "chunk line too long"
  | lineEnd => "chunk line must end with CRLF"
  | sizeMissing => "missing chunk size"
  | sizeInvalid => "invalid chunk size"
  | sizeOverflow => "chunk size overflows"
  | overLimit size limit => s!"chunk size {size} exceeds limit {limit}"
  | dataUnterminated => "chunk data is not followed by CRLF"
  | bodyBeforeHead => "received payload before response head"
  | headUnread => "response head has not been read"
  | headInsideBody => "received response head inside body"
  | other reason => reason

end BodyFault

/-- What can be wrong with the declared length of a body. -/
inductive LengthFault where
  /-- A value with a byte that is not printable ASCII. -/
  | unprintable
  | notDigits (element : String)
  /-- An element that no 64-bit number holds. -/
  | tooLarge (element : String)
  | conflict (first second : Nat)
  | other (reason : String)
  deriving DecidableEq, Repr

namespace LengthFault

/-- The words for a fault of a declared length. -/
def text : LengthFault → String
  | unprintable => "value can't to_str"
  | notDigits element => s!"value {element} is not digits"
  | tooLarge element => s!"value {element} is not u64"
  | conflict first second => s!"conflicting values {first} and {second}"
  | other reason => reason

end LengthFault

/-- Why the reading of a response stopped. -/
inductive DecodeError where
  | headTooLarge (size limit : Nat)
  | tooManyFields (limit : Nat)
  | badField (reason : String)
  /-- A version number that is missing or unknown. -/
  | badVersion (minor : Option Nat)
  | badStatusLine (reason : String)
  | badLength (fault : LengthFault)
  | badBody (fault : BodyFault)
  | io (error : IoError)
  deriving DecidableEq, Repr

namespace DecodeError

/-- The words for an optional version number. -/
def minorText : Option Nat → String
  | none => "None"
  | some v => s!"Some({v})"

/-- What the error says. -/
def message : DecodeError → String
  | headTooLarge size limit => s!"header size too large, current: {size} exceed the limit {limit}"
  | tooManyFields limit => s!"header number exceed the limit {limit}"
  | badField reason => s!"invalid header: {reason}"
  | badVersion minor => s!"invalid http version: {minorText minor}"
  | badStatusLine reason => s!"malformed status line: {reason}"
  | badLength fault => s!"invalid content-length header: {fault.text}"
  | badBody fault => s!"invalid body: {fault.text}"
  | io error => s!"io error: {error.message}"

/-- The stream ended where more was due. -/
def cutShort (words : String) : DecodeError := .io (.cutShort words)

end DecodeError

/-- Why the writing of a request stopped. -/
inductive EncodeError where
  | badBody (reason : String)
  | badField (reason : String)
  | io (error : IoError)
  deriving DecidableEq, Repr

namespace EncodeError

/-- What the error says. -/
def message : EncodeError → String
  | badBody reason => s!"invalid body: {reason}"
  | badField reason => s!"invalid header: {reason}"
  | io error => s!"io error: {error.message}"

/-- A request has to leave the connection open, so its body can't end with it. -/
def untilClose : EncodeError := .badBody "a request body can't be delimited by connection close"

/-- The body has `n` bytes more than were declared. -/
def overLength (n : Nat) : EncodeError := .badBody s!"body exceeds content-length by {n} bytes"

/-- The body ended `n` bytes before its declared length. -/
def underLength (n : Nat) : EncodeError :=
  .badBody s!"body ended {n} bytes short of content-length"

/-- A head during a body, or a body without a head. -/
def outOfTurn : EncodeError := .io ⟨.invalidInput, none⟩

/-- A version of the protocol that requests are not written in. -/
def versionUnsupported : EncodeError := .io ⟨.unsupported, none⟩

/-- The request names no host. -/
def hostMissing : EncodeError := .badField "request uri has no host"

/-- The host can't stand in a field. -/
def hostInvalid : EncodeError := .badField "invalid host: failed to parse header value"

end EncodeError

end Http1Client
