/-
# Writing a request head

The head goes out as a request line, one line for each field, and an empty
line. Its `host` field is the host of the URI, whatever the caller gave, and
the fields that announce the framing are made to agree with it.

Key definitions: `RequestHead.announce`, `RequestHead.print`.
-/
import Http1Client.Request

namespace Http1Client
namespace RequestHead

/-- The fields, with those that announce the framing of the body. A chunked
body leaves a transfer encoding that mentions `chunked` as it is. -/
def announce (h : RequestHead) (f : Fields) : Framing → Fields
  | .length n => f.insert .contentLength (.ofNat n)
  | .chunked =>
    (if h.isChunked then f else f.insert .transferEncoding .chunked).remove .contentLength
  | .empty => f.insert .contentLength (.ofNat 0)
  | .untilClose => f

/-- The line of a field. -/
def fieldLine (x : FieldName × FieldValue) : Bytes :=
  x.1.bytes ++ [58, 32] ++ x.2.bytes ++ Bytes.crlf

/-- The request line. -/
def requestLine (h : RequestHead) : Bytes :=
  h.method.bytes ++ [32] ++ Bytes.utf8 h.uri.target ++ [32] ++ Bytes.ofText "HTTP/1.1" ++ Bytes.crlf

/-- The field lines of a section and the empty line that ends it. -/
def printFields (f : Fields) : Bytes := f.toList.flatMap fieldLine ++ Bytes.crlf

/-- The head as it goes out before a body of the given framing. -/
def print (h : RequestHead) (framing : Framing) : Except EncodeError Bytes :=
  match h.uri.host with
  | none => .error .hostMissing
  | some host =>
    match FieldValue.ofBytes? (Bytes.utf8 host) with
    | none => .error .hostInvalid
    | some host =>
      if h.version = .http11 then
        .ok (h.requestLine ++ printFields (h.announce (h.fields.insert .host host) framing))
      else .error .versionUnsupported

end RequestHead
end Http1Client
