/-
# Requests

A request is its head and its whole body. The head fixes the framing of a body
that goes behind it: chunked if a `transfer-encoding` field says so, and
delimited by its length otherwise.

Key definitions: `Method`, `RequestHead`, `RequestHead.framing`, `Request`.
-/
import Http1Client.Uri
import Http1Client.Fields
import Http1Client.Framing
import Http1Client.Response

namespace Http1Client

/-- A method, a token. -/
structure Method where
  bytes : Bytes
  ne_nil : bytes ≠ []
  isToken : ∀ b ∈ bytes, Bytes.isTokenByte b = true

namespace Method

instance : DecidableEq Method := fun a b =>
  if h : a.bytes = b.bytes then
    isTrue (by cases a; cases b; simp_all)
  else isFalse (fun e => h (e ▸ rfl))

/-- The method a caller gives, if it is one. -/
def ofBytes? (b : Bytes) : Option Method :=
  if h : b ≠ [] ∧ b.all Bytes.isTokenByte = true then
    some ⟨b, h.1, List.all_eq_true.mp h.2⟩
  else none

/-- Is this the method whose responses have no body? -/
def isHead (m : Method) : Bool := m.bytes = Bytes.ofText "HEAD"

end Method

/-- The head of a request. -/
structure RequestHead where
  method : Method
  uri : Uri
  version : Version := .http11
  fields : Fields := {}
  deriving DecidableEq

namespace RequestHead

/-- Does the head say that the body is chunked? -/
def isChunked (h : RequestHead) : Bool := h.fields.mention .transferEncoding "chunked"

/-- The framing of a body of `n` bytes behind this head. -/
def framing (h : RequestHead) (n : Nat) : Framing :=
  if h.isChunked then .chunked else .length n

end RequestHead

/-- A request: its head and its whole body. -/
structure Request where
  head : RequestHead
  body : Bytes := []
  deriving DecidableEq

end Http1Client
