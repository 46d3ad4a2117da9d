/-
# The head of a response

A response is its status line and its header section; its body is not part of
it. The empty response, without status and fields, stands where none has
arrived.

Key definitions: `Version`, `StatusCode`, `Response`, `Response.keepAlive`.
-/
import Http1Client.Fields

namespace Http1Client

/-- A version of the protocol. -/
inductive Version where
  | http09
  | http10
  | http11
  | http2
  | http3
  deriving DecidableEq, Repr

namespace Version

def text : Version → String
  | http09 => "HTTP/0.9"
  | http10 => "HTTP/1.0"
  | http11 => "HTTP/1.1"
  | http2 => "HTTP/2.0"
  | http3 => "HTTP/3.0"

end Version

/-- A status code, a number of three digits. -/
structure StatusCode where
  code : Nat
  lower : 100 ≤ code
  upper : code < 1000
  deriving DecidableEq

namespace StatusCode

/-- The status code that a number is. -/
def ofNat? (n : Nat) : Option StatusCode :=
  if h : 100 ≤ n ∧ n < 1000 then some ⟨n, h.1, h.2⟩ else none

/-- Does the status announce that another response follows? -/
def isInformational (s : StatusCode) : Bool := s.code < 200

/-- Is this an interim response, one that the final response follows? A switch
of protocols is final. -/
def isInterim (s : StatusCode) : Bool := s.isInformational && s.code != 101

/-- Does a response with this status never have a body? -/
def isBodiless (s : StatusCode) : Bool := s.isInformational || s.code == 204 || s.code == 304

end StatusCode

/-- The head of a response. -/
structure Response where
  status : Option StatusCode := none
  reason : String := ""
  version : Version := .http11
  fields : Fields := {}
  deriving DecidableEq

namespace Response

/-- The status code, zero where there is none. -/
def code (r : Response) : Nat := (r.status.map StatusCode.code).getD 0

/-- Has nothing arrived yet? -/
def isEmpty (r : Response) : Bool := r.status.isNone && r.fields.isEmpty

/-- Does the response leave the connection open? It does unless a value of
its `connection` field mentions `close`. -/
def keepAlive (r : Response) : Bool := !r.fields.mention .connection "close"

/-- Is this an interim response? -/
def isInterim (r : Response) : Bool := r.status.any StatusCode.isInterim

/-- The status code to pass on, where a response without status counts as a
success. -/
def codeOrOk (r : Response) : Nat := (r.status.map StatusCode.code).getD 200

end Response
end Http1Client
