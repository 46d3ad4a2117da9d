/-
# How an exchange fails

A failure is the error a caller sees. An error of reading a response becomes
one of four failures by its cause, an error of writing a request becomes one.
A failed execution also carries the response as far as it had arrived.

Key definitions: `Failure`, `Failure.ofDecode`, `Failure.message`,
`FailedExecution`.
-/
import Http1Client.Error
import Http1Client.Response
import Http1Client.Stage

namespace Http1Client

/-- What a caller may ask of an exchange only at some stages. -/
inductive Operation where
  | execute
  | readBody
  deriving DecidableEq, Repr

namespace Operation

def text : Operation → String
  | execute => "execute"
  | readBody => "read body"

end Operation

/-- Why an exchange failed. -/
inductive Failure where
  | invalidRequest (reason : String)
  | tls (reason : String)
  | connect (host : String) (port : Nat) (error : IoError)
  | write (error : EncodeError)
  | read (error : DecodeError)
  | statusLine (reason : String)
  | field (error : DecodeError)
  | length (fault : LengthFault)
  | cancelled
  /-- The operation is none for the stage the exchange is in. -/
  | stage (operation : Operation) (current : Stage)
  deriving DecidableEq, Repr

namespace Failure

/-- The failure that an error of reading a response is. -/
def ofDecode : DecodeError → Failure
  | .badStatusLine reason => statusLine reason
  | .badVersion minor => statusLine s!"unsupported http version {DecodeError.minorText minor}"
  | .badLength fault => length fault
  | .headTooLarge size limit => field (.headTooLarge size limit)
  | .tooManyFields limit => field (.tooManyFields limit)
  | .badField reason => field (.badField reason)
  | .badBody fault => read (.badBody fault)
  | .io error => read (.io error)

/-- What the failure says. -/
def message : Failure → String
  | invalidRequest reason => s!"invalid request: {reason}"
  | tls reason => s!"invalid tls configuration: {reason}"
  | connect host port error => s!"connect to {host}:{port} failed: {error.message}"
  | write error => s!"write request failed: {error.message}"
  | read error => s!"read response failed: {error.message}"
  | statusLine reason => s!"malformed status line: {reason}"
  | field error => s!"malformed response header: {error.message}"
  | length fault => s!"invalid content-length header: {fault.text}"
  | cancelled => "exchange cancelled"
  | stage operation current => s!"can't {operation.text} while exchange is {current.text}"

def isCancelled : Failure → Bool
  | cancelled => true
  | _ => false

end Failure

/-- A failure together with the response as far as it had arrived. -/
structure FailedExecution where
  failure : Failure
  response : Response
  deriving DecidableEq

end Http1Client
