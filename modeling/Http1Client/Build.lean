/-
# Messages from what a caller gives

A message is built only if its parts are what they have to be: the method a
token, the URI one that can be read, the status a number of three digits, each
field a name and a value. The parts are looked at in the order in which they
stand in the message, and the first that is wrong is the error.

Key definitions: `BuildError`, `Fields.build`, `RequestHead.put`,
`Request.build`, `Response.build`.
-/
import Http1Client.Request

namespace Http1Client

/-- Why a message can't be built. -/
inductive BuildError where
  | method
  | uri (error : UriError)
  | status
  | fieldName
  | fieldValue
  deriving DecidableEq, Repr

/-- What the error says. -/
def BuildError.message : BuildError → String
  | method => "invalid HTTP method"
  | uri error => error.text
  | status => "invalid status code"
  | fieldName => "invalid HTTP header name"
  | fieldValue => "failed to parse header value"

namespace Fields

/-- The field that a caller gives, if it is one. -/
def check (x : Bytes × Bytes) : Except BuildError (FieldName × FieldValue) :=
  match FieldName.ofBytes? x.1, FieldValue.ofBytes? x.2 with
  | none, _ => .error .fieldName
  | some _, none => .error .fieldValue
  | some name, some value => .ok (name, value)

/-- The section of the fields that a caller gives. -/
def build (xs : List (Bytes × Bytes)) : Except BuildError Fields :=
  (xs.mapM check).map ofList

end Fields

/-- Puts fields into a head, each in the place of those of its name. -/
def RequestHead.put (h : RequestHead) (xs : List (Bytes × Bytes)) :
    Except BuildError RequestHead :=
  (xs.mapM Fields.check).map fun fs =>
    { h with fields := fs.foldl (fun f x => f.insert x.1 x.2) h.fields }

/-- Builds a request. -/
def Request.build (method : Bytes) (uri : String) (version : Version)
    (fields : List (Bytes × Bytes)) (body : Bytes) : Except BuildError Request :=
  match Method.ofBytes? method, Uri.parse uri.toList, Fields.build fields with
  | none, _, _ => .error .method
  | some _, .error e, _ => .error (.uri e)
  | some _, .ok _, .error e => .error e
  | some method, .ok uri, .ok fields => .ok { head := { method, uri, version, fields }, body }

/-- Builds the head of a response. -/
def Response.build (status : Nat) (reason : String) (version : Version)
    (fields : List (Bytes × Bytes)) : Except BuildError Response :=
  match StatusCode.ofNat? status, Fields.build fields with
  | none, _ => .error .status
  | some _, .error e => .error e
  | some status, .ok fields => .ok { status := some status, reason, version, fields }

end Http1Client
