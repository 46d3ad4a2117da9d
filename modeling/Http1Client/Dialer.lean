/-
# Dialers

A dialer opens the connections of a client, plain or encrypted. Trusted
certificates make it encrypted, and only then is the client's own identity
looked at. The certificates are checked in the order of the text: the first
section that can't be read or is no certificate is the failure.

Key definitions: `Dialer`, `Dialer.plain`, `Dialer.ofSettings`.
-/
import Http1Client.Pem
import Http1Client.Certificate
import Http1Client.Failure
import Http1Client.Settings

namespace Http1Client

/-- What opens connections. -/
structure Dialer where
  /-- Are the connections encrypted? -/
  isTls : Bool
  deriving DecidableEq, Repr

namespace Dialer

/-- The dialer of plain connections. -/
def plain : Dialer := ⟨false⟩

/-- Checks the certificates to trust; there has to be one at least. -/
def checkTrusted (b : Bytes) : Except Failure Unit :=
  let (sections, bad) := Pem.ofBytes b
  let certificates := sections.filter (·.kind = .certificate)
  match certificates.mapM (Certificate.check ·.contents) with
  | .error fault =>
    .error (.tls s!"rejected ca certificate: invalid peer certificate: {fault.text}")
  | .ok _ =>
    match bad with
    | some e => .error (.tls s!"invalid ca certificate: {e.message}")
    | none =>
      if certificates.isEmpty then .error (.tls "no ca certificate found in pem") else .ok ()

/-- The first key of a text. -/
def firstKey (b : Bytes) : Except Pem.Error Pem.Section :=
  let (sections, bad) := Pem.ofBytes b
  match sections.find? (·.kind.isKey) with
  | some key => .ok key
  | none => .error (bad.getD .missing)

/-- Checks the certificates to show and their key. Keys are not understood
here, so one that is found is refused. -/
def checkIdentity (certificates key : Bytes) : Except Failure Unit :=
  match (Pem.ofBytes certificates).2 with
  | some e => .error (.tls s!"invalid client certificate: {e.message}")
  | none =>
    match firstKey key with
    | .error e => .error (.tls s!"invalid client key: {e.message}")
    | .ok _ =>
      .error (.tls ("rejected client certificate: unexpected error: " ++
        "failed to parse private key as RSA, ECDSA, or EdDSA"))

/-- The dialer that settings ask for. -/
def ofSettings (s : Settings) : Except Failure Dialer := do
  match s.trusted with
  | none => .ok plain
  | some trusted =>
    checkTrusted trusted
    match s.identity with
    | none => .ok ⟨true⟩
    | some (certificates, key) =>
      checkIdentity certificates key
      .ok ⟨true⟩

end Dialer
end Http1Client
