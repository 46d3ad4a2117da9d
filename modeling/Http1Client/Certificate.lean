/-
# Certificates

The outer form of a certificate: the part that is signed, the algorithm of the
signature, and the signature. Of the signed part only the order and the kinds
of its elements are looked at: version three, a serial number, the same
algorithm once more, issuer, validity, subject and public key, and then the
extensions, if there are any. A certificate of version one names no version
and has no extensions.

Of the extensions, six kinds are understood (`Certificate.understood`). One of
those may stand in a certificate once; one of another kind is passed over,
unless it is critical.

The elements are looked at one behind the other, and the first fault is the
one that counts.

Key definitions: `Certificate.Fault`, `Certificate.checkExtensions`,
`Certificate.checkVersionThree`, `Certificate.check`.
-/
import Http1Client.Der

namespace Http1Client
namespace Certificate

/-- Why a certificate is refused. -/
inductive Fault where
  /-- The bytes don't have the form of a certificate. -/
  | encoding
  /-- The signed part names another algorithm than stands behind it. -/
  | algorithm
  /-- An extension that is understood stands there again. -/
  | repeated
  /-- A critical extension that is not understood. -/
  | critical
  deriving DecidableEq, Repr

/-- The name of the fault. -/
def Fault.text : Fault → String
  | encoding => "BadEncoding"
  | algorithm => "Other(OtherError(SignatureAlgorithmMismatch))"
  | repeated => "Other(OtherError(ExtensionValueInvalid))"
  | critical => "Other(OtherError(UnsupportedCriticalExtension))"

/-! ### Tags -/

/-- The tag of a truth value. -/
def boolean : UInt8 := 0x01

/-- The tag of a whole number. -/
def integer : UInt8 := 0x02

/-- The tag of a string of bits. -/
def bitString : UInt8 := 0x03

/-- The tag of a string of bytes. -/
def octetString : UInt8 := 0x04

/-- The tag of a name of a kind of thing. -/
def objectId : UInt8 := 0x06

/-- The tag of a sequence. -/
def sequence : UInt8 := 0x30

/-- The tag that marks the version. -/
def versionMark : UInt8 := 0xA0

/-- The tag that marks the extensions. -/
def extensionsMark : UInt8 := 0xA3

/-- Reads the element that is due. -/
def take (tag : UInt8) (b : Bytes) : Except Fault (Bytes × Bytes) :=
  match Der.take tag b with
  | none => .error .encoding
  | some r => .ok r

/-! ### Extensions -/

/-- One extension. -/
structure Extension where
  id : Bytes
  /-- Has one who does not understand it to refuse the certificate? -/
  critical : Bool
  value : Bytes
  deriving DecidableEq, Repr

/-- The extension that gives the uses of the key. Its value is read where it is
needed, and may be anything here. -/
def keyUsage : UInt8 := 15

/-- The numbers of the extensions that are understood: the uses of the key,
other names of the subject, whether it may sign certificates, the names that
it may sign for, where revocations are listed, and what the key is for. -/
def understood : List UInt8 := [keyUsage, 17, 19, 30, 31, 37]

/-- The number of the extension, if it is one that is understood. -/
def Extension.number? (x : Extension) : Option UInt8 :=
  match x.id with
  | [0x55, 0x1D, n] => if n ∈ understood then some n else none
  | _ => none

/-- Are the bytes the value of the understood extension with this number? All
but one are a sequence. -/
def isValue (n : UInt8) (b : Bytes) : Bool :=
  n == keyUsage || (Der.take sequence b).any (·.2.isEmpty)

/-- Notes an extension behind those whose numbers were seen. -/
def note (seen : List UInt8) (x : Extension) : Except Fault (List UInt8) :=
  match x.number? with
  | none => if x.critical then .error .critical else .ok seen
  | some n =>
    if n ∈ seen then .error .repeated
    else if isValue n x.value then .ok (n :: seen)
    else .error .encoding

/-- Reads whether an extension is critical. It is not if nothing is said. -/
def takeCritical (b : Bytes) : Except Fault (Bool × Bytes) :=
  if b.head? = some boolean then
    match Der.take boolean b with
    | some ([0], rest) => .ok (false, rest)
    | some ([255], rest) => .ok (true, rest)
    | _ => .error .encoding
  else .ok (false, b)

/-- Reads an extension off the front of the contents of its element. -/
def takeExtension (b : Bytes) : Except Fault (Extension × Bytes) := do
  let (id, b) ← take objectId b
  let (critical, b) ← takeCritical b
  let (value, b) ← take octetString b
  .ok ({ id, critical, value }, b)

/-- Checks the contents of the element of one extension. -/
def checkExtension (seen : List UInt8) (b : Bytes) : Except Fault (List UInt8) := do
  let (x, rest) ← takeExtension b
  let seen ← note seen x
  if rest = [] then .ok seen else .error .encoding

/-- Checks the elements of extensions. There may be none. -/
def checkExtensions (seen : List UInt8) (b : Bytes) : Except Fault Unit :=
  if b = [] then .ok ()
  else match _taken : Der.take sequence b with
    | none => .error .encoding
    | some (contents, rest) =>
      match checkExtension seen contents with
      | .error fault => .error fault
      | .ok seen => checkExtensions seen rest
termination_by b.length
decreasing_by exact Der.take_length _taken

/-- Checks what stands behind the public key. -/
def checkTail (b : Bytes) : Except Fault Unit :=
  if b = [] then .ok ()
  else do
    let (marked, after) ← take extensionsMark b
    let (all, rest) ← take sequence marked
    checkExtensions [] all
    if rest = [] ∧ after = [] then .ok () else .error .encoding

/-! ### The certificate -/

/-- The number of version three, as it is written. -/
def versionThree : Bytes := [integer, 1, 2]

/-- Checks the elements behind the version in the part that is signed. -/
def checkVersionThree (algorithm b : Bytes) : Except Fault Unit := do
  let (_, b) ← take integer b
  let (named, b) ← take sequence b
  if named ≠ algorithm then .error .algorithm
  else match Der.skip [sequence, sequence, sequence, sequence] b with
    | none => .error .encoding
    | some b => checkTail b

/-- Checks the elements of the part that is signed, where no version is named. -/
def checkVersionOne (b : Bytes) : Except Fault Unit :=
  if Der.skip [integer, sequence, sequence, sequence, sequence, sequence] b = some [] then .ok ()
  else .error .encoding

/-- Checks the elements of the part that is signed. -/
def checkSigned (algorithm b : Bytes) : Except Fault Unit :=
  match Der.take versionMark b with
  | none => checkVersionOne b
  | some (version, rest) =>
    if version = versionThree then checkVersionThree algorithm rest else .error .encoding

/-- Checks whether the bytes have the form of a certificate. -/
def check (b : Bytes) : Except Fault Unit := do
  let (whole, after) ← take sequence b
  let (signed, rest) ← take sequence whole
  let (algorithm, rest) ← take sequence rest
  let (signature, rest) ← take bitString rest
  if signature.head? = some 0 ∧ rest = [] ∧ after = [] then checkSigned algorithm signed
  else .error .encoding

end Certificate
end Http1Client
