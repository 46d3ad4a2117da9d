/-
# PEM

Text that carries labelled sections. A section opens with the line
`-----BEGIN label-----`, closes with the first line that starts with
`-----END label-----`, and holds base64 between them; what stands outside of
sections is passed over, and so is a section whose label is not known. A line
that opens a section inside another puts the new label in the place of the old
one and keeps the text collected so far.

Key definitions: `Pem.Kind`, `Pem.Section`, `Pem.lines`, `Pem.next`,
`Pem.Error`.
Key theorems: `Pem.next_length`.
-/
import Http1Client.Base64

namespace Http1Client
namespace Pem

/-- What a section may hold. -/
inductive Kind where
  | certificate
  | publicKey
  | rsaKey
  | privateKey
  | ecKey
  | revocationList
  | signingRequest
  | helloConfig
  deriving DecidableEq, Repr

namespace Kind

/-- The label of a section. -/
def label : Kind → String
  | certificate => "CERTIFICATE"
  | publicKey => "PUBLIC KEY"
  | rsaKey => "RSA PRIVATE KEY"
  | privateKey => "PRIVATE KEY"
  | ecKey => "EC PRIVATE KEY"
  | revocationList => "X509 CRL"
  | signingRequest => "CERTIFICATE REQUEST"
  | helloConfig => "ECHCONFIG"

/-- The kind that a label names. -/
def ofLabel? (b : Bytes) : Option Kind :=
  [certificate, publicKey, rsaKey, privateKey, ecKey, revocationList, signingRequest,
    helloConfig].find? fun k => Bytes.ofText k.label = b

/-- Does the section hold a key to sign with? -/
def isKey : Kind → Bool
  | rsaKey => true
  | privateKey => true
  | ecKey => true
  | _ => false

end Kind

/-- A section: its kind and the bytes it carries. -/
structure Section where
  kind : Kind
  contents : Bytes
  deriving DecidableEq, Repr

/-- Why the sections of a text can't be read. -/
inductive Error where
  /-- The text ends inside the section with this label. -/
  | unclosed (label : Bytes)
  /-- A line that opens a section and does not end in five dashes. -/
  | badOpening (line : Bytes)
  | base64 (error : Base64.Error)
  /-- No section of the kind that is asked for. -/
  | missing
  deriving DecidableEq, Repr

/-- What the error says. -/
def Error.message : Error → String
  | unclosed label => s!"missing section end marker: {label.numbers}"
  | badOpening line => s!"illegal section start: {line.numbers}"
  | base64 error => s!"base64 decode error: {error.text}"
  | missing => "no items found"

/-! ### Lines -/

/-- Does the byte end a line? -/
def endsLine (b : UInt8) : Bool := b == Bytes.lf || b == Bytes.cr

/-- The lines of a text. A line feed and a carriage return each end a line, and
the end of the text ends a line that is not empty. -/
def lines (b : Bytes) : List Bytes :=
  if b = [] then []
  else b.takeWhile (fun x => !endsLine x) :: lines ((b.dropWhile fun x => !endsLine x).drop 1)
termination_by b.length
decreasing_by
  next h =>
    have h1 := (List.dropWhile_sublist (fun x => !endsLine x) (l := b)).length_le
    have h2 : 0 < b.length := List.length_pos_iff.mpr h
    simp only [List.length_drop]
    omega

/-- The start of a line that opens a section. -/
def opening : Bytes := Bytes.ofText "-----BEGIN "

/-- The start of the line that closes the section with a label. -/
def closing (label : Bytes) : Bytes :=
  Bytes.ofText "-----END " ++ label ++ Bytes.ofText "-----"

/-- The dash. -/
def dash : UInt8 := 45

/-- The bytes at the end of an opening line: dashes, and blanks among them. -/
def isTrailer (b : UInt8) : Bool := b == dash || b == 32

/-- The label of an opening line: what stands between the start and the five
dashes at the end. Blanks may stand between and behind the dashes. -/
def labelOf? (line : Bytes) : Option Bytes :=
  let marks := (line.reverse.takeWhile isTrailer).reverse.dropWhile (· != dash)
  if marks.count dash = 5 then some ((line.take (line.length - marks.length)).drop opening.length)
  else none

/-! ### Sections -/

/-- Reads on to the next section of a known kind, from inside the section
`label` if there is one, with the lines `held` collected so far, the last one
first. Gives the section and the lines behind it. -/
def next (label : Option Bytes) (held : List Bytes) :
    List Bytes → Except Error (Option (Section × List Bytes))
  | [] =>
    match label with
    | some label => .error (.unclosed label)
    | none => .ok none
  | line :: rest =>
    if opening.isPrefixOf line then
      match labelOf? line with
      | some label => next (some label) held rest
      | none => .error (.badOpening line)
    else match label with
      | none => next none held rest
      | some label =>
        if (closing label).isPrefixOf line then
          match Kind.ofLabel? label with
          | none => next none [] rest
          | some kind =>
            match Base64.decode held.reverse.flatten with
            | .ok contents => .ok (some (⟨kind, contents⟩, rest))
            | .error e => .error (.base64 e)
        else next (some label) (line :: held) rest

theorem next_length {label : Option Bytes} {held ls : List Bytes} {s : Section}
    {rest : List Bytes} (h : next label held ls = .ok (some (s, rest))) :
    rest.length < ls.length := by
  induction ls generalizing label held with
  | nil => cases label <;> simp [next] at h
  | cons line ls ih =>
    have step : ∀ {label held}, next label held ls = .ok (some (s, rest)) →
        rest.length < (line :: ls).length := fun h => Nat.lt_succ_of_lt (ih h)
    unfold next at h
    split at h
    · split at h
      · exact step h
      · simp at h
    · split at h
      · exact step h
      · split at h
        · split at h
          · exact step h
          · split at h
            · simp only [Except.ok.injEq, Option.some.injEq, Prod.mk.injEq] at h
              obtain ⟨-, rfl⟩ := h
              simp
            · simp at h
        · exact step h

/-- The sections of a text up to the first error, and that error. -/
def sections (ls : List Bytes) : List Section × Option Error :=
  match _h : next none [] ls with
  | .error e => ([], some e)
  | .ok none => ([], none)
  | .ok (some (s, rest)) =>
    let (more, e) := sections rest
    (s :: more, e)
termination_by ls.length
decreasing_by exact next_length ‹_›

/-- The sections of a text, given as bytes. -/
def ofBytes (b : Bytes) : List Section × Option Error := sections (lines b)

end Pem
end Http1Client
