/-
# Where the body of a response ends

The status and the header section settle it, and whether the request was a
`HEAD`. In order: such a response and the bodiless statuses have no body; a
transfer encoding that mentions `chunked` makes the body chunked; else the
`content-length` values give its length; else the body ends with the
connection.

A `content-length` value is a list of numbers with commas between them, and
all the numbers of all the values have to agree.

Key definitions: `LengthField.element`, `LengthField.agree`,
`Response.framing`.
-/
import Http1Client.Response
import Http1Client.Framing

namespace Http1Client
namespace LengthField

/-- The number that one element of a list denotes. -/
def element (b : Bytes) : Except LengthFault Nat :=
  match Numeral.ofDecimal? b with
  | none => .error (.notDigits (Bytes.toText b))
  | some n => if n < Numeral.wordBound then .ok n else .error (.tooLarge (Bytes.toText b))

/-- Takes one more element: it has to denote the number that came before. -/
def agree (seen : Option Nat) (b : Bytes) : Except LengthFault (Option Nat) :=
  match element b with
  | .error fault => .error fault
  | .ok n =>
    match seen with
    | none => .ok (some n)
    | some m => if m = n then .ok (some n) else .error (.conflict m n)

/-- The elements of a value: what stands between its commas, without blanks at
either end. -/
def elements (v : FieldValue) : List Bytes := (Bytes.split 44 v.bytes).map Bytes.trim

/-- Takes the elements of one more value. -/
def agreeAll (seen : Option Nat) (v : FieldValue) : Except LengthFault (Option Nat) :=
  if v.bytes.all Bytes.isPrintable then (elements v).foldlM agree seen else .error .unprintable

/-- The number on which all elements of all values agree, if there are values. -/
def agreed (vs : List FieldValue) : Except LengthFault (Option Nat) := vs.foldlM agreeAll none

end LengthField

namespace Response

/-- Has the response no body, whatever its fields say? -/
def isBodiless (toHead : Bool) (r : Response) : Bool :=
  toHead || r.status.any StatusCode.isBodiless

/-- Where the body of the response ends; `toHead` tells that the request was a
`HEAD`. -/
def framing (toHead : Bool) (r : Response) : Except LengthFault Framing :=
  if r.isBodiless toHead then .ok .empty
  else if r.fields.mention .transferEncoding "chunked" then .ok .chunked
  else match LengthField.agreed (r.fields.values .contentLength) with
    | .error fault => .error fault
    | .ok none => .ok .untilClose
    | .ok (some n) => .ok (.length n)

end Response
end Http1Client
