/-
# Base64

Text that carries bytes: four symbols stand for three bytes, six bits each. The
last group may be short, and is then filled up with padding or left as it is;
bits that are left over are not looked at. Blanks and line ends may stand
anywhere.

The symbols are taken eight at a time. Padding inside eight symbols that are
not the last ones comes too early, and so does padding in the first half of the
last eight.

Key definitions: `Base64.Symbol`, `Base64.symbols`, `Base64.decode`,
`Base64.Error`.
-/
import Http1Client.Bytes

namespace Http1Client
namespace Base64

/-- Why a text is not base64. -/
inductive Error where
  | badSymbol (byte : UInt8)
  | paddingTooEarly
  | badPadding
  deriving DecidableEq, Repr

/-- The name of the error. -/
def Error.text : Error → String
  | badSymbol byte => s!"InvalidCharacter({byte.toNat})"
  | paddingTooEarly => "PrematurePadding"
  | badPadding => "InvalidTrailingPadding"

/-- The six bits that a byte stands for. -/
def value? (b : UInt8) : Option Nat :=
  if 65 ≤ b && b ≤ 90 then some (b.toNat - 65)
  else if 97 ≤ b && b ≤ 122 then some (b.toNat - 71)
  else if Bytes.isDigit b then some (b.toNat + 4)
  else if b = 43 then some 62
  else if b = 47 then some 63
  else none

/-- A byte that counts: six bits, or padding. -/
inductive Symbol where
  | bits (value : Nat)
  | pad
  deriving DecidableEq, Repr

namespace Symbol

/-- The six bits of a symbol, zero for padding. -/
def value : Symbol → Nat
  | bits v => v
  | pad => 0

end Symbol

/-- The bytes that may stand between symbols: space, tab, and the bytes that
end a line or a page. -/
def isBlank (b : UInt8) : Bool := b == 32 || (9 ≤ b && b ≤ 13)

/-- The symbols of a text up to the first byte that is none, and that byte. -/
def symbols : Bytes → List Symbol × Option UInt8
  | [] => ([], none)
  | b :: bs =>
    if isBlank b then symbols bs
    else if b = 61 then
      let (s, bad) := symbols bs
      (.pad :: s, bad)
    else match value? b with
      | none => ([], some b)
      | some v =>
        let (s, bad) := symbols bs
        (.bits v :: s, bad)

/-- The three bytes that four symbols stand for. -/
def group (a b c d : Symbol) : Bytes :=
  let n := ((a.value * 64 + b.value) * 64 + c.value) * 64 + d.value
  [(n / 65536).toUInt8, (n / 256).toUInt8, n.toUInt8]

/-- Decodes the last group, of four symbols at most. -/
def lastGroup : List Symbol → Except Error Bytes
  | [] => .ok []
  | [.bits a, .bits b, .bits c, .bits d] => .ok (group (.bits a) (.bits b) (.bits c) (.bits d))
  | [.bits a, .bits b, .bits c, .pad] => .ok ((group (.bits a) (.bits b) (.bits c) .pad).take 2)
  | [.bits a, .bits b, .bits c] => .ok ((group (.bits a) (.bits b) (.bits c) .pad).take 2)
  | [.bits a, .bits b, .pad, .pad] => .ok ((group (.bits a) (.bits b) .pad .pad).take 1)
  | [.bits a, .bits b] => .ok ((group (.bits a) (.bits b) .pad .pad).take 1)
  | _ => .error .badPadding

/-- Decodes the last symbols, eight at most. -/
def lastBlock : List Symbol → Except Error Bytes
  | a :: b :: c :: d :: e :: rest =>
    if Symbol.pad ∈ [a, b, c, d] then .error .paddingTooEarly
    else (lastGroup (e :: rest)).map (group a b c d ++ ·)
  | last => lastGroup last

/-- Decodes symbols; `bad` is the byte that stopped them, if one did. -/
def blocks (bad : Option UInt8) : List Symbol → Except Error Bytes
  | a :: b :: c :: d :: e :: f :: g :: h :: next :: rest =>
    if Symbol.pad ∈ [a, b, c, d, e, f, g, h] then .error .paddingTooEarly
    else (blocks bad (next :: rest)).map (group a b c d ++ group e f g h ++ ·)
  | last =>
    match bad with
    | some byte => .error (.badSymbol byte)
    | none => lastBlock last

/-- Decodes a text. -/
def decode (b : Bytes) : Except Error Bytes :=
  let (s, bad) := symbols b
  blocks bad s

end Base64
end Http1Client
