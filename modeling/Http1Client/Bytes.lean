/-
# Byte strings and the byte classes of the message syntax

A message is a list of bytes. The names and the whitespace of HTTP/1.1 are
ASCII, so a class is a test on one byte, letter case is a map on bytes
(`Bytes.lower`), and a search that ignores case is a search in the lowered
text (`Bytes.mentions`).

Key definitions: `Bytes`, `Bytes.isTokenByte`, `Bytes.isValueByte`,
`Bytes.trim`, `Bytes.mentions`, `Bytes.isShorter`.
Key theorems: `Bytes.isShorter_iff`, `Bytes.lower_lower`, `Bytes.span_append`.
-/

namespace Http1Client

/-- A byte string, first byte first. -/
abbrev Bytes := List UInt8

namespace Bytes

/-! ### Text and bytes -/

/-- The bytes of a text whose code points are below 256, one byte for each. -/
def ofText (s : String) : Bytes := s.toList.map fun c => c.toNat.toUInt8

/-- The text with one code point for each byte. -/
def toText (b : Bytes) : String := String.ofList (b.map fun x => Char.ofNat x.toNat)

/-- The bytes as a list of numbers. -/
def numbers (b : Bytes) : String :=
  "[" ++ ", ".intercalate (b.map fun x => toString x.toNat) ++ "]"

/-- The UTF-8 form of a sequence of characters. -/
def utf8 (cs : List Char) : Bytes := cs.flatMap String.utf8EncodeChar

/-- Carriage return. -/
def cr : UInt8 := 13

/-- Line feed, which ends a line. -/
def lf : UInt8 := 10

/-- The line end that is written, and the only one the body syntax reads. -/
def crlf : Bytes := [cr, lf]

/-! ### Classes -/

/-- Space and tab, the whitespace around a field value. -/
def isBlank (b : UInt8) : Bool := b == 32 || b == 9

/-- Space, tab, line feed, form feed and carriage return. -/
def isAsciiSpace (b : UInt8) : Bool := b == 32 || b == 9 || b == 10 || b == 12 || b == 13

/-- A decimal digit. -/
def isDigit (b : UInt8) : Bool := 48 ≤ b && b ≤ 57

/-- A letter of either case. -/
def isAlpha (b : UInt8) : Bool := (65 ≤ b && b ≤ 90) || (97 ≤ b && b ≤ 122)

/-- The bytes of a token: letters, digits and fifteen marks. Methods and
field names are tokens. -/
def isTokenByte (b : UInt8) : Bool :=
  isAlpha b || isDigit b || (ofText "!#$%&'*+-.^_\x60|~").contains b

/-- The bytes of a field value: tab, space, the printable ASCII characters
and every byte outside ASCII. -/
def isValueByte (b : UInt8) : Bool := b == 9 || (32 ≤ b && b != 127)

/-- The printable part of a field value: tab, space and the printable ASCII
characters. -/
def isPrintable (b : UInt8) : Bool := b == 9 || (32 ≤ b && b < 127)

/-! ### Letter case -/

/-- The lower-case form of an ASCII letter; every other byte is its own. -/
def lower (b : UInt8) : UInt8 := if 65 ≤ b && b ≤ 90 then b + 32 else b

theorem lower_lower (b : UInt8) : lower (lower b) = lower b := by
  unfold lower
  by_cases h : (65 ≤ b && b ≤ 90) = true
  · have h' : (65 ≤ b + 32 && b + 32 ≤ 90) = false := by
      simp only [Bool.and_eq_true, decide_eq_true_eq, UInt8.le_iff_toNat_le] at h
      simp only [Bool.and_eq_false_iff, decide_eq_false_iff_not, UInt8.le_iff_toNat_le,
        UInt8.toNat_add]
      simp at *
      omega
    simp [h, h']
  · simp [h]

/-- Does `word` occur in the bytes? -/
def occurs (word : Bytes) : Bytes → Bool
  | [] => word.isEmpty
  | b :: bs => word.isPrefixOf (b :: bs) || occurs word bs

/-- Does `word`, given in lower case, occur in the bytes in any mixture of
letter cases? -/
def mentions (word b : Bytes) : Bool := occurs word (b.map lower)

/-! ### Ends and lengths -/

/-- The bytes without the run of `p` at their end. -/
def trimEnd (p : UInt8 → Bool) (b : Bytes) : Bytes := (b.reverse.dropWhile p).reverse

/-- The bytes without the blanks at either end. -/
def trim (b : Bytes) : Bytes := trimEnd isBlank (b.dropWhile isBlank)

/-- Are there fewer than `n` bytes? Looks at no more than `n` of them. -/
def isShorter (n : Nat) (b : Bytes) : Bool := (b.take n).length < n

theorem isShorter_iff {n : Nat} {b : Bytes} : isShorter n b = true ↔ b.length < n := by
  simp only [isShorter, List.length_take, decide_eq_true_eq]
  omega

theorem isShorter_eq_false {n : Nat} {b : Bytes} : isShorter n b = false ↔ n ≤ b.length := by
  rw [← Bool.not_eq_true, isShorter_iff, Nat.not_lt]

/-- A byte outside the class ends the run of the class for good. -/
theorem span_append (p : UInt8 → Bool) {b rest : Bytes} {x : UInt8}
    (h : b.dropWhile p = x :: rest) (c : Bytes) :
    (b ++ c).takeWhile p = b.takeWhile p ∧ (b ++ c).dropWhile p = x :: (rest ++ c) := by
  have hne : (b.takeWhile p).length ≠ b.length := by
    have := congrArg List.length (List.takeWhile_append_dropWhile (p := p) (l := b))
    rw [h, List.length_append, List.length_cons] at this
    omega
  have hd : (b.dropWhile p).isEmpty = false := by simp [h]
  rw [List.takeWhile_append, if_neg hne, List.dropWhile_append, hd, h]
  simp

/-- The longest list of pieces that `sep` separates. There is always one
piece, and the pieces hold no `sep`. -/
def split (sep : UInt8) : Bytes → List Bytes
  | [] => [[]]
  | b :: bs =>
    if b = sep then [] :: split sep bs
    else match split sep bs with
      | [] => [[b]]
      | p :: ps => (b :: p) :: ps

theorem split_ne_nil (sep : UInt8) : ∀ b : Bytes, split sep b ≠ []
  | [] => by simp [split]
  | b :: bs => by
    unfold split
    split
    · simp
    · split <;> simp

end Bytes

end Http1Client
