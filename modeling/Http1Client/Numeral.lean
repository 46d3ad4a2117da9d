/-
# Numerals

Sizes travel as text: a length in decimal, a chunk's size in hexadecimal. A
numeral is written without leading zeros, hexadecimal with capital letters,
and read in either case and with any number of leading zeros.

Key definitions: `Numeral.decimal`, `Numeral.hex`, `Numeral.ofDecimal?`,
`Numeral.ofHex?`, `Numeral.wordBound`.
Key theorems: `Numeral.value_append`.
-/
import Http1Client.Bytes

namespace Http1Client
namespace Numeral

/-- One more than the largest number a length or a size may denote: two to the
power of 64. -/
def wordBound : Nat := 18446744073709551616

/-- The digit `d`, for `d` below sixteen. -/
def digit (d : Nat) : UInt8 := if d < 10 then (48 + d).toUInt8 else (55 + d).toUInt8

/-- `n` in decimal. -/
def decimal (n : Nat) : Bytes :=
  if n < 10 then [digit n] else decimal (n / 10) ++ [digit (n % 10)]

/-- `n` in hexadecimal, with capital letters. -/
def hex (n : Nat) : Bytes :=
  if n < 16 then [digit n] else hex (n / 16) ++ [digit (n % 16)]

/-- What a digit of either case stands for, decimal or hexadecimal. -/
def digitValue? (b : UInt8) : Option Nat :=
  if 48 ≤ b && b ≤ 57 then some (b.toNat - 48)
  else if 65 ≤ b && b ≤ 70 then some (b.toNat - 55)
  else if 97 ≤ b && b ≤ 102 then some (b.toNat - 87)
  else none

/-- The number that digits to the given base denote after the number `acc`. -/
def value (base : Nat) : Nat → List Nat → Nat
  | acc, [] => acc
  | acc, d :: ds => value base (acc * base + d) ds

theorem value_append (base : Nat) (ds es : List Nat) (acc : Nat) :
    value base acc (ds ++ es) = value base (value base acc ds) es := by
  induction ds generalizing acc with
  | nil => rfl
  | cons d ds ih => simp [value, ih]

/-- The number a non-empty string of decimal digits denotes. -/
def ofDecimal? (b : Bytes) : Option Nat :=
  if b = [] then none
  else if b.all Bytes.isDigit then (b.mapM digitValue?).map (value 10 0)
  else none

/-- The number a non-empty string of hexadecimal digits denotes. -/
def ofHex? (b : Bytes) : Option Nat :=
  if b = [] then none else (b.mapM digitValue?).map (value 16 0)

end Numeral
end Http1Client
