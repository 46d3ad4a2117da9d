/-
# DER

The binary form of certificates. An element is a tag, the length of its
contents and the contents; the contents of a compound element are elements
again. A tag is one byte. A length below 128 is one byte, a longer one is
written in the fewest of one or two bytes behind a byte that gives their
number. No element is longer than `Der.sizeLimit` allows.

Key definitions: `Der.Element`, `Der.read`, `Der.take`, `Der.skip`.
Key theorems: `Der.read_length`, `Der.take_length`.
-/
import Http1Client.Bytes

namespace Http1Client
namespace Der

/-- One element: its tag and its contents. -/
structure Element where
  tag : UInt8
  contents : Bytes
  deriving DecidableEq, Repr

/-- The length that the contents of an element have to stay below. -/
def sizeLimit : Nat := 65535

/-- Reads a length. Gives it with the bytes behind it. -/
def readLength : Bytes → Option (Nat × Bytes)
  | [] => none
  | n :: rest =>
    if n < 128 then some (n.toNat, rest)
    else match n.toNat - 128, rest with
      | 1, a :: rest => if 128 ≤ a then some (a.toNat, rest) else none
      | 2, a :: b :: rest => if a = 0 then none else some (a.toNat * 256 + b.toNat, rest)
      | _, _ => none

/-- Reads one element. A tag whose number does not fit its byte is refused.
Gives the element with the bytes behind it. -/
def read : Bytes → Option (Element × Bytes)
  | [] => none
  | tag :: rest =>
    if tag &&& 31 = 31 then none
    else match readLength rest with
      | none => none
      | some (n, rest) =>
        if sizeLimit ≤ n ∨ Bytes.isShorter n rest then none
        else some (⟨tag, rest.take n⟩, rest.drop n)

/-- Reads one element, which has to have the given tag. Gives its contents with
the bytes behind it. -/
def take (tag : UInt8) (b : Bytes) : Option (Bytes × Bytes) :=
  match read b with
  | none => none
  | some (e, rest) => if e.tag = tag then some (e.contents, rest) else none

/-- Reads elements with the given tags, in their order. Gives the bytes behind
them. -/
def skip : List UInt8 → Bytes → Option Bytes
  | [], b => some b
  | tag :: tags, b =>
    match take tag b with
    | none => none
    | some (_, rest) => skip tags rest

theorem readLength_length {b : Bytes} {n : Nat} {rest : Bytes}
    (h : readLength b = some (n, rest)) : rest.length < b.length := by
  unfold readLength at h
  split at h
  · simp at h
  · split at h
    · simp only [Option.some.injEq, Prod.mk.injEq] at h
      obtain ⟨-, rfl⟩ := h
      simp
    · split at h
      · split at h
        · simp only [Option.some.injEq, Prod.mk.injEq] at h
          obtain ⟨-, rfl⟩ := h
          simp only [List.length_cons]
          omega
        · simp at h
      · split at h
        · simp at h
        · simp only [Option.some.injEq, Prod.mk.injEq] at h
          obtain ⟨-, rfl⟩ := h
          simp only [List.length_cons]
          omega
      · simp at h

theorem read_length {b : Bytes} {e : Element} {rest : Bytes} (h : read b = some (e, rest)) :
    rest.length < b.length := by
  unfold read at h
  split at h
  · simp at h
  · split at h
    · simp at h
    · split at h
      · simp at h
      · next hr =>
        split at h
        · simp at h
        · simp only [Option.some.injEq, Prod.mk.injEq] at h
          obtain ⟨-, rfl⟩ := h
          have := readLength_length hr
          simp only [List.length_drop, List.length_cons]
          omega

theorem take_length {tag : UInt8} {b contents rest : Bytes}
    (h : take tag b = some (contents, rest)) : rest.length < b.length := by
  unfold take at h
  split at h
  · simp at h
  · next hr =>
    split at h
    · simp only [Option.some.injEq, Prod.mk.injEq] at h
      obtain ⟨-, rfl⟩ := h
      exact read_length hr
    · simp at h

end Der
end Http1Client
