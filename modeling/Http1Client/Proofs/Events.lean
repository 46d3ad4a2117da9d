/-
# Events that stand

An event that was given out is given out with more bytes behind it too: the
head, a piece of data, the end and a fault. Where more bytes are needed they
are all that is needed, and the decoder goes on from where it stopped
(`Incoming.next_append_of_need` and its companions). Only data may grow, in a
body that is not chunked, and only a head that was given up for its size may
turn out to have another fault.

Key definitions: `Incoming.chunking`.
Key theorems: `Incoming.next_append_of_need`, `Incoming.next_append_of_data`,
`Incoming.next_append_of_fail`.
-/
import Http1Client.Proofs.Head.Taking
import Http1Client.Proofs.Body.Reading

namespace Http1Client
namespace Incoming

/-! ### The body that is open -/

variable {s s' : Incoming} {b rest : Bytes}

/-- Is the body chunked, if there is one? -/
def chunking (s : Incoming) : Option Bool := s.body.map (·.isChunked)

theorem chunking_next_of_need (h : s.next b = (.need, s', rest)) : s'.chunking = s.chunking := by
  cases hd : s.body with
  | none =>
    rw [next_of_no_body hd] at h
    obtain ⟨rfl, -⟩ := nextHead_append_of_need h []
    rfl
  | some d =>
    rw [next_of_body hd, Prod.mk.injEq, Prod.mk.injEq] at h
    obtain ⟨h1, rfl, -⟩ := h
    rw [pieceEvent_eq_need.mp h1]
    simp [chunking, afterPiece, hd, d.isChunked_decode]

theorem chunking_next_of_data {x : Bytes} (h : s.next b = (.item (.piece (.data x)), s', rest)) :
    s'.chunking = s.chunking ∧ s.chunking ≠ none := by
  cases hd : s.body with
  | none =>
    rw [next_of_no_body hd] at h
    exact absurd (congrArg Prod.fst h) (nextHead_ne_piece s b _)
  | some d =>
    rw [next_of_body hd, Prod.mk.injEq, Prod.mk.injEq] at h
    obtain ⟨h1, rfl, -⟩ := h
    rw [pieceEvent_eq_piece.mp h1]
    simp [chunking, afterPiece, hd, d.isChunked_decode]

theorem chunking_next_of_head {response : Response} {framing : Framing}
    (h : s.next b = (.item (.head response framing), s', rest)) :
    s'.chunking = some framing.isChunked ∧ s.chunking = none := by
  cases hd : s.body with
  | none =>
    rw [next_of_no_body hd] at h
    obtain ⟨_, f, he, -, rfl⟩ := nextHead_item h
    rw [Event.head.injEq] at he
    obtain ⟨-, rfl⟩ := he
    simp [chunking, hd, BodyDecoder.isChunked_ofFraming]
  | some d =>
    rw [next_of_body hd] at h
    exact absurd (congrArg Prod.fst h) (pieceEvent_ne_head _ _ _)

/-! ### Asked again with more bytes -/

theorem next_append_of_need (h : s.next b = (.need, s', rest)) (c : Bytes) :
    s.next (b ++ c) = s'.next (rest ++ c) := by
  cases hd : s.body with
  | none =>
    rw [next_of_no_body hd] at h
    obtain ⟨rfl, h2, -⟩ := nextHead_append_of_need h c
    rw [next_of_no_body hd, next_of_no_body hd, h2]
  | some d =>
    rw [next_of_body hd, Prod.mk.injEq, Prod.mk.injEq] at h
    obtain ⟨h1, rfl, rfl⟩ := h
    have hp := pieceEvent_eq_need.mp h1
    have hc := BodyDecoder.decode_append_of_need (Prod.ext hp rfl) c
    rw [next_of_body hd, hc, hp, next_of_body (s := s.afterPiece _ _) rfl]
    cases ((d.decode b).2.1.decode ((d.decode b).2.2 ++ c)).1 with
    | need => rfl
    | fail e => rfl
    | item q => cases q <;> rfl

/-- What is needed does not come of asking again. -/
theorem next_of_need (h : s.next b = (.need, s', rest)) : s'.next rest = (.need, s', rest) := by
  have := next_append_of_need h []
  rw [List.append_nil, List.append_nil] at this
  rw [← this, h]

theorem next_append_of_fail {e : DecodeError} (h : s.next b = (.fail e, s', rest)) (c : Bytes) :
    ∃ e' s'' rest', s.next (b ++ c) = (.fail e', s'', rest') ∧
      (e = e' ∨ e.isHeadTooLarge = true) := by
  cases hd : s.body with
  | none =>
    rw [next_of_no_body hd] at h ⊢
    exact nextHead_append_of_fail h c
  | some d =>
    rw [next_of_body hd, Prod.mk.injEq, Prod.mk.injEq] at h
    obtain ⟨h1, rfl, rfl⟩ := h
    have hp := pieceEvent_eq_fail.mp h1
    have hc := BodyDecoder.decode_append_of_end (Prod.ext hp rfl) (.inr ⟨e, rfl⟩) c
    rw [next_of_body hd, hc]
    exact ⟨e, _, _, rfl, .inl rfl⟩

theorem next_append_of_head {response : Response} {framing : Framing}
    (h : s.next b = (.item (.head response framing), s', rest)) (c : Bytes) :
    s.next (b ++ c) = (.item (.head response framing), s', rest ++ c) := by
  cases hd : s.body with
  | none =>
    rw [next_of_no_body hd] at h ⊢
    exact nextHead_append_of_item h c
  | some d =>
    rw [next_of_body hd] at h
    exact absurd (congrArg Prod.fst h) (pieceEvent_ne_head _ _ _)

theorem next_append_of_finish (h : s.next b = (.item (.piece .finish), s', rest)) (c : Bytes) :
    s.next (b ++ c) = (.item (.piece .finish), s', rest ++ c) := by
  cases hd : s.body with
  | none =>
    rw [next_of_no_body hd] at h
    exact absurd (congrArg Prod.fst h) (nextHead_ne_piece s b _)
  | some d =>
    rw [next_of_body hd, Prod.mk.injEq, Prod.mk.injEq] at h
    obtain ⟨h1, rfl, rfl⟩ := h
    have hp := pieceEvent_eq_piece.mp h1
    have hc := BodyDecoder.decode_append_of_end (Prod.ext hp rfl) (.inl rfl) c
    rw [next_of_body hd, hc, hp]
    rfl

/-- Data is the same with more bytes behind it, or there is more of it in a
body that is not chunked. -/
theorem next_append_of_data {x : Bytes} (h : s.next b = (.item (.piece (.data x)), s', rest))
    (c : Bytes) : s.next (b ++ c) = (.item (.piece (.data x)), s', rest ++ c) ∨
      (s'.chunking ≠ some true ∧ ∃ y s'' rest',
        s'.next (rest ++ c) = (.item (.piece (.data y)), s'', rest') ∧
          s.next (b ++ c) = (.item (.piece (.data (x ++ y))), s'', rest')) := by
  cases hd : s.body with
  | none =>
    rw [next_of_no_body hd] at h
    exact absurd (congrArg Prod.fst h) (nextHead_ne_piece s b _)
  | some d =>
    rw [next_of_body hd, Prod.mk.injEq, Prod.mk.injEq] at h
    obtain ⟨h1, rfl, rfl⟩ := h
    have hp := pieceEvent_eq_piece.mp h1
    rw [hp]
    rcases BodyDecoder.decode_append_of_data (Prod.ext hp rfl) c with h2 | ⟨h2, y, d'', r, h3, h4⟩
    · left
      rw [next_of_body hd, h2]
      rfl
    · right
      refine ⟨?_, y, s.afterPiece d'' (.item (.data y)), r, ?_, ?_⟩
      · have := d.isChunked_decode b
        simp [chunking, afterPiece, this, h2]
      · rw [next_of_body (s := s.afterPiece _ _) rfl, h3]
        rfl
      · rw [next_of_body hd, h4]
        rfl

/-- A head that is given out leaves less to decode. -/
theorem size_next_of_head {response : Response} {framing : Framing}
    (h : s.next b = (.item (.head response framing), s', rest)) : s'.size rest < s.size b := by
  cases hd : s.body with
  | none =>
    rw [next_of_no_body hd] at h
    have hlen := nextHead_length h
    obtain ⟨_, f, -, -, rfl⟩ := nextHead_item h
    have hdata : (BodyDecoder.ofFraming s.chunkLimit f).inData = false := by
      cases f <;> rfl
    simp only [size, hd, Option.any_some, Option.any_none, hdata, Bool.toNat_false]
    omega
  | some d =>
    rw [next_of_body hd] at h
    exact absurd (congrArg Prod.fst h) (pieceEvent_ne_head _ _ _)

end Incoming

end Http1Client
