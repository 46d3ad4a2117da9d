/-
# What one reading takes off a wire

A reading takes the front of the bytes that are still to come, or meets the end
of the stream, or takes nothing (`Wire.handed_read`). What it takes is in order
and leaves the rest in order (`Arrival.Gives`). A wire may be told to go on
behind an end; `Wire.EndsLast` says that no byte stands there.

Key definitions: `Arrival.Gives`, `Arrival.MeetsEnd`, `Arrival.Handed`,
`Arrival.actsIn`, `Wire.ends`, `Wire.EndsLast`.
Key theorems: `Wire.handed_read`.
-/
import Http1Client.Wire

namespace Http1Client
namespace Arrival

/-! ### What arrives -/

/-- The bytes that arrive, in order. -/
def bytesIn (as : List Arrival) : Bytes := as.flatMap Wire.bytesOf

/-- How often what arrives says that the stream has ended. -/
def endsIn : List Arrival → Nat
  | [] => 0
  | .act .zero :: as => endsIn as + 1
  | _ :: as => endsIn as

/-- How often what arrives is an act, and no bytes. -/
def actsIn : List Arrival → Nat
  | [] => 0
  | .bytes _ :: as => actsIn as
  | .act _ :: as => actsIn as + 1

/-- No byte arrives behind an end. -/
def EndsLast : List Arrival → Prop
  | [] => True
  | .act .zero :: as => bytesIn as = []
  | _ :: as => EndsLast as

theorem endsLast_of_bytesIn : ∀ as : List Arrival, bytesIn as = [] → EndsLast as
  | [], _ => trivial
  | .act .zero :: _, h => h
  | .act (.fail _) :: as, h => endsLast_of_bytesIn as h
  | .act .pause :: as, h => endsLast_of_bytesIn as h
  | .act .hang :: as, h => endsLast_of_bytesIn as h
  | .act .cancel :: as, h => endsLast_of_bytesIn as h
  | .act .cancelNow :: as, h => endsLast_of_bytesIn as h
  | .bytes _ :: as, h => endsLast_of_bytesIn as (List.append_eq_nil_iff.mp h).2

/-- What is handed over without an end, and what is left. -/
structure Gives (as : List Arrival) (b : Bytes) (as' : List Arrival) : Prop where
  bytes : bytesIn as = b ++ bytesIn as'
  ends : endsIn as' = endsIn as
  endsLast : EndsLast as → EndsLast as'
  acts : actsIn as' ≤ actsIn as

theorem Gives.refl (as : List Arrival) : Gives as [] as := ⟨rfl, rfl, id, Nat.le_refl _⟩

theorem Gives.trans {as as' as'' : List Arrival} {b b' : Bytes} (h : Gives as b as')
    (h' : Gives as' b' as'') : Gives as (b ++ b') as'' :=
  ⟨by rw [h.bytes, h'.bytes, List.append_assoc], h'.ends.trans h.ends,
    fun he => h'.endsLast (h.endsLast he), Nat.le_trans h'.acts h.acts⟩

/-- An end of the stream is met. -/
structure MeetsEnd (as as' : List Arrival) : Prop where
  bytes : bytesIn as' = bytesIn as
  ends : endsIn as' ≤ endsIn as
  endsLast : EndsLast as → bytesIn as = [] ∧ EndsLast as'

/-! ### One question -/

/-- What one question comes to, and what is left. A question that is not
answered, or with an error, uses an act up. -/
inductive Handed (as : List Arrival) : Poll (Except IoError Bytes) → List Arrival → Prop where
  | bytes {x : UInt8} {xs : Bytes} {as' : List Arrival} : Gives as (x :: xs) as' →
      Handed as (.ready (.ok (x :: xs))) as'
  | ended {as' : List Arrival} : MeetsEnd as as' → Handed as (.ready (.ok [])) as'
  | failed {e : IoError} {as' : List Arrival} : Gives as [] as' → actsIn as' < actsIn as →
      Handed as (.ready (.error e)) as'
  | waits {again : Bool} {as' : List Arrival} : Gives as [] as' → actsIn as' < actsIn as →
      Handed as (.wait again) as'

/-- An arrival that no answer shows. -/
theorem Handed.behind {a : Arrival} {as as' : List Arrival} {p : Poll (Except IoError Bytes)}
    (ha : a = .bytes [] ∨ a = .act .cancelNow) (h : Handed as p as') : Handed (a :: as) p as' := by
  have hpass : Gives (a :: as) [] as := by
    rcases ha with rfl | rfl
    · exact ⟨rfl, rfl, id, Nat.le_refl _⟩
    · exact ⟨rfl, rfl, id, Nat.le_succ _⟩
  cases h with
  | bytes hg => exact .bytes (hpass.trans hg)
  | ended hm =>
    refine .ended ⟨hm.bytes.trans hpass.bytes.symm, hpass.ends ▸ hm.ends, fun he => ?_⟩
    rw [hpass.bytes]
    exact hm.endsLast (hpass.endsLast he)
  | failed hg hlt => exact .failed (hpass.trans hg) (Nat.lt_of_lt_of_le hlt hpass.acts)
  | waits hg hlt => exact .waits (hpass.trans hg) (Nat.lt_of_lt_of_le hlt hpass.acts)

theorem gives_segment (x : UInt8) (xs : Bytes) (room : Nat) (as : List Arrival) :
    Gives (.bytes (x :: xs) :: as) ((x :: xs).take room)
      (Act.putBack ((x :: xs).drop room) as) := by
  unfold Act.putBack
  split
  · next hnil =>
    refine ⟨?_, rfl, id, Nat.le_refl _⟩
    rw [List.take_of_length_le (List.drop_eq_nil_iff.mp hnil)]
    rfl
  · refine ⟨?_, rfl, id, Nat.le_refl _⟩
    show (x :: xs) ++ bytesIn as = (x :: xs).take room ++ ((x :: xs).drop room ++ bytesIn as)
    rw [← List.append_assoc, List.take_append_drop]

/-- One question hands over the front of what arrives, or tells of an end,
or hands over nothing. -/
theorem handed_handOver {room : Nat} (hr : 0 < room) : ∀ as : List Arrival,
    Handed as (Act.handOver room as).answer (Act.handOver room as).left
  | [] => .ended ⟨rfl, Nat.le_refl _, fun _ => ⟨rfl, trivial⟩⟩
  | .bytes [] :: as => (handed_handOver hr as).behind (.inl rfl)
  | .bytes (x :: xs) :: as => by
    obtain ⟨n, rfl⟩ := Nat.exists_eq_succ_of_ne_zero (Nat.ne_of_gt hr)
    have hgives := gives_segment x xs (n + 1) as
    simpa [Act.handOver] using Handed.bytes hgives
  | .act (.fail _) :: as => .failed ⟨rfl, rfl, id, Nat.le_succ _⟩ (Nat.lt_succ_self _)
  | .act .zero :: as => .ended ⟨rfl, Nat.le_succ _, fun h => ⟨h, endsLast_of_bytesIn as h⟩⟩
  | .act .pause :: as => .waits ⟨rfl, rfl, id, Nat.le_succ _⟩ (Nat.lt_succ_self _)
  | .act .hang :: as => .waits ⟨rfl, rfl, id, Nat.le_succ _⟩ (Nat.lt_succ_self _)
  | .act .cancel :: as => .waits ⟨rfl, rfl, id, Nat.le_succ _⟩ (Nat.lt_succ_self _)
  | .act .cancelNow :: as => (handed_handOver hr as).behind (.inr rfl)

end Arrival

namespace Wire

/-- How often the wire will still tell of an end of the stream. -/
def ends (w : Wire) : Nat := Arrival.endsIn w.arriving

/-- No byte stands behind an end of the stream. -/
def EndsLast (w : Wire) : Prop := Arrival.EndsLast w.arriving

theorem handed_read {w w' : Wire} {room : Nat} {p : Poll (Except IoError Bytes)} (hr : 0 < room)
    (h : w.read room = (p, w')) : Arrival.Handed w.arriving p w'.arriving := by
  simp only [read, Prod.mk.injEq] at h
  obtain ⟨rfl, rfl⟩ := h
  exact Arrival.handed_handOver hr w.arriving

theorem unread_congr {w w' : Wire} (h : w'.arriving = w.arriving) : w'.unread = w.unread :=
  congrArg Arrival.bytesIn h

end Wire

theorem Arrival.Gives.unread {w w' : Wire} {b : Bytes} (h : Gives w.arriving b w'.arriving) :
    w.unread = b ++ w'.unread := h.bytes

theorem Arrival.MeetsEnd.unread {w w' : Wire} (h : MeetsEnd w.arriving w'.arriving) :
    w'.unread = w.unread := h.bytes

end Http1Client
