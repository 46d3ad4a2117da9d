/-
# A transport, event by event

An exchange meets its transport only in the answers that it gets when it asks
for progress: bytes, an error, or that there is none yet. A `Wire` is such a
transport told in full: what it will do, in order, whenever it is asked to
connect, to hand over bytes, to take bytes, to flush or to close, and what has
been done with it so far. Behind the end of its script it is always ready, and
nothing more arrives.

A transport that is not ready may wake the one who asked (`Act.pause`) or
never do so (`Act.hang`). It may also cancel the exchange that runs over it,
at the moment it is asked (`Act.cancel`, `Act.cancelNow`).

Key definitions: `Act`, `Arrival`, `Poll`, `Wire`, `Wire.connect`, `Wire.read`,
`Wire.write`, `Wire.flush`, `Wire.close`.
Key theorems: `Wire.readSize_read`.
-/
import Http1Client.IoError
import Http1Client.Bytes

namespace Http1Client

/-- What a transport does, once, when it is asked for progress. -/
inductive Act where
  /-- Reports an error. -/
  | fail (e : IoError)
  /-- Hands over or takes no byte. -/
  | zero
  /-- Is not ready, and asks to be asked again. -/
  | pause
  /-- Is not ready, and does not say when it will be. -/
  | hang
  /-- Cancels the exchange, and is not ready. -/
  | cancel
  /-- Cancels the exchange, and goes on with what comes next. -/
  | cancelNow
  deriving DecidableEq, Repr

/-- What comes next when bytes are read. -/
inductive Arrival where
  | bytes (b : Bytes)
  | act (a : Act)
  deriving DecidableEq, Repr

/-- The answer to one question for progress. -/
inductive Poll (α : Type) where
  | ready (a : α)
  /-- There is none yet. `again` tells whether it is worth asking again at once. -/
  | wait (again : Bool)
  deriving DecidableEq, Repr

/-- Asks as long as it is worth it, at most `rounds` times more. No result
means that it was not ready at the end. -/
def Poll.retry {α σ : Type} (rounds : Nat) (ask : σ → Poll α × σ) (s : σ) : Option α × σ :=
  match rounds, ask s with
  | rounds + 1, (.wait true, s') => retry rounds ask s'
  | _, (.wait _, s') => (none, s')
  | _, (.ready a, s') => (some a, s')

/-- What became of a question for progress: the answer, what is left of the
script, and whether the exchange was cancelled on the way. -/
structure Answered (α σ : Type) where
  answer : Poll (Except IoError α)
  left : List σ
  cancels : Bool := false

namespace Act

/-- Performs acts up to the first one that answers; behind the last one the
answer is yes. -/
def perform : List Act → Answered Unit Act
  | [] => ⟨.ready (.ok ()), [], false⟩
  | .fail e :: as => ⟨.ready (.error e), as, false⟩
  | .zero :: as => ⟨.ready (.ok ()), as, false⟩
  | .pause :: as => ⟨.wait true, as, false⟩
  | .hang :: as => ⟨.wait false, as, false⟩
  | .cancel :: as => ⟨.wait false, as, true⟩
  | .cancelNow :: as => { perform as with cancels := true }

/-- Puts what is left of a segment back in front of what arrives. -/
def putBack (b : Bytes) (as : List Arrival) : List Arrival := if b = [] then as else .bytes b :: as

/-- Hands over what arrives next, at most `room` bytes. What is left of a
segment stays in front. No bytes mean the end of the stream. -/
def handOver (room : Nat) : List Arrival → Answered Bytes Arrival
  | [] => ⟨.ready (.ok []), [], false⟩
  | .bytes b :: as =>
    if b = [] then handOver room as
    else ⟨.ready (.ok (b.take room)), putBack (b.drop room) as, false⟩
  | .act (.fail e) :: as => ⟨.ready (.error e), as, false⟩
  | .act .zero :: as => ⟨.ready (.ok []), as, false⟩
  | .act .pause :: as => ⟨.wait true, as, false⟩
  | .act .hang :: as => ⟨.wait false, as, false⟩
  | .act .cancel :: as => ⟨.wait false, as, true⟩
  | .act .cancelNow :: as => { handOver room as with cancels := true }

/-- Tells how many of `n` bytes are taken, at most `room`. In front of an act
stands the number of bytes to be taken before it is performed. -/
def takeUpTo (room n : Nat) : List (Nat × Act) → Answered Nat (Nat × Act)
  | [] => ⟨.ready (.ok (min room n)), [], false⟩
  | (k + 1, a) :: as =>
    ⟨.ready (.ok (min (min room n) (k + 1))), (k + 1 - min (min room n) (k + 1), a) :: as, false⟩
  | (0, .fail e) :: as => ⟨.ready (.error e), as, false⟩
  | (0, .zero) :: as => ⟨.ready (.ok 0), as, false⟩
  | (0, .pause) :: as => ⟨.wait true, as, false⟩
  | (0, .hang) :: as => ⟨.wait false, as, false⟩
  | (0, .cancel) :: as => ⟨.wait false, as, true⟩
  | (0, .cancelNow) :: as => { takeUpTo room n as with cancels := true }

end Act

/-- A transport: what it will do, and what has been done with it. -/
structure Wire where
  /-- What it does while it connects. -/
  connecting : List Act := []
  /-- What it does when bytes are read. -/
  arriving : List Arrival := []
  /-- The most bytes it takes at once, if there is such a number. -/
  perWrite : Option Nat := none
  /-- What it does when bytes are written, each act behind a number of bytes. -/
  stops : List (Nat × Act) := []
  /-- What it does when it is flushed. -/
  flushing : List Act := []
  /-- What it does when it is closed. -/
  closing : List Act := []
  /-- Has it cancelled the exchange? -/
  cancelled : Bool := false
  /-- The hosts and ports it was asked to connect to, in order. -/
  dialled : List (List Char × Nat) := []
  /-- Has it been connected? -/
  connected : Bool := false
  /-- Has a connection been let go of? -/
  dropped : Bool := false
  /-- The bytes it has taken, in order. -/
  taken : Bytes := []
  /-- How often it was asked to close. -/
  closes : Nat := 0
  deriving DecidableEq

namespace Wire

/-- Marks the start of a connection. -/
def dial (w : Wire) (host : List Char) (port : Nat) : Wire :=
  { w with dialled := w.dialled ++ [(host, port)] }

/-- Asks whether the connection stands. -/
def connect (w : Wire) : Poll (Except IoError Unit) × Wire :=
  let r := Act.perform w.connecting
  let w := { w with connecting := r.left, cancelled := w.cancelled || r.cancels }
  match r.answer with
  | .ready (.ok ()) => (.ready (.ok ()), { w with connected := true })
  | answer => (answer, w)

/-- Asks for at most `room` bytes. None means the end of the stream. -/
def read (w : Wire) (room : Nat) : Poll (Except IoError Bytes) × Wire :=
  let r := Act.handOver room w.arriving
  (r.answer, { w with arriving := r.left, cancelled := w.cancelled || r.cancels })

/-- Offers bytes. The answer tells how many of them, from the front, were taken. -/
def write (w : Wire) (b : Bytes) : Poll (Except IoError Nat) × Wire :=
  let r := Act.takeUpTo (w.perWrite.getD b.length) b.length w.stops
  let w := { w with stops := r.left, cancelled := w.cancelled || r.cancels }
  match r.answer with
  | .ready (.ok n) => (.ready (.ok n), { w with taken := w.taken ++ b.take n })
  | answer => (answer, w)

/-- Asks whether all that was taken is on its way. -/
def flush (w : Wire) : Poll (Except IoError Unit) × Wire :=
  let r := Act.perform w.flushing
  (r.answer, { w with flushing := r.left, cancelled := w.cancelled || r.cancels })

/-- Asks whether the connection is closed. -/
def close (w : Wire) : Poll (Except IoError Unit) × Wire :=
  let r := Act.perform w.closing
  (r.answer,
    { w with closing := r.left, cancelled := w.cancelled || r.cancels, closes := w.closes + 1 })

/-- Lets go of the connection. -/
def drop (w : Wire) : Wire := { w with dropped := true }

/-- What dropping a wire leaves alone is the same whether it was dropped or not. -/
theorem frame_of_drop {α : Type} {f : Wire → α} {w w' : Wire} (hf : f w.drop = f w)
    (h : w' = w ∨ w' = w.drop) : f w' = f w := by
  rcases h with rfl | rfl
  · rfl
  · exact hf

/-! ### Sizes -/

/-- The bytes of what arrives. -/
def bytesOf : Arrival → Bytes
  | .bytes b => b
  | .act _ => []

/-- The bytes still to be read, in order. -/
def unread (w : Wire) : Bytes := w.arriving.flatMap bytesOf

/-- The events still to be met. -/
def events (w : Wire) : Nat :=
  w.connecting.length + w.arriving.length + w.stops.length + w.flushing.length + w.closing.length

/-- The size of what arrives: its events and their bytes. -/
def arrivalSize : List Arrival → Nat
  | [] => 0
  | a :: as => 1 + (bytesOf a).length + arrivalSize as

/-- The size of what is still to be read. -/
def readSize (w : Wire) : Nat := arrivalSize w.arriving

theorem arrivalSize_handOver {room : Nat} {b : Bytes} (hb : b ≠ []) : ∀ as : List Arrival,
    (Act.handOver room as).answer = .ready (.ok b) →
      arrivalSize (Act.handOver room as).left < arrivalSize as
  | [], h => by simp [Act.handOver] at h; exact absurd h hb
  | .bytes x :: as, h => by
    by_cases hx : x = []
    · have := arrivalSize_handOver hb as (by simpa [Act.handOver, hx] using h)
      simp only [Act.handOver, hx, if_pos]
      simp only [arrivalSize] at this ⊢
      omega
    · simp only [Act.handOver, hx, if_false] at h ⊢
      have h0 : 0 < room := by
        rcases Nat.eq_zero_or_pos room with h0 | h0
        · simp [h0] at h
          exact absurd h hb
        · exact h0
      unfold Act.putBack
      have hl := List.length_pos_iff.mpr hx
      split
      · simp only [arrivalSize]
        omega
      · simp only [arrivalSize, bytesOf, List.length_drop]
        omega
  | .act (.fail e) :: as, h => by simp [Act.handOver] at h
  | .act .zero :: as, h => by simp [Act.handOver] at h; exact absurd h hb
  | .act .pause :: as, h => by simp [Act.handOver] at h
  | .act .hang :: as, h => by simp [Act.handOver] at h
  | .act .cancel :: as, h => by simp [Act.handOver] at h
  | .act .cancelNow :: as, h => by
    have := arrivalSize_handOver hb as (by simpa [Act.handOver] using h)
    simp only [Act.handOver]
    simp only [arrivalSize] at this ⊢
    omega

/-- Reading bytes leaves less to read. -/
theorem readSize_read {w w' : Wire} {room : Nat} {b : Bytes} (hb : b ≠ [])
    (h : w.read room = (.ready (.ok b), w')) : w'.readSize < w.readSize := by
  simp only [read, Prod.mk.injEq] at h
  obtain ⟨h1, h2⟩ := h
  rw [← h2]
  exact arrivalSize_handOver hb _ h1

end Wire
end Http1Client
