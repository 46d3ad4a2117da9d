/-
# How much a receiver buffers

A peer may send without end, and whatever it likes. Still a receiver holds
little of it: before each reading it has taken out of its buffer what can be
taken, and what stays is limited (`Proofs/Backlog.lean`), so that after the
reading the buffer holds no more than that and what a single reading hands
over. For a body of known length the limit is the size that was asked for.

A question may read many times before it is answered, or never be answered, so
that the buffer is looked at behind each reading inside a question
(`Receiver.Reads`): to have read once more is to be asked the same anew
(`Receiver.ask_of_reads`), and when a question ends there is no more in the
buffer than behind one of its readings (`Receiver.settles_ask`).

What a single reading hands over is up to the wire (`Wire.HandsAtMost`), but no
more than was asked for (`Wire.handsAtMost_room`): with the receiver's own room
for the bound, nothing is assumed about the peer. A wire has an end, and a stream
may have none; but what a receiver has read of a stream at any moment it can have
read of a wire that is long enough.

Key definitions: `Wire.HandsAtMost`, `Receiver.Question`, `Receiver.ask`,
`Receiver.run`, `Receiver.Reads`, `Receiver.Tidy`, `Receiver.Bounded`.
Key theorems: `Receiver.buffer_of_reads`, `Receiver.settles_ask`,
`Receiver.buffer_run_le`.
-/
import Mathlib.Logic.Relation
import Http1Client.Proofs.Backlog
import Http1Client.Proofs.Reception

namespace Http1Client

open Relation

/-! ### What a single reading hands over -/

theorem Act.length_handOver_le {room : Nat} {x : Bytes} : ∀ {as : List Arrival},
    (Act.handOver room as).answer = .ready (.ok x) → x.length ≤ room
  | [], h => by
    cases h
    exact Nat.zero_le _
  | .bytes b :: as, h => by
    unfold handOver at h
    split at h
    · exact length_handOver_le h
    · cases h
      exact List.length_take_le ..
  | .act .zero :: as, h => by
    cases h
    exact Nat.zero_le _
  | .act .cancelNow :: as, h => by
    rw [handOver] at h
    exact length_handOver_le h
  | .act (.fail _) :: _, h | .act .pause :: _, h | .act .hang :: _, h | .act .cancel :: _, h => by
    cases h

theorem Act.segments_handOver {room cap : Nat} : ∀ {as : List Arrival},
    (∀ a ∈ as, (Wire.bytesOf a).length ≤ cap) →
      (∀ x, (Act.handOver room as).answer = .ready (.ok x) → x.length ≤ cap) ∧
        ∀ a ∈ (Act.handOver room as).left, (Wire.bytesOf a).length ≤ cap
  | [], has => by
    refine ⟨fun x h => ?_, has⟩
    cases h
    exact Nat.zero_le _
  | .bytes b :: as, h => by
    obtain ⟨hb, has⟩ := List.forall_mem_cons.mp h
    replace hb : b.length ≤ cap := hb
    unfold handOver
    split
    · exact segments_handOver has
    · refine ⟨fun x hx => ?_, ?_⟩
      · cases hx
        exact Nat.le_trans (List.length_take_le' ..) hb
      · show ∀ a ∈ putBack _ _, _
        unfold putBack
        split
        · exact has
        · refine List.forall_mem_cons.mpr ⟨?_, has⟩
          exact Nat.le_trans (List.length_drop ▸ Nat.sub_le ..) hb
  | .act .zero :: as, h => by
    refine ⟨fun x hx => ?_, (List.forall_mem_cons.mp h).2⟩
    cases hx
    exact Nat.zero_le _
  | .act .cancelNow :: as, h => by
    rw [handOver]
    exact segments_handOver (List.forall_mem_cons.mp h).2
  | .act (.fail _) :: _, h | .act .pause :: _, h | .act .hang :: _, h | .act .cancel :: _, h =>
    ⟨fun _ hx => (by cases hx), (List.forall_mem_cons.mp h).2⟩

namespace Wire

variable {w w' : Wire} {room cap n : Nat} {x : Bytes}

theorem length_read_le (h : w.read n = (.ready (.ok x), w')) : x.length ≤ n :=
  Act.length_handOver_le (congrArg Prod.fst h)

/-- The wire after readings of at most so many bytes each. -/
def readAll (w : Wire) (ns : List Nat) : Wire := ns.foldl (fun w n => (w.read n).2) w

/-- However the wire is read, at most `room` bytes at once, a single reading
hands over at most `cap` bytes. -/
def HandsAtMost (w : Wire) (room cap : Nat) : Prop :=
  ∀ ns n x, (∀ m ∈ ns, m ≤ room) → n ≤ room →
    ((w.readAll ns).read n).1 = .ready (.ok x) → x.length ≤ cap

/-- Every wire hands over at most what it is asked for. -/
theorem handsAtMost_room (w : Wire) (room : Nat) : w.HandsAtMost room room :=
  fun _ _ _ _ hn h => Nat.le_trans (Act.length_handOver_le h) hn

theorem HandsAtMost.length_le (h : w.HandsAtMost room cap) (hn : n ≤ room)
    (hread : w.read n = (.ready (.ok x), w')) : x.length ≤ cap :=
  h [] n x (fun _ hm => by cases hm) hn (congrArg Prod.fst hread)

theorem HandsAtMost.after (h : w.HandsAtMost room cap) (hn : n ≤ room) :
    (w.read n).2.HandsAtMost room cap := by
  intro ns m x hns hm hread
  exact h (n :: ns) m x (List.forall_mem_cons.mpr ⟨hn, hns⟩) hm hread

/-- A wire hands over at most as much as its longest segment. -/
theorem handsAtMost_of_segments (h : ∀ a ∈ w.arriving, (bytesOf a).length ≤ cap) (room : Nat) :
    w.HandsAtMost room cap := by
  intro ns n x hns _ hread
  have hleft : ∀ a ∈ (w.readAll ns).arriving, (bytesOf a).length ≤ cap := by
    clear hns hread
    induction ns generalizing w with
    | nil => exact h
    | cons m ns ih => exact ih (w := (w.read m).2) (Act.segments_handOver h).2
  exact (Act.segments_handOver hleft).1 x hread

end Wire

namespace Receiver

/-! ### Questions -/

/-- What a receiver is asked for: the head, or about `size` bytes of the body. -/
inductive Question where
  | head
  | body (size : Nat)
  deriving DecidableEq, Repr

/-- An answer to a question. -/
inductive Reply where
  | head (p : Poll (Except DecodeError (Response × Framing)))
  | body (p : Poll (Except DecodeError Delivery))
  deriving DecidableEq

/-- The most data that is asked for. -/
def Question.size : Question → Nat
  | head => 0
  | body size => size

/-- The most data that any of the questions asks for. -/
def largest : List Question → Nat
  | [] => 0
  | q :: qs => max q.size (largest qs)

/-- Asks, and gives the answer. -/
def ask (q : Question) (m : Receiver × Wire) : Reply × Receiver × Wire :=
  match q with
  | .head => let (p, m') := m.1.pollHead m.2; (.head p, m')
  | .body size => let (p, m') := m.1.pollBody size m.2; (.body p, m')

/-- Asks one question after the other. -/
def run (qs : List Question) (m : Receiver × Wire) : Receiver × Wire :=
  qs.foldl (fun m q => (ask q m).2) m

/-- Inside a question bytes are read and put into the buffer, out of which has
been taken what can be taken. -/
inductive Reads : Question → Receiver × Wire → Receiver × Wire → Prop where
  | head {r : Receiver} {w w' : Wire} {s : Incoming} {rest x : Bytes} :
      r.incoming.next r.buffer = (.need, s, rest) →
      w.read r.room = (.ready (.ok x), w') → x ≠ [] →
      Reads .head (r, w) (receive { r with incoming := s, buffer := rest } x, w')
  | length {r : Receiver} {w w' : Wire} {left size : Nat} {x : Bytes} :
      r.finished = false → r.incoming.body = some (.length left) →
      r.buffer.length < r.fillTarget left size →
      w.read (min r.room (r.fillTarget left size - r.buffer.length)) = (.ready (.ok x), w') →
      x ≠ [] → Reads (.body size) (r, w) (r.receive x, w')
  | chunks {r r' : Receiver} {w w' : Wire} {c : ChunkedDecoder} {size : Nat} {given : Delivery}
      {x : Bytes} : r.finished = false → r.incoming.body = some (.chunked c) →
      r.drain (some (max size 1)) = (.ok given, r') → ¬ (given.data ≠ [] ∨ given.last) →
      w.read r'.room = (.ready (.ok x), w') → x ≠ [] →
      Reads (.body size) (r, w) (r'.receive x, w')
  | untilClose {r : Receiver} {w w' : Wire} {ended : Bool} {size : Nat} {x : Bytes} :
      r.finished = false → r.incoming.body = some (.untilClose ended) → r.buffer = [] →
      w.read (min r.room (max size 1)) = (.ready (.ok x), w') → x ≠ [] →
      Reads (.body size) (r, w) (r.receive x, w')

variable {r r' : Receiver} {w w' : Wire} {m m' : Receiver × Wire} {q : Question}

theorem fillTarget_eq (left size : Nat) (r : Receiver) :
    r.fillTarget left size = max r.buffer.length (min left size) := by
  unfold fillTarget
  omega

/-- Bytes that the target leaves room for do not change it. -/
theorem fillTarget_receive {left size : Nat} {x : Bytes}
    (hlt : r.buffer.length < r.fillTarget left size)
    (hx : x.length ≤ r.fillTarget left size - r.buffer.length) :
    (r.receive x).fillTarget left size = r.fillTarget left size := by
  rw [fillTarget_eq] at hlt hx ⊢
  rw [fillTarget_eq, receive, List.length_append]
  omega

/-! ### One reading more -/

theorem pollHead_of_read {s : Incoming} {rest xs : Bytes} {x : UInt8}
    (hn : r.incoming.next r.buffer = (.need, s, rest))
    (hread : w.read r.room = (.ready (.ok (x :: xs)), w')) :
    r.pollHead w = pollHead (receive { r with incoming := s, buffer := rest } (x :: xs)) w' := by
  conv => lhs; rw [pollHead]
  rw [hn]
  dsimp only
  split <;> rename_i h <;> cases hread.symm.trans h
  rfl

/-- Where the buffer holds too little, the wire is read and decides. -/
theorem fill_of_lt {target : Nat} (hlt : r.buffer.length < target) : fill target r w =
    match w.read (min r.room (target - r.buffer.length)) with
    | (.wait again, w') => (.wait again, r, w')
    | (.ready (.error e), w') => (.ready (.error (.io e)), r, w')
    | (.ready (.ok []), w') =>
      (.ready (.error (.cutShort
        s!"connection closed with {target - r.buffer.length} body bytes outstanding")), r, w')
    | (.ready (.ok (x :: xs)), w') => fill target (r.receive (x :: xs)) w' := by
  conv => lhs; rw [fill]
  rw [if_pos hlt]
  split <;> rename_i h <;> rw [h]

theorem fill_of_read {target : Nat} {xs : Bytes} {x : UInt8} (hlt : r.buffer.length < target)
    (hread : w.read (min r.room (target - r.buffer.length)) = (.ready (.ok (x :: xs)), w')) :
    fill target r w = fill target (r.receive (x :: xs)) w' := by
  rw [fill_of_lt hlt, hread]

/-- Where the buffer gives no data, the wire is read and decides. -/
theorem pollChunks_of_nil {size : Nat} {given : Delivery}
    (hdrain : r.drain (some (max size 1)) = (.ok given, r'))
    (hnil : ¬ (given.data ≠ [] ∨ given.last = true)) : pollChunks size r w =
      match w.read r'.room with
      | (.wait again, w') => (.wait again, r', w')
      | (.ready (.error e), w') => (.ready (.error (.io e)), r', w')
      | (.ready (.ok []), w') => (.ready r'.drainAtEnd.1, r'.drainAtEnd.2, w')
      | (.ready (.ok (x :: xs)), w') => pollChunks size (r'.receive (x :: xs)) w' := by
  conv => lhs; rw [pollChunks]
  rw [hdrain]
  dsimp only
  rw [if_neg hnil]
  split <;> rename_i h <;> rw [h]

theorem pollChunks_of_read {size : Nat} {given : Delivery} {xs : Bytes} {x : UInt8}
    (hdrain : r.drain (some (max size 1)) = (.ok given, r'))
    (hnil : ¬ (given.data ≠ [] ∨ given.last = true))
    (hread : w.read r'.room = (.ready (.ok (x :: xs)), w')) :
    pollChunks size r w = pollChunks size (r'.receive (x :: xs)) w' := by
  rw [pollChunks_of_nil hdrain hnil, hread]

theorem pollUntilClose_of_read {size : Nat} {xs : Bytes} {x : UInt8} (hnil : r.buffer = [])
    (hread : w.read (min r.room (max size 1)) = (.ready (.ok (x :: xs)), w')) :
    pollUntilClose size r w = pollUntilClose size (r.receive (x :: xs)) w' := by
  rw [pollUntilClose, pollUntilClose, if_pos hnil, hread, if_neg (by simp [receive])]

theorem chunked_of_chunking {s : Incoming} (h : s.chunking = some true) :
    ∃ c, s.body = some (.chunked c) := by
  obtain ⟨d, hd, hchunked⟩ := Option.map_eq_some_iff.mp h
  cases d with
  | chunked c => exact ⟨c, hd⟩
  | _ => cases hchunked

/-- A chunked body from which nothing was handed over is still open. -/
theorem open_of_drain_nil {n : Nat} {given : Delivery} (hc : r.incoming.chunking = some true)
    (h : r.drain (some n) = (.ok given, r')) (hnil : ¬ (given.data ≠ [] ∨ given.last = true)) :
    r'.incoming.chunking = some true ∧ r'.finished = r.finished := by
  rcases hdrain : r.incoming.drain (some n) 0 r.buffer with ⟨result, s, rest⟩
  rw [drain, hdrain] at h
  rcases result with e | ⟨data, _ | _⟩
  · cases h
  · cases h
    obtain rfl : data = [] := by simpa using hnil
    exact ⟨Incoming.chunking_of_drain_nil hc hdrain, rfl⟩
  · cases h
    exact absurd (.inr rfl) hnil

theorem pollBody_length {left size : Nat} (hf : r.finished = false)
    (hb : r.incoming.body = some (.length left)) :
    r.pollBody size w = pollLength left size r w := by
  rw [pollBody, if_neg (by simp [hf]), hb]

theorem pollBody_chunked {size : Nat} {c : ChunkedDecoder} (hf : r.finished = false)
    (hb : r.incoming.body = some (.chunked c)) : r.pollBody size w = pollChunks size r w := by
  rw [pollBody, if_neg (by simp [hf]), hb]

theorem pollBody_untilClose {size : Nat} {ended : Bool} (hf : r.finished = false)
    (hb : r.incoming.body = some (.untilClose ended)) :
    r.pollBody size w = pollUntilClose size r w := by
  rw [pollBody, if_neg (by simp [hf]), hb]

/-- To have read once more is to be asked the same anew. -/
theorem ask_of_reads (h : Reads q m m') : ask q m' = ask q m := by
  cases h with
  | head hn hread hx =>
    obtain ⟨y, ys, rfl⟩ := List.exists_cons_of_ne_nil hx
    rw [ask, ask, pollHead_of_read hn hread]
  | @length r w w' left size x hf hb hlt hread hx =>
    obtain ⟨y, ys, rfl⟩ := List.exists_cons_of_ne_nil hx
    have hlen := Nat.le_trans (Wire.length_read_le hread) (Nat.min_le_right ..)
    have hsame : pollLength left size (r.receive (y :: ys)) w' = pollLength left size r w := by
      rw [pollLength, fillTarget_receive hlt hlen, ← fill_of_read hlt hread]
      rfl
    rw [ask, ask, pollBody_length hf hb, pollBody_length (r := r.receive _) hf hb, hsame]
  | @chunks r r' w w' c size given x hf hb hdrain hnil hread hx =>
    obtain ⟨y, ys, rfl⟩ := List.exists_cons_of_ne_nil hx
    have hc : r.incoming.chunking = some true := by rw [Incoming.chunking, hb]; rfl
    obtain ⟨hc', hf'⟩ := open_of_drain_nil hc hdrain hnil
    obtain ⟨c', hb'⟩ := chunked_of_chunking hc'
    rw [ask, ask, pollBody_chunked hf hb, pollChunks_of_read hdrain hnil hread,
      pollBody_chunked (r := r'.receive _) (hf'.trans hf) hb']
  | @untilClose r w w' ended size x hf hb hnil hread hx =>
    obtain ⟨y, ys, rfl⟩ := List.exists_cons_of_ne_nil hx
    rw [ask, ask, pollBody_untilClose hf hb, pollBody_untilClose (r := r.receive _) hf hb,
      pollUntilClose_of_read hnil hread]

/-! ### What a reading adds -/

/-- Between two readings: no chunk above the limit is waited for, and a single
reading hands over at most `cap` bytes. -/
structure Tidy (limit cap : Nat) (m : Receiver × Wire) : Prop where
  fits : m.1.incoming.Fits limit
  wire : m.2.HandsAtMost m.1.room cap

/-- The receiver has taken bytes off the front of its buffer, if anything. -/
structure Sheds (limit : Nat) (r r' : Receiver) : Prop where
  room : r'.room = r.room
  fits : r.incoming.Fits limit → r'.incoming.Fits limit
  length : r'.buffer.length ≤ r.buffer.length

section Sheds

variable {limit : Nat} {s : Incoming} {rest : Bytes} {p : Progress Event}

theorem Sheds.refl : Sheds limit r r := ⟨rfl, id, Nat.le_refl _⟩

theorem sheds_of_next (h : r.incoming.next r.buffer = (p, s, rest)) :
    Sheds limit r { r with incoming := s, buffer := rest } :=
  ⟨rfl, fun hs => Incoming.fits_next hs h, Incoming.length_next_le h⟩

theorem sheds_of_nextEnd (h : r.incoming.nextEnd r.buffer = (p, s, rest)) :
    Sheds limit r { r with incoming := s, buffer := rest } :=
  ⟨rfl, fun hs => Incoming.fits_nextEnd hs h, Incoming.length_nextEnd_le h⟩

theorem Sheds.trans {r'' : Receiver} (h : Sheds limit r r') (h' : Sheds limit r' r'') :
    Sheds limit r r'' :=
  ⟨h'.room.trans h.room, fun hs => h'.fits (h.fits hs), Nat.le_trans h'.length h.length⟩

theorem Sheds.finish (h : Sheds limit r r') : Sheds limit r r'.finish :=
  ⟨h.room, h.fits, Nat.zero_le _⟩

theorem sheds_headAtEnd {result : Except DecodeError (Response × Framing)}
    (h : r.headAtEnd = (result, r')) : Sheds limit r r' := by
  unfold headAtEnd at h
  split at h <;> cases h <;> exact sheds_of_nextEnd ‹_›

theorem sheds_drainAtEnd {result : Except DecodeError Delivery}
    (h : r.drainAtEnd = (result, r')) : Sheds limit r r' := by
  unfold drainAtEnd at h
  split at h
  · cases h
    exact sheds_of_nextEnd ‹_›
  · cases h
    exact (sheds_of_nextEnd ‹_›).finish
  · cases h
    exact sheds_of_nextEnd ‹_›
  · cases h
    exact sheds_of_nextEnd ‹_›

theorem sheds_drain {size : Option Nat} {result : Except DecodeError Delivery}
    (h : r.drain size = (result, r')) : Sheds limit r r' := by
  rcases hdrain : r.incoming.drain size 0 r.buffer with ⟨given, s, rest⟩
  have hsheds : Sheds limit r { r with incoming := s, buffer := rest } :=
    ⟨rfl, fun hs => Incoming.fits_drain hs hdrain, Incoming.length_drain_le hdrain⟩
  rw [drain, hdrain] at h
  rcases given with e | ⟨data, _ | _⟩
  · cases h
    exact hsheds
  · cases h
    exact hsheds
  · cases h
    exact hsheds.finish

end Sheds

section Reads

variable {limit cap n : Nat} {x : Bytes}

theorem Tidy.shed (h : Tidy limit cap (r, w)) (hr : Sheds limit r r') : Tidy limit cap (r', w) :=
  ⟨hr.fits h.fits, hr.room ▸ h.wire⟩

theorem Tidy.read {p : Poll (Except IoError Bytes)} (h : Tidy limit cap (r, w)) (hn : n ≤ r.room)
    (hread : w.read n = (p, w')) : Tidy limit cap (r, w') := by
  have hafter := h.wire.after hn
  rw [hread] at hafter
  exact ⟨h.fits, hafter⟩

theorem Tidy.receive (h : Tidy limit cap (r, w)) (x : Bytes) : Tidy limit cap (r.receive x, w) :=
  ⟨h.fits, h.wire⟩

theorem tidy_of_reads (h : Reads q m m') (hm : Tidy limit cap m) : Tidy limit cap m' := by
  cases h with
  | @head r w w' s rest x hn hread hx =>
    exact ((hm.shed (sheds_of_next hn)).read (Nat.le_refl r.room) hread).receive x
  | length hf hb hlt hread hx => exact (hm.read (Nat.min_le_left ..) hread).receive _
  | chunks hf hb hdrain hnil hread hx =>
    exact ((hm.shed (sheds_drain hdrain)).read (Nat.le_refl _) hread).receive _
  | untilClose hf hb hnil hread hx => exact (hm.read (Nat.min_le_left ..) hread).receive _

/-- Behind a reading the buffer is small, whatever was in it before. -/
theorem buffer_of_reads (h : Reads q m m') (hm : Tidy limit cap m) :
    m'.1.buffer.length ≤ max Head.sizeLimit (max limit q.size) + cap := by
  cases h with
  | @head r w w' s rest x hn hread hx =>
    have hrest := Incoming.length_of_need hm.fits hn
    have hcap := hm.wire.length_le (Nat.le_refl _) hread
    rw [receive, List.length_append]
    show rest.length + x.length ≤ _
    omega
  | @length r w w' left size x hf hb hlt hread hx =>
    -- A target above what is there is at most the size that was asked for.
    have hx := Nat.le_trans (Wire.length_read_le hread) (Nat.min_le_right ..)
    rw [fillTarget_eq] at hlt hx
    rw [receive, List.length_append, Question.size]
    omega
  | @chunks r r' w w' c size given x hf hb hdrain hnil hread hx =>
    obtain ⟨data, last⟩ := given
    obtain ⟨rfl, rfl⟩ : data = [] ∧ last = false := by simpa using hnil
    have hneed := next_of_drain (Nat.lt_of_lt_of_le Nat.one_pos (Nat.le_max_right ..)) hdrain
    have hr := hm.shed (sheds_drain hdrain)
    have hrest := Incoming.length_of_need hr.fits hneed
    have hcap := hr.wire.length_le (Nat.le_refl _) hread
    rw [receive, List.length_append]
    show r'.buffer.length + x.length ≤ _
    omega
  | @untilClose r w w' ended size x hf hb hnil hread hx =>
    have hcap := hm.wire.length_le (Nat.min_le_left ..) hread
    rw [receive, hnil, List.nil_append]
    show x.length ≤ _
    omega

end Reads

/-! ### The end of a question -/

/-- A question ends with no more in the buffer than it began with or than there
was behind one of its readings. -/
def Settles (limit cap : Nat) (q : Question) (m m' : Receiver × Wire) : Prop :=
  ∃ m₁, ReflTransGen (Reads q) m m₁ ∧ Tidy limit cap m' ∧
    m'.1.buffer.length ≤ m₁.1.buffer.length

section Settles

variable {limit cap n : Nat} {x : Bytes}

theorem settles_of_sheds (hm : Tidy limit cap (r, w)) (h : Sheds limit r r') :
    Settles limit cap q (r, w) (r', w) := ⟨_, .refl, hm.shed h, h.length⟩

theorem settles_of_read {p : Poll (Except IoError Bytes)} (hm : Tidy limit cap (r, w))
    (h : Sheds limit r r') (hn : n ≤ r.room) (hread : w.read n = (p, w')) :
    Settles limit cap q (r, w) (r', w') := ⟨_, .refl, (hm.read hn hread).shed h, h.length⟩

theorem Settles.behind {m'' : Receiver × Wire} (h : Reads q m m')
    (h' : Settles limit cap q m' m'') : Settles limit cap q m m'' := by
  obtain ⟨m₁, hreads, htidy, hlength⟩ := h'
  exact ⟨m₁, .head h hreads, htidy, hlength⟩

theorem settles_pollHead {p : Poll (Except DecodeError (Response × Framing))}
    (hm : Tidy limit cap (r, w)) (h : r.pollHead w = (p, r', w')) :
    Settles limit cap .head (r, w) (r', w') := by
  fun_induction pollHead r w with
  | case1 | case2 | case3 =>
    cases h
    exact settles_of_sheds hm (sheds_of_next ‹_›)
  | case4 r w s rest hn again w₁ hread =>
    cases h
    exact settles_of_read hm (sheds_of_next hn) (Nat.le_refl _) hread
  | case5 r w s rest hn e w₁ hread =>
    cases h
    exact settles_of_read hm (sheds_of_next hn) (Nat.le_refl _) hread
  | case6 r w s rest hn w₁ hread result r₁ hend =>
    cases h
    exact settles_of_read hm ((sheds_of_next hn).trans (sheds_headAtEnd hend)) (Nat.le_refl _)
      hread
  | case7 r w s rest hn x xs w₁ hread ih =>
    have hreads := Reads.head hn hread (List.cons_ne_nil x xs)
    exact (ih (tidy_of_reads hreads hm) h).behind hreads

theorem settles_fill {target left size : Nat} {p : Poll (Except DecodeError Unit)}
    (hm : Tidy limit cap (r, w)) (hf : r.finished = false)
    (hb : r.incoming.body = some (.length left)) (ht : target = r.fillTarget left size)
    (h : fill target r w = (p, r', w')) : Settles limit cap (.body size) (r, w) (r', w') := by
  fun_induction fill target r w with
  | case1 r w hlt again w₁ hread =>
    cases h
    exact settles_of_read hm .refl (Nat.min_le_left ..) hread
  | case2 r w hlt e w₁ hread =>
    cases h
    exact settles_of_read hm .refl (Nat.min_le_left ..) hread
  | case3 r w hlt w₁ hread =>
    cases h
    exact settles_of_read hm .refl (Nat.min_le_left ..) hread
  | case4 r w hlt x xs w₁ hread ih =>
    -- The target does not move, so to go on filling is what the question would do anew.
    subst ht
    have hreads := Reads.length hf hb hlt hread (List.cons_ne_nil x xs)
    have hlen := Nat.le_trans (Wire.length_read_le hread) (Nat.min_le_right ..)
    have htarget := (fillTarget_receive hlt hlen).symm
    exact (ih (tidy_of_reads hreads hm) hf hb htarget h).behind hreads
  | case5 r w hge =>
    cases h
    exact settles_of_sheds hm .refl

theorem Settles.shed {r'' : Receiver} {m : Receiver × Wire} (h : Settles limit cap q m (r', w'))
    (hr : Sheds limit r' r'') : Settles limit cap q m (r'', w') := by
  obtain ⟨m₁, hreads, htidy, hlength⟩ := h
  exact ⟨m₁, hreads, htidy.shed hr, Nat.le_trans hr.length hlength⟩

theorem settles_pollLength {left size : Nat} {p : Poll (Except DecodeError Delivery)}
    (hm : Tidy limit cap (r, w)) (hf : r.finished = false)
    (hb : r.incoming.body = some (.length left)) (h : pollLength left size r w = (p, r', w')) :
    Settles limit cap (.body size) (r, w) (r', w') := by
  rcases hfill : fill (r.fillTarget left size) r w with ⟨filled, r₁, w₁⟩
  have hsettles := settles_fill hm hf hb rfl hfill
  rw [pollLength, hfill] at h
  rcases filled with (e | ⟨⟩) | again
  · cases h
    exact hsettles
  · cases h
    exact hsettles.shed (sheds_drain rfl)
  · cases h
    exact hsettles

theorem settles_pollChunks {size : Nat} {p : Poll (Except DecodeError Delivery)}
    (hm : Tidy limit cap (r, w)) (hf : r.finished = false)
    (hc : r.incoming.chunking = some true) (h : pollChunks size r w = (p, r', w')) :
    Settles limit cap (.body size) (r, w) (r', w') := by
  fun_induction pollChunks size r w with
  | case1 | case2 =>
    cases h
    exact settles_of_sheds hm (sheds_drain ‹_›)
  | case3 r w given r₁ hdrain hnil again w₁ hread =>
    have hsheds : Sheds limit r r₁ := sheds_drain hdrain
    cases h
    exact settles_of_read hm hsheds (Nat.le_of_eq hsheds.room) hread
  | case4 r w given r₁ hdrain hnil e w₁ hread =>
    have hsheds : Sheds limit r r₁ := sheds_drain hdrain
    cases h
    exact settles_of_read hm hsheds (Nat.le_of_eq hsheds.room) hread
  | case5 r w given r₁ hdrain hnil w₁ hread result r₂ hend =>
    have hsheds : Sheds limit r r₁ := sheds_drain hdrain
    cases h
    exact settles_of_read hm (hsheds.trans (sheds_drainAtEnd hend)) (Nat.le_of_eq hsheds.room)
      hread
  | case6 r w given r₁ hdrain hnil x xs w₁ hread ih =>
    obtain ⟨c, hb⟩ := chunked_of_chunking hc
    have hreads := Reads.chunks hf hb hdrain hnil hread (List.cons_ne_nil x xs)
    obtain ⟨hc', hf'⟩ := open_of_drain_nil hc hdrain hnil
    exact (ih (tidy_of_reads hreads hm) (hf'.trans hf) hc' h).behind hreads

theorem settles_pollUntilClose {size : Nat} {ended : Bool}
    {p : Poll (Except DecodeError Delivery)} (hm : Tidy limit cap (r, w))
    (hf : r.finished = false) (hb : r.incoming.body = some (.untilClose ended))
    (h : pollUntilClose size r w = (p, r', w')) :
    Settles limit cap (.body size) (r, w) (r', w') := by
  have hroom : min r.room (max size 1) ≤ r.room := Nat.min_le_left ..
  unfold pollUntilClose at h
  split at h
  · next hnil =>
    split at h
    · cases h
      exact settles_of_read hm .refl hroom ‹_›
    · cases h
      exact settles_of_read hm .refl hroom ‹_›
    · cases h
      exact settles_of_read hm (sheds_drainAtEnd rfl) hroom ‹_›
    · next b w₁ hne hread =>
      cases h
      have hreads := Reads.untilClose hf hb hnil hread hne
      have hsettles : Settles limit cap (.body size) (r, w) (r.receive b, w') :=
        (settles_of_sheds (tidy_of_reads hreads hm) .refl).behind hreads
      exact hsettles.shed (sheds_drain rfl)
  · cases h
    exact settles_of_sheds hm (sheds_drain rfl)

/-- A question takes what it reads off the buffer again, or leaves the rest
of its last reading there. -/
theorem settles_ask (q : Question) (hm : Tidy limit cap m) :
    Settles limit cap q m (ask q m).2 := by
  obtain ⟨r, w⟩ := m
  cases q with
  | head => exact settles_pollHead hm rfl
  | body size =>
    show Settles limit cap _ _ (r.pollBody size w).2
    by_cases hf : r.finished = true
    · rw [pollBody, if_pos hf]
      exact settles_of_sheds hm .refl
    rw [Bool.not_eq_true] at hf
    rcases hb : r.incoming.body with _ | left | c | ended | _
    · rw [pollBody, if_neg (by simp [hf]), hb]
      exact settles_of_sheds hm .refl
    · rw [pollBody_length hf hb]
      exact settles_pollLength hm hf hb rfl
    · rw [pollBody_chunked hf hb]
      exact settles_pollChunks hm hf (by rw [Incoming.chunking, hb]; rfl) rfl
    · rw [pollBody_untilClose hf hb]
      exact settles_pollUntilClose hm hf hb rfl
    · rw [pollBody, if_neg (by simp [hf]), hb]
      exact settles_of_sheds hm (sheds_drain rfl)

end Settles

/-! ### Data of a chunked body -/

section Data

variable {limit size : Nat} {d : Delivery}

theorem length_drain_lt {n : Nat} (hs : r.incoming.Fits limit)
    (hc : r.incoming.chunking = some true) (hn : 0 < n) (h : r.drain (some n) = (.ok d, r')) :
    d.data.length < n + limit := by
  rcases hdrain : r.incoming.drain (some n) 0 r.buffer with ⟨given, s, rest⟩
  rw [drain, hdrain] at h
  rcases given with e | ⟨data, _ | _⟩
  · cases h
  · cases h
    simpa using Incoming.length_drain_lt hs hc (by omega) hdrain
  · cases h
    simpa using Incoming.length_drain_lt hs hc (by omega) hdrain

theorem length_drainAtEnd_le (hs : r.incoming.Fits limit)
    (hc : r.incoming.chunking = some true) (h : r.drainAtEnd = (.ok d, r')) :
    d.data.length ≤ limit := by
  unfold drainAtEnd at h
  split at h
  · next hn =>
    cases h
    exact Incoming.length_data_nextEnd_le hs hc hn
  · cases h
    exact Nat.zero_le _
  · cases h
  · cases h

theorem length_pollChunks_lt (hs : r.incoming.Fits limit) (hc : r.incoming.chunking = some true)
    (h : pollChunks size r w = (.ready (.ok d), r', w')) :
    d.data.length < max size 1 + limit := by
  fun_induction pollChunks size r w with
  | case2 r w given r₁ hdrain hgiven =>
    cases h
    exact length_drain_lt hs hc (by omega) hdrain
  | case5 r w given r₁ hdrain hnil w₁ hread result r₂ hend =>
    cases h
    have hc' := (open_of_drain_nil hc hdrain hnil).1
    have hle := length_drainAtEnd_le ((sheds_drain hdrain).fits hs) hc' hend
    omega
  | case6 r w given r₁ hdrain hnil x xs w₁ hread ih =>
    exact ih ((sheds_drain hdrain).fits hs) (open_of_drain_nil hc hdrain hnil).1 h
  | _ => cases h

/-- A question for data is answered with fewer bytes than were asked for and a
chunk more, unless a body without chunks is open. -/
theorem length_pollBody_lt (hs : r.incoming.Fits limit) (hc : r.incoming.chunking ≠ some false)
    (h : r.pollBody size w = (.ready (.ok d), r', w')) : d.data.length < max size 1 + limit := by
  by_cases hf : r.finished = true
  · rw [pollBody, if_pos hf] at h
    cases h
    show 0 < _
    omega
  rw [Bool.not_eq_true] at hf
  rcases hb : r.incoming.body with _ | left | c | ended | _
  · rw [pollBody, if_neg (by simp [hf]), hb] at h
    cases h
  · exact absurd (by rw [Incoming.chunking, hb]; rfl) hc
  · rw [pollBody_chunked hf hb] at h
    exact length_pollChunks_lt hs (by rw [Incoming.chunking, hb]; rfl) h
  · exact absurd (by rw [Incoming.chunking, hb]; rfl) hc
  · exact absurd (by rw [Incoming.chunking, hb]; rfl) hc

end Data

/-! ### Any run -/

section Run

variable {limit cap size : Nat} {qs : List Question}

/-- A tidy receiver whose buffer is as small as sizes of at most `size` make it. -/
structure Bounded (limit size cap : Nat) (m : Receiver × Wire) : Prop where
  tidy : Tidy limit cap m
  buffer : m.1.buffer.length ≤ max Head.sizeLimit (max limit size) + cap

theorem Bounded.reads (hm : Bounded limit size cap m) (hq : q.size ≤ size)
    (h : ReflTransGen (Reads q) m m') : Bounded limit size cap m' := by
  induction h with
  | refl => exact hm
  | @tail m₁ m₂ _ hread ih =>
    have hbuffer := buffer_of_reads hread ih.tidy
    exact ⟨tidy_of_reads hread ih.tidy, by omega⟩

theorem Bounded.ask (hm : Bounded limit size cap m) (hq : q.size ≤ size) :
    Bounded limit size cap (ask q m).2 := by
  obtain ⟨m₁, hreads, htidy, hlength⟩ := settles_ask q hm.tidy
  exact ⟨htidy, Nat.le_trans hlength (hm.reads hq hreads).buffer⟩

theorem bounded_run (hm : Bounded limit size cap m) (hqs : largest qs ≤ size) :
    Bounded limit size cap (run qs m) := by
  induction qs generalizing m with
  | nil => exact hm
  | cons q qs ih =>
    obtain ⟨hq, hqs⟩ := Nat.max_le.mp hqs
    exact ih (hm.ask hq) hqs

theorem bounded_ofRequest (toHead : Bool) {room : Nat} (size : Nat)
    (hw : w.HandsAtMost (max room 1) cap) :
    Bounded limit size cap (ofRequest toHead room limit, w) where
  tidy := ⟨⟨rfl, fun _ hd => by cases hd⟩, hw⟩
  buffer := Nat.zero_le _

/-- **What a receiver buffers is bounded, whatever the peer sends.** If a single
reading hands over at most `cap` bytes, then at every moment of every run of
questions, behind each reading inside a question and when it is answered, the
buffer holds at most `cap` bytes more than the largest of the limit for a head,
the limit for a chunk and the sizes that were asked for so far. And unless a
body without chunks is open, the data that is given out is less than what was
asked for and a chunk of the largest size together. -/
theorem buffer_run_le (toHead : Bool) (room limit : Nat) (hw : w.HandsAtMost (max room 1) cap)
    (qs : List Question) (q : Question) :
    (∀ m, ReflTransGen (Reads q) (run qs (ofRequest toHead room limit, w)) m →
      m.1.buffer.length ≤ max 8192 (max limit (largest (q :: qs))) + cap) ∧
    (ask q (run qs (ofRequest toHead room limit, w))).2.1.buffer.length ≤
      max 8192 (max limit (largest (q :: qs))) + cap ∧
    ∀ size d, q = .body size →
      (run qs (ofRequest toHead room limit, w)).1.incoming.chunking ≠ some false →
      (ask q (run qs (ofRequest toHead room limit, w))).1 = .body (.ready (.ok d)) →
      d.data.length < max size 1 + limit := by
  have hq : q.size ≤ largest (q :: qs) := Nat.le_max_left ..
  have hrun : Bounded limit (largest (q :: qs)) cap (run qs (ofRequest toHead room limit, w)) :=
    bounded_run (bounded_ofRequest toHead _ hw) (Nat.le_max_right ..)
  refine ⟨fun m hm => (hrun.reads hq hm).buffer, (hrun.ask hq).buffer, ?_⟩
  rintro size d rfl hc hanswer
  exact length_pollBody_lt hrun.tidy.fits hc (Prod.ext (Reply.body.inj hanswer) rfl)

/-- Two chunks and the end of a body. -/
def bothChunks : Bytes := Bytes.ofText "3\r\nabc\r\n4\r\nwxyz\r\n0\r\n\r\n"

/-- A head, and two chunks behind it that come at once. -/
def chunkPair : Wire :=
  { arriving := [
      .bytes (Bytes.ofText "HTTP/1.1 200 OK\r\nTransfer-Encoding: chunked\r\n\r\n"),
      .bytes bothChunks] }

/-- The receiver of `chunkPair` behind the head. -/
def behindHead : Receiver × Wire := run [.head] (ofRequest false 64 4, chunkPair)

theorem buffer_run_le_chunkPair : chunkPair.HandsAtMost (max 64 1) 50 ∧
    (∃ m, ReflTransGen (Reads (.body 4)) behindHead m ∧ m.1.buffer.length = 22 ∧
      m.1.buffer.length ≤ max 8192 (max 4 (largest [.body 4, .head])) + 50) ∧
    ∃ d, (ask (.body 4) behindHead).1 = .body (.ready (.ok d)) ∧ d.data.length = 7 ∧
      d.data.length < max 4 1 + 4 := by
  have hw : chunkPair.HandsAtMost (max 64 1) 50 :=
    Wire.handsAtMost_of_segments (by decide +kernel) _
  obtain ⟨hmoments, -, hdata⟩ := buffer_run_le false 64 4 hw [.head] (.body 4)
  have hbody : behindHead.1.incoming.body = some (.chunked { limit := 4 }) := by decide +kernel
  have hdrain : behindHead.1.drain (some (max 4 1)) = (.ok {}, behindHead.1) := by decide +kernel
  have hread : behindHead.2.read behindHead.1.room = (.ready (.ok bothChunks), {}) := by
    decide +kernel
  have hreads : Reads (.body 4) behindHead (behindHead.1.receive bothChunks, {}) :=
    .chunks (by decide +kernel) hbody hdrain (by decide) hread (by decide)
  have hlength : (behindHead.1.receive bothChunks).buffer.length = 22 := by decide +kernel
  have hanswer : (ask (.body 4) behindHead).1 =
      .body (.ready (.ok ⟨Bytes.ofText "abcwxyz", false⟩)) := by
    decide +kernel
  refine ⟨hw, ⟨_, .single hreads, hlength, hmoments _ (.single hreads)⟩, _, hanswer, rfl, ?_⟩
  exact hdata 4 _ rfl (by decide +kernel) hanswer

end Run

end Receiver
end Http1Client
