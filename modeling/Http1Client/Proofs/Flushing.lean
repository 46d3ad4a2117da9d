/-
# Flushing again

A flush that fails, or that is let go of while it is not ready, may be followed
by another one. The sender lets go of its buffer only when the wire has taken
all of it, so a flush that is broken off before begins anew with the first byte,
and one that is broken off behind, while the wire itself was flushed, leaves
nothing to do.

An `Outflow` is a sender over a wire, and whatever is done with it: heads and
bodies are encoded, a flush is asked for progress, a flush is let go of. `Sent`
says what the wire has taken against what was encoded: all of it in order, and
what a flush that was broken off had handed over once more.

Key definitions: `Sender.Stride`, `Outflow`, `Outflow.poll`, `Sent`,
`Outflow.Keeps`.
Key theorems: `Sender.pollFlush_stride`, `Sent.exact_iff`, `Outflow.Keeps.step`,
`Outflow.sent_run`.
-/
import Http1Client.Proofs.Output
import Http1Client.Proofs.Course

namespace Http1Client

/-! ### What a question to a flush does -/

/-- How far a flush has come, with the sender and the wire as they are. While
the wire is taking bytes, what it took last is the front of the buffer. -/
def Flush.Stands (s : Sender) (w : Wire) : Flush → Prop
  | start => True
  | writing left => s.buffer ≠ [] ∧ ∃ t x, w.taken = t ++ x ∧ s.buffer = x ++ left
  | syncing => s.buffer = []

namespace Sender

/-- All that a question to a flush can do. -/
inductive Stride (s : Sender) (f : Flush) (w : Wire) : Flushed → Prop where
  /-- There was nothing to do. -/
  | idle : f = .start → s.buffer = [] → Stride s f w ⟨.ready (.ok ()), .start, s, w⟩
  /-- Some bytes are taken, and the wire does not go on. -/
  | writes {answer : Poll (Except EncodeError Unit)} {more left : Bytes} {w' : Wire} :
      answer ≠ .ready (.ok ()) → s.buffer ≠ [] → w'.taken = w.taken ++ more →
      more ++ left = f.left s → Stride s f w ⟨answer, .writing left, s, w'⟩
  /-- All bytes are taken, and the wire itself is flushed. -/
  | syncs {answer : Poll (Except EncodeError Unit)} {w₁ w' : Wire} :
      w₁.taken = w.taken ++ f.left s → w'.taken = w₁.taken →
      (answer = .ready (.ok ()) → w₁.flush = (.ready (.ok ()), w')) →
      Stride s f w ⟨answer, .syncing, s.clear, w'⟩

variable {s : Sender} {f : Flush} {w w₁ : Wire}

theorem pollSync_stride (hw : w₁.taken = w.taken ++ f.left s) :
    Stride s f w (s.clear.pollSync w₁) := by
  unfold pollSync
  split
  · next h => exact .syncs hw (Wire.taken_flush h) fun _ => h
  · next h => exact .syncs hw (Wire.taken_flush h) (by simp)
  · next h => exact .syncs hw (Wire.taken_flush h) (by simp)

theorem pollWrite_stride {left : Bytes} (hs : s.buffer ≠ []) (hleft : f.left s = left) :
    Stride s f w (s.pollWrite left w) := by
  obtain ⟨more, htaken, hmore, hnone⟩ := writeAll_taken left w
  have hall : more ++ (writeAll left w).2.1 = f.left s := hmore.trans hleft.symm
  unfold pollWrite
  split
  · next left' w' h =>
    rw [h] at htaken hall hnone
    rw [hnone rfl, List.append_nil] at hall
    rw [hall] at htaken
    exact pollSync_stride htaken
  · next e left' w' h =>
    rw [h] at htaken hall
    exact .writes (by simp) hs htaken hall
  · next again left' w' h =>
    rw [h] at htaken hall
    exact .writes (by simp) hs htaken hall

/-- What a question to a flush does. -/
theorem pollFlush_stride (h : f.Stands s w) : Stride s f w (s.pollFlush f w) := by
  cases f with
  | start =>
    rw [pollFlush]
    split
    · next hs => exact .idle rfl hs
    · next hs => exact pollWrite_stride hs rfl
  | writing left => exact pollWrite_stride h.1 rfl
  | syncing =>
    have hs : s.clear = s := by
      obtain ⟨segment, buffer, outgoing⟩ := s
      obtain rfl : buffer = [] := h
      rfl
    have hstride : Stride s .syncing w (s.clear.pollSync w) :=
      pollSync_stride (List.append_nil _).symm
    rwa [hs] at hstride

/-- To encode puts bytes behind what is in the buffer. -/
theorem buffer_putHead (s : Sender) (h : RequestHead) (framing : Framing) :
    s.buffer <+: (s.putHead h framing).2.buffer := by
  unfold putHead
  split
  · exact List.prefix_rfl
  · exact List.prefix_append ..

theorem buffer_putBody (s : Sender) (body : Bytes) : s.buffer <+: (s.putBody body).2.buffer := by
  unfold putBody
  split <;> exact List.prefix_append ..

end Sender

/-! ### What was sent -/

/-- What the wire has taken, against what was encoded and what is left to be
written: `again` counts the bytes that stand in what is taken once more than
they were encoded. -/
inductive Sent : Nat → Bytes → Bytes → Bytes → Prop where
  | start {b : Bytes} : Sent 0 b b []
  | encode {again : Nat} {encoded left taken b : Bytes} : Sent again encoded left taken →
      Sent again (encoded ++ b) (left ++ b) taken
  /-- The wire takes the front of what is left. -/
  | take {again : Nat} {encoded left taken b : Bytes} : Sent again encoded (b ++ left) taken →
      Sent again encoded left (taken ++ b)
  /-- What the wire took last is to be written once more. -/
  | anew {again : Nat} {encoded left taken b : Bytes} : Sent again encoded left (taken ++ b) →
      Sent (again + b.length) encoded (b ++ left) (taken ++ b)

namespace Sent

variable {again : Nat} {encoded left taken : Bytes}

theorem length (h : Sent again encoded left taken) :
    taken.length + left.length = encoded.length + again := by
  induction h with
  | start => simp
  | encode _ ih =>
    simp only [List.length_append]
    omega
  | take _ ih =>
    simp only [List.length_append] at ih ⊢
    omega
  | anew _ ih =>
    simp only [List.length_append] at ih ⊢
    omega

/-- Everything that was encoded is taken or left, in order. -/
theorem sublist (h : Sent again encoded left taken) : encoded.Sublist (taken ++ left) := by
  induction h with
  | start => exact List.Sublist.refl _
  | encode _ ih =>
    rw [← List.append_assoc]
    exact ih.append_right _
  | take _ ih => rwa [List.append_assoc]
  | anew _ ih =>
    refine ih.trans ?_
    rw [← List.append_assoc]
    exact ((List.sublist_append_left _ _).append_right _)

/-- Nothing is repeated just if no byte is counted. -/
theorem exact_iff (h : Sent again encoded left taken) : taken ++ left = encoded ↔ again = 0 := by
  constructor
  · intro heq
    have hlen := h.length
    rw [← heq, List.length_append] at hlen
    omega
  · intro h0
    induction h with
    | start => rfl
    | encode _ ih => rw [← List.append_assoc, ih h0]
    | take _ ih => rw [List.append_assoc, ih h0]
    | @anew again encoded left taken b _ ih =>
      obtain rfl : b = [] := List.length_eq_zero_iff.mp (by omega)
      exact ih (by omega)

end Sent

/-! ### Flushes one after the other -/

/-- A sender over a wire, and a flush that may be under way. -/
structure Outflow where
  sender : Sender
  wire : Wire
  flush : Flush := .start
  /-- Everything that was encoded, in order. -/
  encoded : Bytes := []
  /-- How many bytes were handed over by flushes that were broken off before
  the wire had taken the whole buffer. -/
  again : Nat := 0
  /-- How many flushes were broken off while the wire itself was flushed. -/
  lapses : Nat := 0
  /-- Was the wire flushed since it took a byte? -/
  synced : Bool := true

/-- What is done with a sender. -/
inductive Handling where
  | head (h : RequestHead) (framing : Framing)
  | body (b : Bytes)
  /-- A flush is asked for progress; it begins if none is under way. -/
  | poll
  /-- The flush that is under way is let go of. -/
  | giveUp

namespace Outflow

/-- A wire that has taken nothing yet. -/
def start (s : Sender) (w : Wire) : Outflow :=
  { sender := s, wire := { w with taken := [] }, encoded := s.buffer }

/-- The flush that is under way is broken off. -/
def breakOff (o : Outflow) : Outflow :=
  match o.flush with
  | .start => o
  | .writing left =>
    { o with flush := .start, again := o.again + (o.sender.buffer.length - left.length) }
  | .syncing => { o with flush := .start, lapses := o.lapses + 1 }

/-- Bytes may have come into the buffer. A flush that was under way is over. -/
def encode (o : Outflow) (s : Sender) : Outflow :=
  { o.breakOff with sender := s, encoded := o.encoded ++ s.buffer.drop o.sender.buffer.length }

/-- What a flush answers when it is asked for progress. -/
def answer (o : Outflow) : Poll (Except EncodeError Unit) :=
  (o.sender.pollFlush o.flush o.wire).answer

/-- Does the flush answer that it is done? -/
def isDone (o : Outflow) : Bool :=
  match o.answer with
  | .ready (.ok ()) => true
  | _ => false

/-- A flush that was asked for progress, whatever it answers. -/
def advance (o : Outflow) : Outflow :=
  let r := o.sender.pollFlush o.flush o.wire
  { o with
    sender := r.sender
    wire := r.wire
    flush := r.flush
    synced := match r.flush, r.answer with
      | .syncing, .ready (.ok ()) => true
      | _, _ => o.synced && r.wire.taken == o.wire.taken }

/-- Asks a flush for progress. One that fails is broken off. -/
def poll (o : Outflow) : Outflow :=
  match o.answer with
  | .ready (.ok ()) => { o.advance with flush := .start }
  | .ready (.error _) => o.advance.breakOff
  | .wait _ => o.advance

def step (o : Outflow) : Handling → Outflow
  | .head h framing => o.encode (o.sender.putHead h framing).2
  | .body b => o.encode (o.sender.putBody b).2
  | .poll => o.poll
  | .giveUp => o.breakOff

def run (o : Outflow) (hs : List Handling) : Outflow := hs.foldl step o

/-- What is true of an outflow, whatever was done. -/
structure Keeps (o : Outflow) : Prop where
  sent : Sent o.again o.encoded (o.flush.left o.sender) o.wire.taken
  stands : o.flush.Stands o.sender o.wire
  synced : o.flush = .start → o.sender.buffer = [] → o.lapses = 0 → o.synced = true

variable {o : Outflow}

theorem keeps_start (s : Sender) (w : Wire) : (start s w).Keeps where
  sent := .start
  stands := trivial
  synced _ _ _ := rfl

theorem flush_breakOff (o : Outflow) : o.breakOff.flush = .start := by
  unfold breakOff
  split
  · next h => exact h
  · rfl
  · rfl

theorem sender_breakOff (o : Outflow) : o.breakOff.sender = o.sender := by
  unfold breakOff
  split <;> rfl

theorem encoded_breakOff (o : Outflow) : o.breakOff.encoded = o.encoded := by
  unfold breakOff
  split <;> rfl

/-- A flush that is broken off while it writes leaves the buffer as it was. -/
theorem Keeps.breakOff (h : o.Keeps) : o.breakOff.Keeps := by
  obtain ⟨hsent, hstands, hsynced⟩ := h
  unfold Outflow.breakOff
  split
  · exact ⟨hsent, hstands, hsynced⟩
  · next left hflush =>
    rw [hflush] at hsent hstands
    obtain ⟨hne, t, x, htaken, hbuffer⟩ := hstands
    have hlen : o.sender.buffer.length - left.length = x.length := by
      rw [hbuffer, List.length_append]
      omega
    refine ⟨?_, trivial, fun _ hnil => absurd hnil hne⟩
    show Sent _ o.encoded o.sender.buffer o.wire.taken
    rw [htaken] at hsent ⊢
    rw [hlen, hbuffer]
    exact .anew hsent
  · next hflush =>
    rw [hflush] at hsent hstands
    refine ⟨?_, trivial, fun _ _ h0 => absurd h0 (Nat.succ_ne_zero _)⟩
    show Sent _ o.encoded o.sender.buffer o.wire.taken
    rwa [show o.sender.buffer = [] from hstands]

theorem Keeps.encode {s : Sender} (h : o.Keeps) (hs : o.sender.buffer <+: s.buffer) :
    (o.encode s).Keeps := by
  obtain ⟨hsent, -, hsynced⟩ := h.breakOff
  obtain ⟨b, hb⟩ := hs
  have hdrop : s.buffer.drop o.sender.buffer.length = b := by rw [← hb, List.drop_left]
  rw [flush_breakOff, encoded_breakOff, Flush.left, sender_breakOff] at hsent
  rw [flush_breakOff, sender_breakOff] at hsynced
  refine ⟨?_, ?_, fun _ hnil => hsynced rfl ?_⟩
  · show Sent _ (o.encoded ++ _) (o.breakOff.flush.left s) _
    rw [flush_breakOff, hdrop, Flush.left, ← hb]
    exact .encode hsent
  · show o.breakOff.flush.Stands _ _
    rw [flush_breakOff]
    trivial
  · have hempty : o.sender.buffer ++ b = [] := hb.trans hnil
    exact (List.append_eq_nil_iff.mp hempty).1

/-- What a question to a flush keeps. -/
theorem Keeps.advance (h : o.Keeps) : o.advance.Keeps := by
  obtain ⟨hsent, hstands, hsynced⟩ := h
  have hstride := Sender.pollFlush_stride hstands
  unfold Outflow.advance
  generalize o.sender.pollFlush o.flush o.wire = r at hstride ⊢
  cases hstride with
  | idle hflush hs =>
    rw [hflush] at hsent
    refine ⟨hsent, trivial, fun _ _ h0 => ?_⟩
    simpa using hsynced hflush hs h0
  | @writes answer more left w' _ hne htaken hmore =>
    refine ⟨?_, ⟨hne, ?_⟩, nofun⟩
    · show Sent _ _ left w'.taken
      rw [htaken]
      exact .take (hmore ▸ hsent)
    · rw [htaken]
      -- What was taken last is all that this flush has handed over, so it grows
      -- when the flush was writing before.
      cases hflush : o.flush with
      | start => exact ⟨_, more, rfl, (hflush ▸ hmore).symm⟩
      | writing left' =>
        rw [hflush] at hstands hmore
        obtain ⟨-, t, x, ht, hx⟩ := hstands
        refine ⟨t, x ++ more, by rw [ht, List.append_assoc], ?_⟩
        rw [hx, List.append_assoc]
        exact congrArg (x ++ ·) hmore.symm
      | syncing =>
        rw [hflush] at hstands
        exact absurd hstands hne
  | @syncs answer w₁ w' h₁ h₂ _ =>
    refine ⟨?_, rfl, nofun⟩
    show Sent _ _ [] w'.taken
    rw [h₂, h₁]
    exact .take (by rwa [List.append_nil])

/-- What it takes for a flush to answer that it is done. The buffer is
empty; and it was so before, or the wire itself has just been flushed. -/
theorem Keeps.of_done (h : o.Keeps) (hok : o.answer = .ready (.ok ())) :
    o.advance.sender.buffer = [] ∧
      (o.flush = .start ∧ o.sender.buffer = [] ∧ o.advance.flush = .start ∧
          o.advance.wire = o.wire ∧ o.advance.synced = o.synced ∨
        o.advance.synced = true ∧ ∃ w₁ : Wire, w₁.taken = o.advance.wire.taken ∧
          w₁.flush = (.ready (.ok ()), o.advance.wire)) := by
  have hstride := Sender.pollFlush_stride h.stands
  unfold Outflow.answer at hok
  unfold Outflow.advance
  generalize o.sender.pollFlush o.flush o.wire = r at hstride hok ⊢
  cases hstride with
  | idle hflush hs => exact ⟨hs, .inl ⟨hflush, hs, rfl, rfl, by simp⟩⟩
  | writes hne => exact absurd hok hne
  | @syncs answer w₁ w' h₁ h₂ hsync =>
    obtain rfl : answer = .ready (.ok ()) := hok
    exact ⟨rfl, .inr ⟨rfl, w₁, h₂.symm, hsync rfl⟩⟩

/-- A flush that is done is over. -/
theorem Keeps.over (h : o.Keeps) (hs : o.sender.buffer = [])
    (hsynced : o.lapses = 0 → o.synced = true) : Keeps { o with flush := .start } := by
  have hleft : o.flush.left o.sender = o.sender.buffer := by
    have hstands := h.stands
    cases hflush : o.flush with
    | start => rfl
    | writing left =>
      rw [hflush] at hstands
      exact absurd hs hstands.1
    | syncing => exact hs.symm
  have hsent := h.sent
  rw [hleft] at hsent
  exact ⟨hsent, trivial, fun _ _ => hsynced⟩

theorem Keeps.synced_of_done (h : o.Keeps) (hok : o.answer = .ready (.ok ())) :
    o.lapses = 0 → o.advance.synced = true := by
  intro h0
  rcases (h.of_done hok).2 with ⟨hflush, hs, -, -, hsame⟩ | ⟨hsynced, -⟩
  · rw [hsame]
    exact h.synced hflush hs h0
  · exact hsynced

theorem answer_of_isDone (h : o.isDone = true) : o.answer = .ready (.ok ()) := by
  unfold isDone at h
  split at h
  · next hok => exact hok
  · cases h

theorem poll_of_done (hok : o.answer = .ready (.ok ())) :
    o.poll = { o.advance with flush := .start } := by
  rw [poll, hok]

theorem Keeps.poll (h : o.Keeps) : o.poll.Keeps := by
  unfold Outflow.poll
  split
  · next hok => exact h.advance.over (h.of_done hok).1 (h.synced_of_done hok)
  · exact h.advance.breakOff
  · exact h.advance

theorem Keeps.step (h : o.Keeps) : ∀ deed : Handling, (o.step deed).Keeps
  | .head _ _ => h.encode (Sender.buffer_putHead ..)
  | .body _ => h.encode (Sender.buffer_putBody ..)
  | .poll => h.poll
  | .giveUp => h.breakOff

theorem Keeps.run : ∀ (deeds : List Handling) {o : Outflow}, o.Keeps → (o.run deeds).Keeps
  | [], _, h => h
  | deed :: deeds, _, h => Keeps.run deeds (h.step deed)

/-- **Flushing loses nothing, and repeats only what was broken off.** What the
wire has taken and what is left to be written are all that was encoded, in
order, and what flushes that were broken off had handed over once more; so they
are exactly what was encoded just if no such flush had handed anything over. When
a flush answers that it is done, all that was encoded is taken. The wire has
been flushed since, unless a flush was broken off while that was done; and it
has just been flushed, unless the flush that is done found an empty buffer and
asked nothing of the wire. -/
theorem sent_run (s : Sender) (w : Wire) (deeds : List Handling) :
    let o := (start s w).run deeds
    Sent o.again o.encoded (o.flush.left o.sender) o.wire.taken ∧
      o.encoded.Sublist (o.wire.taken ++ o.flush.left o.sender) ∧
      (o.wire.taken ++ o.flush.left o.sender = o.encoded ↔ o.again = 0) ∧
      (o.answer = .ready (.ok ()) →
        o.poll.sender.buffer = [] ∧ Sent o.again o.encoded [] o.poll.wire.taken ∧
          (o.poll.wire.taken = o.encoded ↔ o.again = 0) ∧
          (o.lapses = 0 → o.poll.synced = true) ∧
          (o.flush = .start ∧ o.sender.buffer = [] ∧ o.poll.wire = o.wire ∨
            ∃ w₁ : Wire, w₁.taken = o.poll.wire.taken ∧
              w₁.flush = (.ready (.ok ()), o.poll.wire))) := by
  intro o
  have h : o.Keeps := (keeps_start s w).run deeds
  refine ⟨h.sent, h.sent.sublist, h.sent.exact_iff, fun hok => ?_⟩
  obtain ⟨hbuffer, hwire⟩ := h.of_done hok
  have hsent : Sent o.again o.encoded [] o.poll.wire.taken := by
    have hafter := h.poll.sent
    rw [poll_of_done hok] at hafter ⊢
    exact hbuffer ▸ hafter
  refine ⟨?_, hsent, ?_, ?_, ?_⟩
  · rw [poll_of_done hok]
    exact hbuffer
  · rw [← hsent.exact_iff, List.append_nil]
  · rw [poll_of_done hok]
    exact h.synced_of_done hok
  · rw [poll_of_done hok]
    rcases hwire with ⟨hflush, hs, -, hsame, -⟩ | ⟨-, hflushed⟩
    · exact .inl ⟨hflush, hs, hsame⟩
    · exact .inr hflushed

/-- A wire that fails behind the first byte. -/
def stoppingWire : Wire := { stops := [(1, .fail ⟨.brokenPipe, none⟩)] }

/-- A wire that fails when it is flushed, once. -/
def unflushedWire : Wire := { flushing := [.fail ⟨.brokenPipe, none⟩] }

/-- Over the one wire, the second of two flushes writes a byte that the first had
handed over. Over the other one it is done, and the wire was never flushed. -/
theorem flushed_twice :
    let stopped := (start { segment := 1 } stoppingWire).run
      [.head plainRequest.head (.length 0), .poll, .poll]
    let unflushed := (start { segment := 1 } unflushedWire).run
      [.head plainRequest.head (.length 0), .poll]
    stopped.flush = .start ∧ stopped.sender.buffer = [] ∧
      stopped.wire.taken.length = stopped.encoded.length + 1 ∧
      stopped.wire.taken ++ stopped.sender.buffer ≠ stopped.encoded ∧
      unflushed.answer = .ready (.ok ()) ∧ unflushed.wire.taken = unflushed.encoded ∧
      unflushed.poll.synced = false := by
  intro stopped unflushed
  have hstopped : stopped.flush = .start ∧ stopped.sender.buffer = [] ∧
      stopped.wire.taken.length = stopped.encoded.length + 1 ∧
      stopped.wire.taken ++ stopped.sender.buffer ≠ stopped.encoded := by
    decide +kernel
  have hunflushed : unflushed.isDone = true ∧ unflushed.wire.taken = unflushed.encoded ∧
      unflushed.poll.synced = false := by
    decide +kernel
  obtain ⟨hflush, hbuffer, hlen, hne⟩ := hstopped
  exact ⟨hflush, hbuffer, hlen, hne, answer_of_isDone hunflushed.1, hunflushed.2⟩

end Outflow
end Http1Client
