/-
# What a wire has taken

A flush writes the bytes of its sender one behind the other, in as many pieces
as the wire likes. What the wire has taken and what the flush still has to
write make up the same bytes all along (`Sender.Owes`), and `Sender.FlushTurn`
lists what one question to a flush can come to (`Sender.pollFlush_turn`).

Nothing else hands bytes to a wire. To connect, to flush and to close take
none, and reading changes only what arrives (`Wire.outward`).

Key definitions: `Flush.left`, `Sender.Owes`, `Sender.FlushTurn`,
`Wire.outward`.
Key theorems: `writeAll_taken`, `Sender.pollFlush_turn`,
`Receiver.taken_pollHead`, `Receiver.taken_pollBody`.
-/
import Http1Client.Sender
import Http1Client.Receiver

namespace Http1Client

/-! ### Questions that hand nothing over -/

namespace Wire

variable {w w' : Wire}

theorem taken_connect {p : Poll (Except IoError Unit)} (h : w.connect = (p, w')) :
    w'.taken = w.taken := by
  dsimp only [connect] at h
  split at h <;> cases h <;> rfl

theorem taken_flush {p : Poll (Except IoError Unit)} (h : w.flush = (p, w')) :
    w'.taken = w.taken := by
  cases h
  rfl

theorem taken_close {p : Poll (Except IoError Unit)} (h : w.close = (p, w')) :
    w'.taken = w.taken := by
  cases h
  rfl

/-- The wire but for what is read off it. -/
def outward (w : Wire) : Wire := { w with arriving := [], cancelled := false }

theorem outward_read {room : Nat} {p : Poll (Except IoError Bytes)} (h : w.read room = (p, w')) :
    w'.outward = w.outward := by
  cases h
  rfl

theorem taken_of_outward (h : w'.outward = w.outward) : w'.taken = w.taken := by
  show w'.outward.taken = w.outward.taken
  rw [h]

end Wire

namespace Receiver

variable {r r' : Receiver} {w w' : Wire}

/-- To read the head only reads. -/
theorem outward_pollHead (r : Receiver) (w : Wire) : (r.pollHead w).2.2.outward = w.outward := by
  fun_induction pollHead r w with
  | case1 => rfl
  | case2 => rfl
  | case3 => rfl
  | case4 r w s rest hn again w' hread => exact Wire.outward_read hread
  | case5 r w s rest hn e w' hread => exact Wire.outward_read hread
  | case6 r w s rest hn w' hread => exact Wire.outward_read hread
  | case7 r w s rest hn x xs w' hread ih => rw [ih, Wire.outward_read hread]

theorem outward_fill (target : Nat) (r : Receiver) (w : Wire) :
    (fill target r w).2.2.outward = w.outward := by
  fun_induction fill target r w with
  | case1 r w hlt again w' hread => exact Wire.outward_read hread
  | case2 r w hlt e w' hread => exact Wire.outward_read hread
  | case3 r w hlt w' hread => exact Wire.outward_read hread
  | case4 r w hlt x xs w' hread ih => rw [ih, Wire.outward_read hread]
  | case5 => rfl

theorem outward_pollLength (left size : Nat) (r : Receiver) (w : Wire) :
    (pollLength left size r w).2.2.outward = w.outward := by
  have hfill := outward_fill (r.fillTarget left size) r w
  unfold pollLength
  split <;> next h => rwa [h] at hfill

theorem outward_pollChunks (size : Nat) (r : Receiver) (w : Wire) :
    (pollChunks size r w).2.2.outward = w.outward := by
  fun_induction pollChunks size r w with
  | case1 => rfl
  | case2 => rfl
  | case3 r w d r' hd hnil again w' hread => exact Wire.outward_read hread
  | case4 r w d r' hd hnil e w' hread => exact Wire.outward_read hread
  | case5 r w d r' hd hnil w' hread => exact Wire.outward_read hread
  | case6 r w d r' hd hnil x xs w' hread ih => rw [ih, Wire.outward_read hread]

theorem outward_pollUntilClose (size : Nat) (r : Receiver) (w : Wire) :
    (pollUntilClose size r w).2.2.outward = w.outward := by
  unfold pollUntilClose
  split
  · split <;> next h => exact Wire.outward_read h
  · rfl

/-- To read the body only reads. -/
theorem outward_pollBody (size : Nat) (r : Receiver) (w : Wire) :
    (r.pollBody size w).2.2.outward = w.outward := by
  unfold pollBody
  split
  · rfl
  · split
    · rfl
    · exact outward_pollLength ..
    · exact outward_pollChunks ..
    · exact outward_pollUntilClose ..
    · rfl

theorem taken_pollHead {p : Poll (Except DecodeError (Response × Framing))}
    (h : r.pollHead w = (p, r', w')) : w'.taken = w.taken := by
  have hout := Wire.taken_of_outward (r.outward_pollHead w)
  rwa [h] at hout

theorem taken_pollBody {size : Nat} {p : Poll (Except DecodeError Delivery)}
    (h : r.pollBody size w = (p, r', w')) : w'.taken = w.taken := by
  have hout := Wire.taken_of_outward (r.outward_pollBody size w)
  rwa [h] at hout

end Receiver

/-! ### Writing -/

namespace Wire

variable {w w' : Wire} {b : Bytes}

theorem taken_write {p : Poll (Except IoError Nat)} (h : w.write b = (p, w')) :
    w'.taken = w.taken ++ match p with
      | .ready (.ok n) => b.take n
      | _ => [] := by
  dsimp only [write] at h
  rcases hanswer : (Act.takeUpTo (w.perWrite.getD b.length) b.length w.stops).answer with
    (e | n) | again
  all_goals
    rw [hanswer] at h
    cases h
  · exact (List.append_nil _).symm
  · rfl
  · exact (List.append_nil _).symm

end Wire

/-- Bytes are taken in order: what was taken and what is left are the bytes
that were offered. -/
theorem writeAll_taken (b : Bytes) (w : Wire) : ∃ more,
    (writeAll b w).2.2.taken = w.taken ++ more ∧ more ++ (writeAll b w).2.1 = b ∧
      ((writeAll b w).1 = .ready (.ok ()) → (writeAll b w).2.1 = []) := by
  fun_induction writeAll b w with
  | case1 w => exact ⟨[], (List.append_nil _).symm, rfl, fun _ => rfl⟩
  | case2 b w hb w' hw => exact ⟨[], Wire.taken_write hw, rfl, by simp⟩
  | case3 b w hb n w' hw hn ih =>
    obtain ⟨more, htaken, hmore, hleft⟩ := ih
    refine ⟨b.take n ++ more, ?_, ?_, hleft⟩
    · rw [htaken, Wire.taken_write hw, List.append_assoc]
    · rw [List.append_assoc, hmore, List.take_append_drop]
  | case4 b w hb e w' hw => exact ⟨[], Wire.taken_write hw, rfl, by simp⟩
  | case5 b w hb again w' hw => exact ⟨[], Wire.taken_write hw, rfl, by simp⟩

/-! ### Flushing -/

/-- The bytes that a flush still has to write. -/
def Flush.left (s : Sender) : Flush → Bytes
  | start => s.buffer
  | writing left => left
  | syncing => []

namespace Sender

/-- The flush still has to hand over the rest of `all`, of which the wire has
taken the front behind `base`. -/
structure Owes (base all : Bytes) (s : Sender) (f : Flush) (w : Wire) : Prop where
  taken : ∃ sent, w.taken = base ++ sent ∧ sent ++ f.left s = all
  cleared : f = .syncing → s.buffer = []

/-- What one question to a flush can come to. Only the buffer of the sender
changes. -/
inductive FlushTurn (base all : Bytes) (segment : Nat) (outgoing : Outgoing) :
    Flushed → Prop where
  | done {f : Flush} {w : Wire} : w.taken = base ++ all →
      FlushTurn base all segment outgoing ⟨.ready (.ok ()), f, ⟨segment, [], outgoing⟩, w⟩
  | failed {f : Flush} {s : Sender} {w : Wire} {e : IoError} :
      (∃ sent, w.taken = base ++ sent ∧ sent <+: all) →
      FlushTurn base all segment outgoing ⟨.ready (.error (.io e)), f, s, w⟩
  | waits {f : Flush} {b : Bytes} {w : Wire} {again : Bool} :
      Owes base all ⟨segment, b, outgoing⟩ f w →
      FlushTurn base all segment outgoing ⟨.wait again, f, ⟨segment, b, outgoing⟩, w⟩

variable {base all : Bytes} {s : Sender} {w : Wire}

theorem pollSync_turn (hb : s.buffer = []) (hw : w.taken = base ++ all) :
    FlushTurn base all s.segment s.outgoing (s.pollSync w) := by
  obtain ⟨segment, buffer, outgoing⟩ := s
  obtain rfl : buffer = [] := hb
  unfold pollSync
  split
  · next h => exact .done ((Wire.taken_flush h).trans hw)
  · next h => exact .failed ⟨all, (Wire.taken_flush h).trans hw, List.prefix_rfl⟩
  · next h =>
    exact .waits ⟨⟨all, (Wire.taken_flush h).trans hw, List.append_nil _⟩, fun _ => rfl⟩

theorem pollWrite_turn {sent left : Bytes} (hw : w.taken = base ++ sent)
    (hall : sent ++ left = all) :
    FlushTurn base all s.segment s.outgoing (s.pollWrite left w) := by
  obtain ⟨more, htaken, hmore, hleft⟩ := writeAll_taken left w
  rw [hw, List.append_assoc] at htaken
  have hsum : (sent ++ more) ++ (writeAll left w).2.1 = all := by
    rw [List.append_assoc, hmore, hall]
  unfold pollWrite
  split
  · next left' w' h =>
    rw [h] at htaken hsum hleft
    rw [hleft rfl, List.append_nil] at hsum
    rw [hsum] at htaken
    exact pollSync_turn (s := s.clear) rfl htaken
  · next e left' w' h =>
    rw [h] at htaken hsum
    exact .failed ⟨sent ++ more, htaken, left', hsum⟩
  · next again left' w' h =>
    rw [h] at htaken hsum
    exact .waits ⟨⟨sent ++ more, htaken, hsum⟩, by simp⟩

/-- What a question to a flush comes to. -/
theorem pollFlush_turn {f : Flush} {o : Flushed} (h : Owes base all s f w)
    (ho : s.pollFlush f w = o) : FlushTurn base all s.segment s.outgoing o := by
  subst ho
  obtain ⟨⟨sent, hw, hall⟩, hcleared⟩ := h
  cases f with
  | start =>
    rw [pollFlush]
    split
    · next hb =>
      obtain ⟨segment, buffer, outgoing⟩ := s
      obtain rfl : buffer = [] := hb
      obtain rfl : sent = all := (List.append_nil sent).symm.trans hall
      exact .done hw
    · exact pollWrite_turn hw hall
  | writing left => exact pollWrite_turn hw hall
  | syncing =>
    obtain rfl : sent = all := (List.append_nil sent).symm.trans hall
    exact pollSync_turn (hcleared rfl) hw

end Sender

end Http1Client
