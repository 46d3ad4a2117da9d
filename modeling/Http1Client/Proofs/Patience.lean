/-
# How often it is worth asking again

A wire that is not ready has performed one of its acts to say so. So each
answer that an operation is not ready uses up an event of its wire, and no
answer brings one back (`Op.spends_poll`): an operation is asked again at most
as often as there are events. Hence the bound that `Exchange.carryOut` asks
with is never met, and it carries out an operation question by question, to a
result or to an answer that it is not worth asking again
(`Exchange.carryOut_eq`).

Asking over a connection does not dial, and it neither makes a connection nor
lets go of one (`Wire.Asked`).

Key definitions: `Poll.cost`, `Wire.Asked`.
Key theorems: `Sender.asked_pollFlush`, `Receiver.asked_pollHead`,
`Receiver.asked_pollBody`, `Op.spends_poll`, `Exchange.carryOut_eq`.
-/
import Http1Client.Proofs.Strides

namespace Http1Client

/-- The events that an answer uses up at least. -/
def Poll.cost {α : Type} : Poll α → Nat
  | ready _ => 0
  | wait _ => 1

/-! ### One act -/

namespace Act

theorem length_perform : ∀ as : List Act,
    (perform as).left.length + (perform as).answer.cost ≤ as.length
  | [] => Nat.le_refl _
  | .fail _ :: _ => Nat.le_succ _
  | .zero :: _ => Nat.le_succ _
  | .pause :: _ => Nat.le_refl _
  | .hang :: _ => Nat.le_refl _
  | .cancel :: _ => Nat.le_refl _
  | .cancelNow :: as => Nat.le_succ_of_le (length_perform as)

theorem length_putBack (b : Bytes) (as : List Arrival) :
    (putBack b as).length ≤ as.length + 1 := by
  unfold putBack
  split
  · exact Nat.le_succ _
  · exact Nat.le_refl _

theorem length_handOver (room : Nat) : ∀ as : List Arrival,
    (handOver room as).left.length + (handOver room as).answer.cost ≤ as.length
  | [] => Nat.le_refl _
  | .bytes b :: as => by
    by_cases hb : b = []
    · have ih := length_handOver room as
      rw [handOver, if_pos hb, List.length_cons]
      omega
    · rw [handOver, if_neg hb]
      exact length_putBack ..
  | .act (.fail _) :: _ => Nat.le_succ _
  | .act .zero :: _ => Nat.le_succ _
  | .act .pause :: _ => Nat.le_refl _
  | .act .hang :: _ => Nat.le_refl _
  | .act .cancel :: _ => Nat.le_refl _
  | .act .cancelNow :: as => Nat.le_succ_of_le (length_handOver room as)

theorem length_takeUpTo (room n : Nat) : ∀ as : List (Nat × Act),
    (takeUpTo room n as).left.length + (takeUpTo room n as).answer.cost ≤ as.length
  | [] => Nat.le_refl _
  | (_ + 1, _) :: _ => Nat.le_refl _
  | (0, .fail _) :: _ => Nat.le_succ _
  | (0, .zero) :: _ => Nat.le_succ _
  | (0, .pause) :: _ => Nat.le_refl _
  | (0, .hang) :: _ => Nat.le_refl _
  | (0, .cancel) :: _ => Nat.le_refl _
  | (0, .cancelNow) :: as => Nat.le_succ_of_le (length_takeUpTo room n as)

end Act

/-! ### One question -/

namespace Wire

/-- What became of a wire that was asked over its connection: an answer that it
is not ready has used up an event, and nothing was done to the connection. -/
structure Asked {α : Type} (w : Wire) (answer : Poll α) (w' : Wire) : Prop where
  spends : w'.events + answer.cost ≤ w.events
  dialled : w'.dialled = w.dialled
  connected : w'.connected = w.connected
  dropped : w'.dropped = w.dropped

section Asked

variable {α β : Type} {w w' w'' : Wire} {answer : Poll α}

/-- An answer without a question. -/
theorem Asked.refl (a : α) (w : Wire) : w.Asked (.ready a) w := ⟨Nat.le_refl _, rfl, rfl, rfl⟩

theorem Asked.le (h : w.Asked answer w') : w'.events ≤ w.events :=
  Nat.le_of_add_right_le h.spends

/-- One question behind another. -/
theorem Asked.trans {answer' : Poll β} (h : w.Asked answer w') (h' : w'.Asked answer' w'') :
    w.Asked answer' w'' :=
  ⟨Nat.le_trans h'.spends h.le, h'.dialled.trans h.dialled, h'.connected.trans h.connected,
    h'.dropped.trans h.dropped⟩

/-- The same question, with an answer to it that costs as much. -/
theorem Asked.answered {answer' : Poll β} (h : w.Asked answer w')
    (hcost : answer'.cost ≤ answer.cost) : w.Asked answer' w' :=
  ⟨Nat.le_trans (Nat.add_le_add_left hcost _) h.spends, h.dialled, h.connected, h.dropped⟩

end Asked

variable {w w' : Wire}

theorem asked_read {room : Nat} {p : Poll (Except IoError Bytes)} (h : w.read room = (p, w')) :
    w.Asked p w' := by
  have hlength := Act.length_handOver room w.arriving
  cases h
  refine ⟨?_, rfl, rfl, rfl⟩
  dsimp only [events]
  omega

theorem asked_flush {p : Poll (Except IoError Unit)} (h : w.flush = (p, w')) : w.Asked p w' := by
  have hlength := Act.length_perform w.flushing
  cases h
  refine ⟨?_, rfl, rfl, rfl⟩
  dsimp only [events]
  omega

theorem asked_close {p : Poll (Except IoError Unit)} (h : w.close = (p, w')) : w.Asked p w' := by
  have hlength := Act.length_perform w.closing
  cases h
  refine ⟨?_, rfl, rfl, rfl⟩
  dsimp only [events]
  omega

theorem asked_write {b : Bytes} {p : Poll (Except IoError Nat)} (h : w.write b = (p, w')) :
    w.Asked p w' := by
  have hlength := Act.length_takeUpTo (w.perWrite.getD b.length) b.length w.stops
  dsimp only [write] at h
  split at h
  · next n hanswer =>
    cases h
    rw [hanswer] at hlength
    refine ⟨?_, rfl, rfl, rfl⟩
    dsimp only [events]
    omega
  · cases h
    refine ⟨?_, rfl, rfl, rfl⟩
    dsimp only [events]
    omega

theorem asked_connect {p : Poll (Except IoError Unit)} (h : w.connect = (p, w'))
    (hp : p ≠ .ready (.ok ())) : w.Asked p w' := by
  have hlength := Act.length_perform w.connecting
  dsimp only [connect] at h
  split at h
  · cases h
    exact absurd rfl hp
  · cases h
    refine ⟨?_, rfl, rfl, rfl⟩
    dsimp only [events]
    omega

/-- A connection is made by an answer that it stands, and by nothing else. -/
theorem connect_ok (h : w.connect = (.ready (.ok ()), w')) : ∃ v,
    w.Asked (.ready ()) v ∧ w' = { v with connected := true } := by
  have hlength := Act.length_perform w.connecting
  dsimp only [connect] at h
  split at h
  · cases h
    refine ⟨{ w with
      connecting := (Act.perform w.connecting).left
      cancelled := w.cancelled || (Act.perform w.connecting).cancels }, ⟨?_, rfl, rfl, rfl⟩, rfl⟩
    dsimp only [events, Poll.cost]
    omega
  · next hne =>
    exact absurd (congrArg Prod.fst h) hne

end Wire

/-! ### Sending -/

theorem asked_writeAll (b : Bytes) (w : Wire) : w.Asked (writeAll b w).1 (writeAll b w).2.2 := by
  fun_induction writeAll b w with
  | case1 w => exact .refl _ w
  | case2 b w hb w' hw => exact (Wire.asked_write hw).answered (Nat.le_refl _)
  | case3 b w hb n w' hw hn ih => exact (Wire.asked_write hw).trans ih
  | case4 b w hb e w' hw => exact (Wire.asked_write hw).answered (Nat.le_refl _)
  | case5 b w hb again w' hw => exact (Wire.asked_write hw).answered (Nat.le_refl _)

namespace Sender

theorem asked_pollSync (s : Sender) (w : Wire) :
    w.Asked (s.pollSync w).answer (s.pollSync w).wire := by
  unfold pollSync
  split <;> next h => exact (Wire.asked_flush h).answered (Nat.le_refl _)

theorem asked_pollWrite (s : Sender) (left : Bytes) (w : Wire) :
    w.Asked (s.pollWrite left w).answer (s.pollWrite left w).wire := by
  have hall := asked_writeAll left w
  unfold pollWrite
  split
  · next h =>
    rw [h] at hall
    exact hall.trans (asked_pollSync ..)
  · next h =>
    rw [h] at hall
    exact hall.answered (Nat.le_refl _)
  · next h =>
    rw [h] at hall
    exact hall.answered (Nat.le_refl _)

/-- To flush asks over the connection. -/
theorem asked_pollFlush {s : Sender} {f : Flush} {w : Wire} {o : Flushed}
    (h : s.pollFlush f w = o) : w.Asked o.answer o.wire := by
  subst h
  cases f with
  | start =>
    rw [pollFlush]
    split
    · exact .refl _ w
    · exact asked_pollWrite ..
  | writing left => exact asked_pollWrite ..
  | syncing => exact asked_pollSync ..

end Sender

/-! ### Receiving -/

namespace Receiver

theorem asked_pollHead (r : Receiver) (w : Wire) :
    w.Asked (r.pollHead w).1 (r.pollHead w).2.2 := by
  fun_induction pollHead r w with
  | case1 => exact .refl _ _
  | case2 => exact .refl _ _
  | case3 => exact .refl _ _
  | case4 r w s rest hn again w' hread => exact (Wire.asked_read hread).answered (Nat.le_refl _)
  | case5 r w s rest hn e w' hread => exact (Wire.asked_read hread).answered (Nat.le_refl _)
  | case6 r w s rest hn w' hread => exact (Wire.asked_read hread).answered (Nat.le_refl _)
  | case7 r w s rest hn x xs w' hread ih => exact (Wire.asked_read hread).trans ih

theorem asked_fill (target : Nat) (r : Receiver) (w : Wire) :
    w.Asked (fill target r w).1 (fill target r w).2.2 := by
  fun_induction fill target r w with
  | case1 r w hlt again w' hread => exact (Wire.asked_read hread).answered (Nat.le_refl _)
  | case2 r w hlt e w' hread => exact (Wire.asked_read hread).answered (Nat.le_refl _)
  | case3 r w hlt w' hread => exact (Wire.asked_read hread).answered (Nat.le_refl _)
  | case4 r w hlt x xs w' hread ih => exact (Wire.asked_read hread).trans ih
  | case5 => exact .refl _ _

theorem asked_pollLength (left size : Nat) (r : Receiver) (w : Wire) :
    w.Asked (pollLength left size r w).1 (pollLength left size r w).2.2 := by
  have hfill := asked_fill (r.fillTarget left size) r w
  unfold pollLength
  split
  all_goals
    next h =>
    rw [h] at hfill
    exact hfill.answered (Nat.le_refl _)

theorem asked_pollChunks (size : Nat) (r : Receiver) (w : Wire) :
    w.Asked (pollChunks size r w).1 (pollChunks size r w).2.2 := by
  fun_induction pollChunks size r w with
  | case1 => exact .refl _ _
  | case2 => exact .refl _ _
  | case3 r w d r' hd hnil again w' hread => exact (Wire.asked_read hread).answered (Nat.le_refl _)
  | case4 r w d r' hd hnil e w' hread => exact (Wire.asked_read hread).answered (Nat.le_refl _)
  | case5 r w d r' hd hnil w' hread => exact (Wire.asked_read hread).answered (Nat.le_refl _)
  | case6 r w d r' hd hnil x xs w' hread ih => exact (Wire.asked_read hread).trans ih

theorem asked_pollUntilClose (size : Nat) (r : Receiver) (w : Wire) :
    w.Asked (pollUntilClose size r w).1 (pollUntilClose size r w).2.2 := by
  unfold pollUntilClose
  split
  · split <;> next h => exact (Wire.asked_read h).answered (Nat.le_refl _)
  · exact .refl _ _

/-- To read the body asks over the connection. -/
theorem asked_pollBody (size : Nat) (r : Receiver) (w : Wire) :
    w.Asked (r.pollBody size w).1 (r.pollBody size w).2.2 := by
  unfold pollBody
  split
  · exact .refl _ _
  · split
    · exact .refl _ _
    · exact asked_pollLength ..
    · exact asked_pollChunks ..
    · exact asked_pollUntilClose ..
    · exact .refl _ _

end Receiver

/-! ### Operations -/

/-- The events that an answer uses up at least. -/
def Turn.cost {ρ ω : Type} : Turn ρ ω → Nat
  | done _ => 0
  | wait _ _ => 1

theorem Turn.cost_map {ρ ρ' ω ω' : Type} (f : ρ → ρ') (g : ω → ω') (t : Turn ρ ω) :
    (t.map f g).cost = t.cost := by
  cases t <;> rfl

namespace Execution

variable {x x' : Execution} {e e' : Exchange} {w w' : Wire}

/-- A stride brings no event back. -/
theorem Strides.events_le (h : Strides e w x x' e' w') : w'.events ≤ w.events := by
  cases h with
  | starts => exact Nat.le_refl _
  | connects _ hw _ =>
    obtain ⟨v, hv, rfl⟩ := Wire.connect_ok hw
    exact hv.le
  | sendsHead _ hf _ => exact (Sender.asked_pollFlush hf).le
  | sendsBody _ hf => exact (Sender.asked_pollFlush hf).le

/-- A stop that is not the end uses up an event. -/
theorem Stops.spends {a : Answer} (h : Stops e w x a) : a.2.2.events + a.1.cost ≤ w.events := by
  have hfailed : ∀ {f : Failure} {e₁ : Exchange} {w₁ : Wire}, w₁.events ≤ w.events →
      (failed f e₁ w₁).2.2.events + (failed f e₁ w₁).1.cost ≤ w.events := by
    intro f e₁ w₁ hle
    exact Nat.le_trans (Nat.le_of_eq (e₁.fail_frame Wire.events rfl)) hle
  cases h with
  | busy => exact Nat.le_refl _
  | hostless => exact hfailed (Nat.le_refl _)
  | cancelledFirst => exact hfailed (Nat.le_refl _)
  | cancelled =>
    exact hfailed (Nat.le_of_eq (Op.abandon_frame Wire.events rfl _))
  | notConnected _ hw => exact hfailed (Wire.asked_connect hw (by simp)).le
  | connecting _ hw => exact (Wire.asked_connect hw (by simp)).spends
  | headRefused _ hw =>
    obtain ⟨v, hv, rfl⟩ := Wire.connect_ok hw
    exact hfailed hv.le
  | headUnsent _ hf => exact hfailed (Sender.asked_pollFlush hf).le
  | sendingHead _ hf => exact (Sender.asked_pollFlush hf).spends
  | bodyRefused _ hf => exact hfailed (Sender.asked_pollFlush hf).le
  | bodyUnsent _ hf => exact hfailed (Sender.asked_pollFlush hf).le
  | sendingBody _ hf => exact (Sender.asked_pollFlush hf).spends
  | @headUnread r r' _ _ _ _ hr =>
    have hasked := r.asked_pollHead w
    rw [hr] at hasked
    exact hfailed hasked.le
  | @awaitingHead r _ _ _ _ hr =>
    have hasked := r.asked_pollHead w
    rw [hr] at hasked
    exact hasked.spends
  | @head r _ _ _ _ _ hr =>
    have hasked := r.asked_pollHead w
    rw [hr] at hasked
    exact hasked.le

theorem spends_poll (x : Execution) (e : Exchange) (w : Wire) :
    (x.poll e w).2.2.events + (x.poll e w).1.cost ≤ w.events :=
  poll_induct (P := fun _ _ w' => w'.events ≤ w.events)
    (Q := fun a => a.2.2.events + a.1.cost ≤ w.events)
    (fun h hstride => Nat.le_trans hstride.events_le h)
    (fun h hstop => Nat.le_trans hstop.spends h) (Nat.le_refl _)

end Execution

namespace Exchange

theorem spends_pollRead (size : Nat) (e : Exchange) (w : Wire) :
    (e.pollRead size w).2.2.events + (e.pollRead size w).1.cost ≤ w.events := by
  unfold pollRead
  split
  · exact Nat.le_refl _
  · next r _ _ =>
    have hasked := r.asked_pollBody size w
    split
    · exact Nat.le_of_eq (e.fail_frame Wire.events rfl)
    · split
      · next h =>
        rw [h] at hasked
        exact hasked.le
      · next h =>
        rw [h] at hasked
        exact Nat.le_trans (Nat.le_of_eq (fail_frame Wire.events rfl _)) hasked.le
      · next h =>
        rw [h] at hasked
        exact hasked.spends
  · exact Nat.le_refl _
  · exact Nat.le_refl _

theorem spends_pollClosing (e : Exchange) (w : Wire) :
    (e.pollClosing w).2.2.events + (e.pollClosing w).1.cost ≤ w.events := by
  unfold pollClosing
  split
  · next h => exact (Wire.asked_close h).le
  · next h => exact (Wire.asked_close h).le
  · next h => exact (Wire.asked_close h).spends

theorem spends_pollClose (e : Exchange) (w : Wire) :
    (e.pollClose w).2.2.events + (e.pollClose w).1.cost ≤ w.events := by
  unfold pollClose
  split
  · exact spends_pollClosing ..
  · exact Nat.le_refl _

end Exchange

namespace Op

/-- Each answer that is none yet uses up an event of the wire. -/
theorem spends_poll (op : Op) (e : Exchange) (w : Wire) :
    (op.poll e w).2.2.events + (op.poll e w).1.cost ≤ w.events := by
  cases op with
  | execute x =>
    rw [poll, Turn.cost_map]
    exact x.spends_poll e w
  | read size =>
    rw [poll, Turn.cost_map]
    exact e.spends_pollRead size w
  | close =>
    rw [poll, Turn.cost_map]
    exact e.spends_pollClose w
  | closing =>
    rw [poll, Turn.cost_map]
    exact e.spends_pollClosing w

/-- Where it is worth asking again and may be done, it is done. -/
theorem run_of_again {op op' : Op} {e e' : Exchange} {w w' : Wire}
    (h : op.poll e w = (.wait true op', e', w')) (n : Nat) :
    op.run (n + 1) e w = op'.run n e' w' := by
  rw [run.eq_def, h]

/-- So any bound that is not below the events is met by no run. -/
theorem run_eq_run : ∀ {n m : Nat} (op : Op) (e : Exchange) (w : Wire),
    w.events ≤ n → w.events ≤ m → op.run n e w = op.run m e w := by
  intro n
  induction n with
  | zero =>
    intro m op e w hn hm
    have hspends := op.spends_poll e w
    rcases hpoll : op.poll e w with ⟨result | ⟨again, op'⟩, e', w'⟩
    · cases m <;> simp [run, hpoll]
    · rw [hpoll] at hspends
      dsimp only [Turn.cost] at hspends
      omega
  | succ n ih =>
    intro m op e w hn hm
    have hspends := op.spends_poll e w
    rcases hpoll : op.poll e w with ⟨result | ⟨again, op'⟩, e', w'⟩
    · cases m <;> simp [run, hpoll]
    · rw [hpoll] at hspends
      dsimp only [Turn.cost] at hspends
      obtain ⟨m, rfl⟩ : ∃ k, m = k + 1 := ⟨m - 1, by omega⟩
      cases again with
      | false => simp [run, hpoll]
      | true =>
        rw [run_of_again hpoll, run_of_again hpoll]
        exact ih op' e' w' (by omega) (by omega)

end Op

namespace Exchange

/-- To carry an operation out is to ask it, and to carry out what is left to
do as long as it is worth asking again. -/
theorem carryOut_eq (op : Op) (e : Exchange) (w : Wire) :
    carryOut op e w =
      match op.poll e w with
      | (.done reply, e', w') => (some reply, e', w')
      | (.wait true op', e', w') => carryOut op' e' w'
      | (.wait false op', e', w') => (none, e', op'.abandon w') := by
  have hspends := op.spends_poll e w
  rcases hpoll : op.poll e w with ⟨result | ⟨again, op'⟩, e', w'⟩
  · simp [carryOut, Op.run, hpoll]
  · rw [hpoll] at hspends
    dsimp only [Turn.cost] at hspends
    cases again with
    | false => simp [carryOut, Op.run, hpoll]
    | true =>
      have hrun := Op.run_eq_run op' e' w' (n := w.events) (m := w'.events + 1)
        (by omega) (by omega)
      rw [carryOut, Op.run_of_again hpoll, hrun]
      rfl

end Exchange
end Http1Client
