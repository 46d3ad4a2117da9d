/-
# The decoder stays in phase

What an exchange reads is first a head and then a body, and which of the two is
due next is known in several places at once: the receiver has a decoder of the body
or has none, it is finished or not, the exchange has a receiver or has none, and the
exchange is at some stage. Were they ever at odds, bytes of the body would be read as
another head, or the other way round.

They never are. Inside the body every question for data goes to the decoder alone
(`Receiver.pollBody_eq`), which fails only with faults of a body
(`BodyReader.isOfBody_of_poll`). Before the head the search for it takes heads alone
and fails only with faults of a head (`Receiver.BeforeHead.leavesBody`,
`Receiver.BeforeHead.isOfHead`). An exchange never goes back from the one to the
other (`Course.Sound.rank_le_step`), and no deed is answered with a failure that
says that they were taken for each other (`Course.Sound.inPhase_step`). `phase_run`
says all of this of every course.

Key definitions: `BodyFault.isOutOfPhase`, `DecodeError.isOfBody`,
`Receiver.LeavesBody`, `Failure.IsOfReading`, `Course.ReadsOn`.
Key theorems: `BodyReader.isOfBody_of_poll`, `Receiver.BeforeHead.leavesBody`,
`Op.inPhase_poll`, `Course.Sound.readsOn_run`, `Course.phase_run`.
-/
import Http1Client.Proofs.BodyReader
import Http1Client.Proofs.Cancellation
import Http1Client.Proofs.Keeping
import Http1Client.Proofs.Salvage

namespace Http1Client

/-! ### Faults that no decoder makes -/

/-- Does the fault say that a head and a body were taken for each other? -/
def BodyFault.isOutOfPhase : BodyFault → Bool
  | bodyBeforeHead => true
  | headUnread => true
  | headInsideBody => true
  | _ => false

/-- Is it an error that the reading of a body may end with? -/
def DecodeError.isOfBody : DecodeError → Bool
  | badBody fault => !fault.isOutOfPhase
  | io _ => true
  | _ => false

namespace Chunked

theorem inPhase_of_takeLine {b : Bytes} {fault : BodyFault} (h : takeLine b = .bad fault) :
    fault.isOutOfPhase = false := by
  unfold takeLine at h
  split at h
  · split at h <;> cases h
    rfl
  · unfold closeLine at h
    split at h
    · split at h <;> cases h
      rfl
    · cases h
      rfl

theorem inPhase_of_parseSize {line : Bytes} {fault : BodyFault}
    (h : parseSize line = .error fault) : fault.isOutOfPhase = false := by
  dsimp only [parseSize] at h
  split at h
  · cases h
    rfl
  · split at h
    · cases h
      rfl
    · split at h <;> cases h
      rfl

end Chunked

open Chunked in
theorem ChunkedDecoder.isOfBody_of_decode {d d' : ChunkedDecoder} {b rest : Bytes}
    {e : DecodeError} (h : d.decode b = (.fail e, d', rest)) : e.isOfBody = true := by
  have hphase : ∀ {fault : BodyFault}, fault.isOutOfPhase = false →
      (DecodeError.badBody fault).isOfBody = true := by
    intro fault hfault
    rw [DecodeError.isOfBody, hfault]
    rfl
  fun_induction decode d b with
  | case2 d b hp fault htake =>
    cases h
    exact hphase (inPhase_of_takeLine htake)
  | case3 d b hp text rest' htake fault hparse =>
    cases h
    exact hphase (inPhase_of_parseSize hparse)
  | case4 d b hp text rest' htake n hn hl ih => exact ih h
  | case5 | case9 =>
    cases h
    rfl
  | case8 d hp x y rest' hxy ih => exact ih h
  | case12 d b hp fault htake =>
    cases h
    exact hphase (inPhase_of_takeLine htake)
  | case14 d b hp text rest' htake ht ih => exact ih h
  | _ => simp at h

namespace BodyDecoder

variable {d d' : BodyDecoder} {b rest : Bytes} {e : DecodeError}

theorem isOfBody_of_decode (h : d.decode b = (.fail e, d', rest)) : e.isOfBody = true := by
  cases d with
  | chunked c =>
    simp only [decode, Prod.mk.injEq] at h
    exact c.isOfBody_of_decode (Prod.ext h.1 rfl)
  | length left =>
    simp only [decode] at h
    split at h
    · cases h
    · split at h <;> cases h
  | untilClose ended =>
    simp only [decode] at h
    split at h
    · cases h
    · split at h <;> cases h
  | empty => cases h

theorem isOfBody_of_drain {limit : Option Nat} {got : Nat}
    (h : d.drain limit got b = (.error e, d', rest)) : e.isOfBody = true := by
  fun_induction drain limit got d b with
  | case1 | case3 | case5 | case6 => cases h
  | case2 got d b hl x d₁ rest₁ hdecode e₁ d₂ rest₂ hrest ih =>
    cases h
    exact ih hrest
  | case4 got d b hl e₁ d₁ rest₁ hdecode =>
    cases h
    exact isOfBody_of_decode hdecode

end BodyDecoder

namespace BodyReader

variable {m : BodyReader} {w : Wire} {e : DecodeError} {size : Nat}

theorem isOfBody_of_drain {limit : Option Nat} (h : (m.drain limit).1 = .error e) :
    e.isOfBody = true := by
  unfold drain at h
  split at h
  · next hdrain =>
    cases h
    exact BodyDecoder.isOfBody_of_drain hdrain
  · cases h

theorem isOfBody_of_fill {target : Nat} (h : (m.fill target w).1 = .ready (.error e)) :
    e.isOfBody = true := by
  fun_induction fill target m w with
  | case1 | case5 => cases h
  | case2 | case3 =>
    cases h
    rfl
  | case4 m w hlt x xs w₁ hread ih => exact ih h

theorem isOfBody_of_pollLength {left : Nat}
    (h : (m.pollLength left size w).1 = .ready (.error e)) : e.isOfBody = true := by
  dsimp only [pollLength] at h
  split at h
  · cases h
  · next hfill =>
    cases h
    exact isOfBody_of_fill (congrArg Prod.fst hfill)
  · rw [Poll.ready.injEq] at h
    exact isOfBody_of_drain h

theorem isOfBody_of_pollChunks (h : (m.pollChunks size w).1 = .ready (.error e)) :
    e.isOfBody = true := by
  fun_induction pollChunks size m w with
  | case1 m w e₁ m₁ hdrain =>
    cases h
    exact isOfBody_of_drain (congrArg Prod.fst hdrain)
  | case2 | case3 => cases h
  | case4 | case5 =>
    cases h
    rfl
  | case6 m w d m₁ hdrain hnil x xs w₁ hread ih => exact ih h

theorem isOfBody_of_pollUntilClose (h : (m.pollUntilClose size w).1 = .ready (.error e)) :
    e.isOfBody = true := by
  unfold pollUntilClose at h
  split at h
  · split at h
    · cases h
    · cases h
      rfl
    · cases h
    · rw [Poll.ready.injEq] at h
      exact isOfBody_of_drain h
  · rw [Poll.ready.injEq] at h
    exact isOfBody_of_drain h

/-- The machine fails with the transport or with a fault of the body. -/
theorem isOfBody_of_poll (h : (m.poll size w).1 = .ready (.error e)) : e.isOfBody = true := by
  unfold poll at h
  split at h
  · exact isOfBody_of_pollLength h
  · exact isOfBody_of_pollChunks h
  · exact isOfBody_of_pollUntilClose h
  · rw [Poll.ready.injEq] at h
    exact isOfBody_of_drain h

end BodyReader

namespace Receiver

variable {r r' : Receiver} {w w' : Wire} {e : DecodeError}

/-- A receiver inside the body fails with the transport or a fault of the body. -/
theorem OpenAt.isOfBody {d : BodyDecoder} {size : Nat} (h : r.OpenAt d)
    (hpoll : r.pollBody size w = (.ready (.error e), r', w')) : e.isOfBody = true := by
  rw [pollBody_eq h] at hpoll
  exact BodyReader.isOfBody_of_poll (congrArg Prod.fst hpoll)

/-- The head that was found, with the interim ones before it, is what the bytes
begin with. All that is behind it is left to the decoder that it announces. -/
structure LeavesBody (toHead : Bool) (r : Receiver) (w : Wire) (response : Response)
    (framing : Framing) (r' : Receiver) (w' : Wire) : Prop where
  heads : ∃ y, w.unread = y ++ w'.unread ∧ Heads toHead (r.buffer ++ y) response framing r'.buffer
  openAt : r'.OpenAt (.ofFraming r.incoming.chunkLimit framing)

/-- The search for the head takes no byte of the body. -/
theorem BeforeHead.leavesBody {toHead : Bool} {response : Response} {framing : Framing}
    (h : r.BeforeHead toHead)
    (hpoll : r.pollHead w = (.ready (.ok (response, framing)), r', w')) :
    LeavesBody toHead r w response framing r' w' := by
  cases pollHead_turn h hpoll with
  | found hg hn =>
    obtain ⟨_, _, hevent, hheads, rfl⟩ := Incoming.nextHead_item hn
    cases hevent
    rw [h.toHead] at hheads
    exact ⟨⟨_, hg.unread, hheads⟩, ⟨rfl, h.unfinished, h.room⟩⟩

/-- A receiver before the head fails with the transport or a fault of a head. -/
theorem BeforeHead.isOfHead {toHead : Bool} (h : r.BeforeHead toHead)
    (hpoll : r.pollHead w = (.ready (.error e), r', w')) : e.isIo = true ∨ e.isOfHead = true := by
  cases hio : e.isIo with
  | true => exact .inl rfl
  | false =>
    obtain ⟨y, -, hfail⟩ := fault_of_pollHead h hpoll hio
    exact .inr (Incoming.isOfHead_of_nextHead_fail hfail)

end Receiver

/-! ### Failures and replies -/

/-- Does the failure say that a head and a body were taken for each other, or
that an exchange inside the body has nothing to read with? -/
def Failure.isOutOfPhase : Failure → Bool
  | read (.badBody fault) => fault.isOutOfPhase
  | stage .readBody .readingBody => true
  | _ => false

/-- The failures that a reading inside the body may end with. -/
inductive Failure.IsOfReading : Failure → Prop where
  | cancelled : IsOfReading .cancelled
  | io (e : IoError) : IsOfReading (.read (.io e))
  | badBody {fault : BodyFault} : fault.isOutOfPhase = false → IsOfReading (.read (.badBody fault))

theorem Failure.isOfReading_ofDecode {e : DecodeError} (h : e.isOfBody = true) :
    (ofDecode e).IsOfReading := by
  cases e with
  | io e => exact .io e
  | badBody fault => exact .badBody (by simpa [DecodeError.isOfBody] using h)
  | _ => cases h

theorem Failure.IsOfReading.inPhase {f : Failure} (h : f.IsOfReading) :
    f.isOutOfPhase = false := by
  cases h with
  | cancelled => rfl
  | io e => rfl
  | badBody hfault => exact hfault

/-- A failure at the head is none of the body. -/
theorem Failure.inPhase_ofDecode {e : DecodeError} (h : e.isIo = true ∨ e.isOfHead = true) :
    (ofDecode e).isOutOfPhase = false := by
  cases e with
  | badBody fault => rcases h with h | h <;> cases h
  | _ => rfl

/-- Does the reply tell of a failure that is out of phase? -/
def Reply.isOutOfPhase : Reply → Bool
  | executed (.error f) => f.failure.isOutOfPhase
  | delivered (.error f) => f.isOutOfPhase
  | closed (.error f) => f.isOutOfPhase
  | _ => false

/-- No stage comes behind a failure. -/
theorem Stage.rank_le_failed (s : Stage) : s.rank ≤ Stage.rank .failed := by
  cases s <;> decide

namespace Execution

variable {closes : Prop} {e : Exchange} {w : Wire} {x : Execution}

theorem Stops.inPhase {a : Answer} (h : Stops e w x a) (hx : x.At e) :
    ∀ f, a.1 = .done (.error f) → f.failure.isOutOfPhase = false := by
  intro f hf
  cases h with
  | headUnread _ hr =>
    obtain ⟨toHead, hbefore⟩ := hx.before _ rfl
    cases hf
    exact Failure.inPhase_ofDecode (hbefore.isOfHead hr)
  | _ =>
    cases hf
    try rfl

/-- An execution does not fail out of phase. -/
theorem inPhase_poll (he : e.Sound closes) (hx : x.At e) (w : Wire) :
    ∀ f, (x.poll e w).1 = .done (.error f) → f.failure.isOutOfPhase = false :=
  poll_induct (P := fun x e _ => e.Sound closes ∧ x.At e)
    (Q := fun a => ∀ f, a.1 = .done (.error f) → f.failure.isOutOfPhase = false)
    (fun h hstride => hstride.sound h.1 h.2) (fun h hstop => hstop.inPhase h.2) ⟨he, hx⟩

theorem Stops.rank_le {a : Answer} (h : Stops e w x a) (hx : x.At e) :
    e.stage.rank ≤ a.2.1.stage.rank := by
  cases h with
  | busy | connecting | sendingHead | sendingBody | awaitingHead => exact Nat.le_refl _
  | head =>
    rw [hx.stage nofun]
    show Stage.rank .awaitingHead ≤ Stage.rank .readingBody
    decide
  | _ => exact e.stage.rank_le_failed

/-- An execution does not go back. -/
theorem rank_le_poll (he : e.Sound closes) (hx : x.At e) (w : Wire) :
    e.stage.rank ≤ (x.poll e w).2.1.stage.rank := by
  -- Each stride goes up, so the stage it set out from stays below all of them.
  refine poll_induct
    (P := fun x' e' _ => e.stage.rank ≤ e'.stage.rank ∧ e'.Sound closes ∧ x'.At e')
    (Q := fun a => e.stage.rank ≤ a.2.1.stage.rank)
    (fun h hstride => ⟨?_, hstride.sound h.2.1 h.2.2⟩)
    (fun h hstop => Nat.le_trans h.1 (hstop.rank_le h.2.2)) ⟨Nat.le_refl _, he, hx⟩
  have hlt := hstride.rank_lt
  rw [← hstride.stage h.2.2, ← hstride.stage_next] at hlt
  exact Nat.le_trans h.1 (Nat.le_of_lt hlt)

end Execution

namespace Exchange

variable {closes : Prop} {e : Exchange} {w : Wire} {f : Failure} {size : Nat}

/-- A reading inside the body fails with the transport, with a fault of the body
or as it is cancelled. -/
theorem Sound.isOfReading (h : e.Sound closes) (hs : e.stage = .readingBody)
    (hf : (e.pollRead size w).1 = .done (.error f)) : f.IsOfReading := by
  obtain ⟨hconnected, r, d, hr, hopen⟩ := h.of_reading hs
  have hlink : e.link = some r := link_eq_some_iff.mpr ⟨hconnected, hr⟩
  rw [pollRead, hs, hlink] at hf
  dsimp only at hf
  split at hf
  · cases hf
    exact .cancelled
  · split at hf
    · cases hf
    · next hpoll =>
      cases hf
      exact Failure.isOfReading_ofDecode (hopen.isOfBody hpoll)
    · cases hf

theorem Sound.inPhase_pollRead (h : e.Sound closes)
    (hf : (e.pollRead size w).1 = .done (.error f)) : f.isOutOfPhase = false := by
  by_cases hs : e.stage = .readingBody
  · exact (h.isOfReading hs hf).inPhase
  · unfold pollRead at hf
    split at hf
    · cases hf
    · next hreading _ => exact absurd hreading hs
    · cases hf
      split <;> rfl
    · cases hf
      cases hstage : e.stage with
      | readingBody => exact absurd hstage hs
      | _ => rfl

theorem write_of_pollClosing (hf : (e.pollClosing w).1 = .done (.error f)) :
    ∃ error, f = .write error := by
  unfold pollClosing at hf
  split at hf
  · cases hf
  · cases hf
    exact ⟨_, rfl⟩
  · cases hf

theorem write_of_pollClose (hf : (e.pollClose w).1 = .done (.error f)) :
    ∃ error, f = .write error := by
  unfold pollClose at hf
  split at hf
  · exact write_of_pollClosing hf
  · cases hf

/-- A reading does not go back. -/
theorem rank_le_pollRead (e : Exchange) (size : Nat) (w : Wire) :
    e.stage.rank ≤ (e.pollRead size w).2.1.stage.rank := by
  unfold pollRead
  split
  · exact Nat.le_refl _
  · next hs _ =>
    split
    · exact e.stage.rank_le_failed
    · split
      · next given r' w' hpoll =>
        rw [hs]
        show Stage.rank .readingBody ≤ Stage.rank (if given.last then .complete else .readingBody)
        cases given.last <;> decide
      · exact e.stage.rank_le_failed
      · exact Nat.le_refl _
  · exact Nat.le_refl _
  · exact Nat.le_refl _

theorem rank_le_interrupt (e : Exchange) : e.stage.rank ≤ e.interrupt.unlink.stage.rank := by
  unfold interrupt
  split
  · exact e.stage.rank_le_failed
  · exact Nat.le_refl _

theorem rank_le_pollClose (e : Exchange) (w : Wire) :
    e.stage.rank ≤ (e.pollClose w).2.1.stage.rank := by
  unfold pollClose
  split
  · obtain ⟨t, w', ht, -⟩ := Course.pollClosing_eq e.interrupt.unlink w
    rw [ht]
    exact e.rank_le_interrupt
  · exact e.rank_le_interrupt

theorem rank_le_abort (e : Exchange) (w : Wire) : e.stage.rank ≤ (e.abort w).1.stage.rank := by
  unfold abort
  split
  · exact e.stage.rank_le_failed
  · exact Nat.le_refl _

end Exchange

/-! ### Operations -/

namespace Op

variable {closes : Prop} {op : Op} {e : Exchange} {w : Wire} {reply : Reply}

/-- No operation is answered out of phase. -/
theorem inPhase_poll (he : e.Sound closes) (hop : op.At closes e)
    (h : (op.poll e w).1 = .done reply) : reply.isOutOfPhase = false := by
  cases op with
  | execute x =>
    obtain ⟨result, hresult, rfl⟩ := Turn.eq_done_of_map h
    cases result with
    | ok response => rfl
    | error f => exact Execution.inPhase_poll he hop w f hresult
  | read size =>
    obtain ⟨result, hresult, rfl⟩ := Turn.eq_done_of_map h
    cases result with
    | ok given => rfl
    | error f => exact he.inPhase_pollRead hresult
  | close =>
    obtain ⟨result, hresult, rfl⟩ := Turn.eq_done_of_map h
    cases result with
    | ok done => rfl
    | error f =>
      obtain ⟨error, rfl⟩ := Exchange.write_of_pollClose hresult
      rfl
  | closing =>
    obtain ⟨result, hresult, rfl⟩ := Turn.eq_done_of_map h
    cases result with
    | ok done => rfl
    | error f =>
      obtain ⟨error, rfl⟩ := Exchange.write_of_pollClosing hresult
      rfl

theorem rank_le_poll (he : e.Sound closes) (hop : op.At closes e) (w : Wire) :
    e.stage.rank ≤ (op.poll e w).2.1.stage.rank := by
  cases op with
  | execute x => exact Execution.rank_le_poll he hop w
  | read size => exact e.rank_le_pollRead size w
  | close => exact e.rank_le_pollClose w
  | closing =>
    obtain ⟨t, w', ht, -⟩ := Course.pollClosing_eq e w
    show e.stage.rank ≤ (e.pollClosing w).2.1.stage.rank
    rw [ht]

end Op

/-! ### Courses -/

namespace Course

variable {c : Course} {size : Nat}

/-- What a deed adds to the replies is the answer of the operation under way,
if that is done. -/
theorem replies_step (c : Course) (deed : Deed) : (c.step deed).replies = c.replies ∨
    ∃ op reply, c.pending = some op ∧ (op.poll c.exchange c.wire).1 = .done reply ∧
      (c.step deed).replies = c.replies ++ [reply] := by
  cases deed with
  | begin call =>
    rw [step]
    split <;> exact .inl rfl
  | ask =>
    rw [step]
    split
    · exact .inl rfl
    · next op hop =>
      rcases hpoll : op.poll c.exchange c.wire with ⟨reply | ⟨again, left⟩, e, w⟩
      · exact .inr ⟨op, reply, hop, congrArg Prod.fst hpoll, rfl⟩
      · exact .inl rfl
  | letGo =>
    rw [step]
    split <;> exact .inl rfl
  | cancel => exact .inl rfl
  | abort =>
    rw [step]
    split <;> exact .inl rfl

theorem replies_grow (deeds : List Deed) (c : Course) :
    ∃ later, (c.run deeds).replies = c.replies ++ later := by
  induction deeds generalizing c with
  | nil => exact ⟨[], (List.append_nil _).symm⟩
  | cons deed deeds ih =>
    obtain ⟨later, hlater⟩ := ih (c.step deed)
    rw [run_cons, hlater]
    rcases replies_step c deed with hsame | ⟨op, reply, -, -, hreply⟩
    · exact ⟨later, by rw [hsame]⟩
    · exact ⟨reply :: later, by rw [hreply, List.append_assoc, List.singleton_append]⟩

/-- A deed is answered in phase. -/
theorem Sound.inPhase_step (h : c.Sound True) (hreplies : ∀ r ∈ c.replies, r.isOutOfPhase = false)
    (deed : Deed) : ∀ r ∈ (c.step deed).replies, r.isOutOfPhase = false := by
  rcases replies_step c deed with hsame | ⟨op, reply, hop, hdone, hreply⟩
  · rwa [hsame]
  · rw [hreply]
    intro r hr
    rcases List.mem_append.mp hr with hr | hr
    · exact hreplies r hr
    · obtain rfl := List.mem_singleton.mp hr
      exact Op.inPhase_poll h.exchange (h.pending op hop) hdone

theorem Sound.inPhase_run (deeds : List Deed) (h : c.Sound True)
    (hreplies : ∀ r ∈ c.replies, r.isOutOfPhase = false) :
    ∀ r ∈ (c.run deeds).replies, r.isOutOfPhase = false := by
  induction deeds generalizing c with
  | nil => exact hreplies
  | cons deed deeds ih =>
    rw [run_cons]
    exact ih (h.step deed fun _ => trivial) (h.inPhase_step hreplies deed)

/-- A deed does not take an exchange back. -/
theorem Sound.rank_le_step (h : c.Sound True) (deed : Deed) :
    c.exchange.stage.rank ≤ (c.step deed).exchange.stage.rank := by
  cases deed with
  | begin call =>
    rw [Course.step]
    split <;> exact Nat.le_refl _
  | ask =>
    rw [Course.step]
    split
    · exact Nat.le_refl _
    · next op hop =>
      rw [exchange_settle]
      exact Op.rank_le_poll h.exchange (h.pending op hop) c.wire
  | letGo =>
    rw [Course.step]
    split <;> exact Nat.le_refl _
  | cancel => exact Nat.le_refl _
  | abort =>
    rw [Course.step]
    split
    · exact Nat.le_refl _
    · exact c.exchange.rank_le_abort c.wire

theorem Sound.rank_le_run (deeds : List Deed) (h : c.Sound True) :
    c.exchange.stage.rank ≤ (c.run deeds).exchange.stage.rank := by
  induction deeds generalizing c with
  | nil => exact Nat.le_refl _
  | cons deed deeds ih =>
    rw [run_cons]
    exact Nat.le_trans (h.rank_le_step deed) (ih (h.step deed fun _ => trivial))

/-- A reading is under way inside the body. -/
structure IsReading (size : Nat) (c : Course) : Prop where
  pending : c.pending = some (.read size)
  stage : c.exchange.stage = .readingBody

/-- What becomes of a reading that was begun inside the body behind these replies:
it is under way still, or it was answered with data or failed as it may. -/
def ReadsOn (size : Nat) (replies : List Reply) (c : Course) : Prop :=
  (c.IsReading size ∧ c.replies = replies) ∨
    ∃ result later, c.replies = replies ++ .delivered result :: later ∧
      ∀ f, result = .error f → f.IsOfReading

theorem Sound.readsOn_step (h : c.Sound True) (hreading : c.IsReading size) {deed : Deed}
    (hdeed : deed ≠ .letGo) : (c.step deed).ReadsOn size c.replies := by
  have hbusy : c.pending.isSome = true := by rw [hreading.pending]; rfl
  cases deed with
  | begin call =>
    rw [Course.step, if_pos hbusy]
    exact .inl ⟨hreading, rfl⟩
  | ask =>
    rcases hread : c.exchange.pollRead size c.wire with ⟨result | ⟨again, _⟩, e, w⟩
    · right
      refine ⟨result, [], ?_, fun f hf => ?_⟩
      · rw [step_ask hreading.pending, Op.poll, hread]
        rfl
      · subst hf
        exact h.exchange.isOfReading hreading.stage (congrArg Prod.fst hread)
    · left
      have hstage := Op.stage_of_read_wait hread
      rw [step_ask hreading.pending, Op.poll, hread]
      exact ⟨⟨rfl, hstage⟩, rfl⟩
  | letGo => exact absurd rfl hdeed
  | cancel => exact .inl ⟨⟨hreading.pending, hreading.stage⟩, rfl⟩
  | abort =>
    rw [Course.step, if_pos hbusy]
    exact .inl ⟨hreading, rfl⟩

/-- A reading that nobody lets go of goes on inside the body, or is answered. -/
theorem Sound.readsOn_run (deeds : List Deed) (h : c.Sound True) (hreading : c.IsReading size)
    (hdeeds : .letGo ∉ deeds) : (c.run deeds).ReadsOn size c.replies := by
  induction deeds generalizing c with
  | nil => exact .inl ⟨hreading, rfl⟩
  | cons deed deeds ih =>
    obtain ⟨hdeed, hdeeds⟩ : deed ≠ .letGo ∧ .letGo ∉ deeds := by
      rw [List.mem_cons, not_or] at hdeeds
      exact ⟨fun hd => hdeeds.1 hd.symm, hdeeds.2⟩
    rw [run_cons]
    rcases h.readsOn_step hreading hdeed with ⟨hreading', hsame⟩ | ⟨result, later, hreply, hf⟩
    · rw [← hsame]
      exact ih (h.step deed fun _ => trivial) hreading' hdeeds
    · obtain ⟨more, hmore⟩ := replies_grow deeds (c.step deed)
      refine .inr ⟨result, later ++ more, ?_, hf⟩
      rw [hmore, hreply, List.append_assoc, List.cons_append]

/-- An execution that is asked of an exchange inside the body is refused. -/
theorem Sound.refused (h : c.Sound True) (hs : c.exchange.stage = .readingBody) {x : Execution}
    (hx : c.pending = some (.execute x)) : x.poll c.exchange c.wire =
      (.done (.error ⟨.stage .execute .readingBody, c.exchange.response⟩), c.exchange, c.wire) := by
  have hat : x.At c.exchange := h.pending _ hx
  have hbusy : c.exchange.stage ≠ .idle := by
    rw [hs]
    decide
  cases x with
  | start q => rw [Execution.poll_of_busy hbusy, hs]
  | _ =>
    have hstage := hs.symm.trans (hat.stage nofun)
    cases hstage

/-- Inside the body no search for a head is under way. -/
theorem Sound.not_awaitingHead (h : c.Sound True) (hs : c.exchange.stage = .readingBody)
    (r : Receiver) : c.pending ≠ some (.execute (.awaitingHead r)) := by
  intro hr
  have hat : (Execution.awaitingHead r).At c.exchange := h.pending _ hr
  have hstage := hs.symm.trans (hat.stage nofun)
  cases hstage

/-- While the head is searched for, the exchange has no receiver: the search has
it, and is before the head. -/
theorem Sound.beforeHead (h : c.Sound True) {r : Receiver}
    (hr : c.pending = some (.execute (.awaitingHead r))) :
    c.exchange.stage = .awaitingHead ∧ c.exchange.receiver = none ∧
      ∃ toHead, r.BeforeHead toHead := by
  have hat : (Execution.awaitingHead r).At c.exchange := h.pending _ hr
  have hs : c.exchange.stage = .awaitingHead := hat.stage nofun
  refine ⟨hs, ?_, hat.before r rfl⟩
  cases h.exchange.holds with
  | nothing _ _ hnone => exact hnone
  | reading hs' => cases hs.symm.trans hs'
  | complete hs' => cases hs.symm.trans hs'
  | closed _ hs' => cases hs.symm.trans hs'

/-- A reading that is begun inside the body. -/
theorem Sound.readsOn_begin (h : c.Sound True) (hs : c.exchange.stage = .readingBody)
    (hnone : c.pending = none) {deeds : List Deed} (hdeeds : .letGo ∉ deeds) :
    (c.run (.begin (.read size) :: deeds)).ReadsOn size c.replies := by
  have hbegin : c.step (.begin (.read size)) = { c with pending := some (.read size) } := by
    rw [Course.step, hnone]
    rfl
  have hreading : (c.step (.begin (.read size))).IsReading size := by
    rw [hbegin]
    exact ⟨rfl, hs⟩
  have hreplies : (c.step (.begin (.read size))).replies = c.replies := by rw [hbegin]
  rw [run_cons, ← hreplies]
  exact (h.step _ fun _ => trivial).readsOn_run deeds hreading hdeeds

/-- **The decoder stays in phase**, whatever is done with an exchange over whatever
wire. Inside the body the exchange has its connection and a receiver with a decoder
of the body, and every question for data is one to that decoder alone; no search for
a head is under way, an execution is refused, and no later stage is one before the
body. A search for the head is under way only before the head, where it takes the
head and leaves what is behind it. A reading that is begun inside the body, and is
not let go of, is answered with data, or it fails with an error of the transport,
with a fault of the body or as it is cancelled. And no operation ever fails because
a head and a body were taken for each other. -/
theorem phase_run (settings : Settings) (w : Wire) (deeds : List Deed) :
    let c := (start settings w).run deeds
    (c.exchange.stage = .readingBody →
      c.exchange.connected = true ∧
      (∃ r d, c.exchange.receiver = some r ∧ r.OpenAt d ∧
        ∀ size v, r.pollBody size v = r.answered ((r.reader d).poll size v)) ∧
      (∀ r, c.pending ≠ some (.execute (.awaitingHead r))) ∧
      (∀ x, c.pending = some (.execute x) → c.step .ask = { c with
        pending := none
        replies := c.replies ++
          [.executed (.error ⟨.stage .execute .readingBody, c.exchange.response⟩)] }) ∧
      ∀ more, Stage.rank .readingBody ≤ (c.run more).exchange.stage.rank) ∧
    (∀ r, c.pending = some (.execute (.awaitingHead r)) →
      c.exchange.stage = .awaitingHead ∧ c.exchange.receiver = none ∧
        ∃ toHead, r.BeforeHead toHead ∧ ∀ v response framing r' v',
          r.pollHead v = (.ready (.ok (response, framing)), r', v') →
            r.LeavesBody toHead v response framing r' v') ∧
    (c.exchange.stage = .readingBody → c.pending = none → ∀ size more, .letGo ∉ more →
      (c.run (.begin (.read size) :: more)).ReadsOn size c.replies) ∧
    ∀ reply ∈ c.replies, reply.isOutOfPhase = false := by
  intro c
  have hsound : c.Sound True := (sound_start settings w).run deeds fun _ => trivial
  refine ⟨fun hs => ?_, fun r hr => ?_, fun hs hnone size more hmore => ?_, ?_⟩
  · obtain ⟨hconnected, r, d, hr, hopen⟩ := hsound.exchange.of_reading hs
    refine ⟨hconnected, ⟨r, d, hr, hopen, Receiver.pollBody_eq hopen⟩,
      hsound.not_awaitingHead hs, fun x hx => ?_, fun more => ?_⟩
    · rw [step_ask hx, Op.poll, hsound.refused hs hx]
      rfl
    · rw [← hs]
      exact hsound.rank_le_run more
  · obtain ⟨hs, hnone, toHead, hbefore⟩ := hsound.beforeHead hr
    exact ⟨hs, hnone, toHead, hbefore, fun _ _ _ _ _ hpoll => hbefore.leavesBody hpoll⟩
  · exact hsound.readsOn_begin hs hnone hmore
  · have hnone : ∀ reply ∈ (start settings w).replies, reply.isOutOfPhase = false := by
      simp [start]
    exact (sound_start settings w).inPhase_run deeds hnone

/-- A chunked body that goes on with what looks like a head. -/
def nestedHead : Wire :=
  { arriving := [
      .bytes (Bytes.ofText "HTTP/1.1 200 OK\r\nTransfer-Encoding: chunked\r\n\r\n2\r\nhi\r\n"),
      .act .pause, .bytes (Bytes.ofText "HTTP/1.1 204 No Content\r\n\r\n")] }

/-- What looks like a head is read as a chunk, and is none. -/
theorem phase_run_nestedHead :
    let c := (start {} nestedHead).run [.begin (.execute plainRequest), .ask, .begin (.read 2), .ask]
    let c' := c.run [.begin (.read 2), .ask, .ask]
    c.exchange.stage = .readingBody ∧ c.pending = none ∧ c'.exchange.stage = .failed ∧
      ∃ result later, c'.replies = c.replies ++ .delivered result :: later ∧
        ∀ f, result = .error f → f.IsOfReading := by
  intro c c'
  have hs : c.exchange.stage = .readingBody := by decide +kernel
  have hnone : c.pending = none := by decide +kernel
  have hfailed : c'.exchange.stage = .failed := by decide +kernel
  have hkept : Deed.letGo ∉ [Deed.ask, .ask] := by simp
  obtain ⟨-, -, hreads, -⟩ := phase_run {} nestedHead
    [.begin (.execute plainRequest), .ask, .begin (.read 2), .ask]
  have hread : c'.ReadsOn 2 c.replies := hreads hs hnone 2 [.ask, .ask] hkept
  rcases hread with ⟨hreading, -⟩ | hanswered
  · have hstage : Stage.failed = .readingBody := hfailed.symm.trans hreading.stage
    cases hstage
  · exact ⟨hs, hnone, hfailed, hanswered⟩

end Course

end Http1Client
