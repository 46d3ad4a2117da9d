/-
# An execution before the response

Connecting, sending the head and sending the body do not read: what arrives is
left alone until the execution waits for the head of the response. `Opening`
lists what one question to an execution that is not so far can come to, and
every question comes to one of these (`Execution.opening_poll`).

Key definitions: `Failure.readError?`, `Execution.request?`, `Execution.Opening`.
Key theorems: `Execution.opening_poll`, `Execution.stage_poll`.
-/
import Http1Client.Exchange

namespace Http1Client

/-! ### Questions that do not read -/

namespace Wire

theorem arriving_connect {w w' : Wire} {p : Poll (Except IoError Unit)}
    (h : w.connect = (p, w')) : w'.arriving = w.arriving := by
  dsimp only [connect] at h
  split at h <;> cases h <;> rfl

theorem arriving_write {w w' : Wire} {b : Bytes} {p : Poll (Except IoError Nat)}
    (h : w.write b = (p, w')) : w'.arriving = w.arriving := by
  dsimp only [write] at h
  split at h <;> cases h <;> rfl

theorem arriving_flush {w w' : Wire} {p : Poll (Except IoError Unit)} (h : w.flush = (p, w')) :
    w'.arriving = w.arriving := by
  cases h
  rfl

theorem arriving_close {w w' : Wire} {p : Poll (Except IoError Unit)} (h : w.close = (p, w')) :
    w'.arriving = w.arriving := by
  cases h
  rfl

end Wire

theorem arriving_writeAll {b : Bytes} {w : Wire} :
    (writeAll b w).2.2.arriving = w.arriving := by
  fun_induction writeAll b w with
  | case1 w => rfl
  | case2 b w hb w' hw => exact Wire.arriving_write hw
  | case3 b w hb n w' hw hn ih => rw [ih, Wire.arriving_write hw]
  | case4 b w hb e w' hw => exact Wire.arriving_write hw
  | case5 b w hb again w' hw => exact Wire.arriving_write hw

namespace Sender

theorem arriving_pollSync (s : Sender) (w : Wire) : (s.pollSync w).wire.arriving = w.arriving := by
  unfold pollSync
  split <;> next h => exact Wire.arriving_flush h

theorem arriving_pollWrite (s : Sender) (left : Bytes) (w : Wire) :
    (s.pollWrite left w).wire.arriving = w.arriving := by
  have hall := arriving_writeAll (b := left) (w := w)
  unfold pollWrite
  split
  · next h =>
    rw [h] at hall
    rw [arriving_pollSync, hall]
  · next h =>
    rw [h] at hall
    exact hall
  · next h =>
    rw [h] at hall
    exact hall

/-- A flush leaves what arrives alone. -/
theorem arriving_pollFlush (s : Sender) (f : Flush) (w : Wire) :
    (s.pollFlush f w).wire.arriving = w.arriving := by
  unfold pollFlush
  split
  · split
    · rfl
    · exact arriving_pollWrite ..
  · exact arriving_pollWrite ..
  · exact arriving_pollSync ..

end Sender

/-! ### Executions -/

/-- The error of the transport that stopped the reading of the response. -/
def Failure.readError? : Failure → Option IoError
  | read (.io e) => some e
  | _ => none

namespace Execution

/-- The request of an execution that does not wait for the head yet. -/
def request? : Execution → Option Request
  | start q => some q
  | connecting q => some q
  | sendingHead q _ _ => some q
  | sendingBody q _ _ => some q
  | awaitingHead _ => none

/-- What a question to an execution that does not wait for the head yet can
come to, where this arrives: it does not hold a connection, and what arrives is
left alone until it waits for the head. -/
inductive Opening (q : Request) (as : List Arrival) : Answer → Prop where
  | failed {f : FailedExecution} {e : Exchange} {w : Wire} : f.failure.readError? = none →
      e.stage = .failed → e.link = none → w.arriving = as → Opening q as (.done (.error f), e, w)
  | waits {again : Bool} {x : Execution} {e : Exchange} {w : Wire} : x.request? = some q →
      e.stage.rank < Stage.rank .awaitingHead → e.link = none → w.arriving = as →
      Opening q as (.wait again x, e, w)
  | heads {e : Exchange} {w : Wire} : e.stage = .awaitingHead → e.link = none → w.arriving = as →
      Opening q as (pollAwaitingHead (.ofRequest q.head.method.isHead e.settings.readBuffer
        e.settings.chunkLimit) e w)

section Opening

variable {q : Request} {as : List Arrival} {e : Exchange} {w : Wire}

theorem opening_failed {f : Failure} (hf : f.readError? = none) (e : Exchange)
    (hw : w.arriving = as) : Opening q as (failed f e w) :=
  .failed hf rfl rfl ((e.fail_frame Wire.arriving rfl).trans hw)

theorem opening_pollSendingBody (s : Sender) (f : Flush)
    (hs : e.stage.rank < Stage.rank .awaitingHead) (hl : e.link = none) (hw : w.arriving = as) :
    Opening q as (pollSendingBody q s f e w) := by
  have hflush := s.arriving_pollFlush f w
  unfold pollSendingBody
  split
  · exact opening_failed rfl _ hw
  · split
    · next h =>
      rw [h, hw] at hflush
      exact .heads rfl hl hflush
    · next h =>
      rw [h, hw] at hflush
      exact opening_failed rfl _ hflush
    · next h =>
      rw [h, hw] at hflush
      exact .waits rfl hs hl hflush

theorem opening_startBody (s : Sender) (hs : e.stage.rank < Stage.rank .awaitingHead)
    (hl : e.link = none) (hw : w.arriving = as) : Opening q as (startBody q s e w) := by
  unfold startBody
  split
  · exact opening_failed rfl _ hw
  · exact opening_pollSendingBody _ _ hs hl hw

theorem opening_pollSendingHead (s : Sender) (f : Flush)
    (hs : e.stage.rank < Stage.rank .awaitingHead) (hl : e.link = none) (hw : w.arriving = as) :
    Opening q as (pollSendingHead q s f e w) := by
  have hflush := s.arriving_pollFlush f w
  unfold pollSendingHead
  split
  · exact opening_failed rfl _ hw
  · split
    · next h =>
      rw [h, hw] at hflush
      exact opening_startBody _ (by simp [Exchange.advance, Stage.rank]) hl hflush
    · next h =>
      rw [h, hw] at hflush
      exact opening_failed rfl _ hflush
    · next h =>
      rw [h, hw] at hflush
      exact .waits rfl hs hl hflush

theorem opening_startHead (hs : e.stage.rank < Stage.rank .awaitingHead) (hl : e.link = none)
    (hw : w.arriving = as) : Opening q as (startHead q e w) := by
  unfold startHead
  split
  · exact opening_failed rfl _ hw
  · exact opening_pollSendingHead _ _ hs hl hw

theorem opening_pollConnecting (hs : e.stage.rank < Stage.rank .awaitingHead) (hl : e.link = none)
    (hw : w.arriving = as) : Opening q as (pollConnecting q e w) := by
  unfold pollConnecting
  split
  · exact opening_failed rfl _ hw
  · split
    · next h =>
      have hw' := (Wire.arriving_connect h).trans hw
      exact opening_startHead (by simp [Exchange.advance, Stage.rank]) hl hw'
    · next h => exact opening_failed rfl _ ((Wire.arriving_connect h).trans hw)
    · next h => exact .waits rfl hs hl ((Wire.arriving_connect h).trans hw)

theorem opening_pollStart (hs : e.stage = .idle) (hl : e.link = none) (hw : w.arriving = as) :
    Opening q as (pollStart q e w) := by
  unfold pollStart
  rw [if_neg (by simp [hs])]
  split
  · exact opening_failed rfl _ hw
  · split
    · exact opening_failed rfl _ hw
    · exact opening_pollConnecting (by simp [Exchange.advance, Stage.rank]) hl hw

/-- An exchange executes one request. -/
theorem poll_of_busy (hs : e.stage ≠ .idle) (w : Wire) : poll (start q) e w =
    (.done (.error ⟨.stage .execute e.stage, e.response⟩), e, w) := by
  show pollStart q e w = _
  rw [pollStart, if_pos hs]

/-- Before it waits for the head, an execution does not read. -/
theorem opening_poll {x : Execution} (hx : x.request? = some q)
    (hs : e.stage.rank < Stage.rank .awaitingHead) (hl : e.link = none) (hw : w.arriving = as) :
    Opening q as (x.poll e w) ∨
      ∃ f, f.failure.readError? = none ∧ x.poll e w = (.done (.error f), e, w) := by
  cases x with
  | start q' =>
    cases hx
    by_cases hidle : e.stage = .idle
    · exact .inl (opening_pollStart hidle hl hw)
    · exact .inr ⟨_, rfl, poll_of_busy hidle w⟩
  | connecting q' =>
    cases hx
    exact .inl (opening_pollConnecting hs hl hw)
  | sendingHead q' s f =>
    cases hx
    exact .inl (opening_pollSendingHead s f hs hl hw)
  | sendingBody q' s f =>
    cases hx
    exact .inl (opening_pollSendingBody s f hs hl hw)
  | awaitingHead r => simp [request?] at hx

end Opening

/-! ### Executions that succeed -/

section Success

variable {q : Request} {e e' : Exchange} {w w' : Wire} {response : Response}

theorem stage_pollAwaitingHead {r : Receiver}
    (h : pollAwaitingHead r e w = (.done (.ok response), e', w')) : e'.stage = .readingBody := by
  unfold pollAwaitingHead at h
  split at h
  · simp [failed] at h
  · split at h
    · cases h
      rfl
    · simp [failed] at h
    · simp at h

theorem stage_pollSendingBody {s : Sender} {f : Flush}
    (h : pollSendingBody q s f e w = (.done (.ok response), e', w')) : e'.stage = .readingBody := by
  unfold pollSendingBody at h
  split at h
  · simp [failed] at h
  · split at h
    · exact stage_pollAwaitingHead h
    · simp [failed] at h
    · simp at h

theorem stage_pollSendingHead {s : Sender} {f : Flush}
    (h : pollSendingHead q s f e w = (.done (.ok response), e', w')) : e'.stage = .readingBody := by
  unfold pollSendingHead at h
  split at h
  · simp [failed] at h
  · split at h
    · unfold startBody at h
      split at h
      · simp [failed] at h
      · exact stage_pollSendingBody h
    · simp [failed] at h
    · simp at h

theorem stage_pollConnecting (h : pollConnecting q e w = (.done (.ok response), e', w')) :
    e'.stage = .readingBody := by
  unfold pollConnecting at h
  split at h
  · simp [failed] at h
  · split at h
    · unfold startHead at h
      split at h
      · simp [failed] at h
      · exact stage_pollSendingHead h
    · simp [failed] at h
    · simp at h

/-- An execution that succeeds leaves the exchange inside the body. -/
theorem stage_poll {x : Execution} (h : x.poll e w = (.done (.ok response), e', w')) :
    e'.stage = .readingBody := by
  cases x with
  | start q =>
    replace h : pollStart q e w = _ := h
    unfold pollStart at h
    split at h
    · simp at h
    · split at h
      · simp [failed] at h
      · split at h
        · simp [failed] at h
        · exact stage_pollConnecting h
  | connecting q => exact stage_pollConnecting h
  | sendingHead q s f => exact stage_pollSendingHead h
  | sendingBody q s f => exact stage_pollSendingBody h
  | awaitingHead r => exact stage_pollAwaitingHead h

end Success

end Execution
end Http1Client
