/-
# What a failed execution leaves

Up to the head an execution has read interim heads and what is in its buffer, and
its exchange has the empty response (`Execution.Hears`). So an execution that
fails at a head fails at bytes of the stream, behind interim heads, and its
failure and its exchange carry what is kept of those bytes (`FailsAt`,
`Course.failsAt_run`).

What that is does not depend on how the bytes arrive. Behind a status line it is
the response as far as it was read, unless the head was given up before it ended
(`salvaged_behind_statusLine`, `unsalvaged_unended`). At a broken status line it is
the version and the status, where these stand in front of the fault, and else
nothing (`forgotten_at_statusLine`, `remembered_broken`).

Key definitions: `FailsAt`, `Execution.Hears`, `Course.Hearing`.
Key theorems: `Execution.told_poll`, `Course.Hearing.step`, `Course.failsAt_run`,
`salvaged_behind_statusLine`, `forgotten_at_statusLine`.
-/
import Http1Client.Proofs.Head.Salvaging
import Http1Client.Proofs.Holdings
import Http1Client.Proofs.Truncation

namespace Http1Client

open Arrival Head

/-- Does the failure tell of the head of the response? -/
def Failure.isOfHead : Failure → Bool
  | field _ => true
  | length _ => true
  | statusLine _ => true
  | _ => false

/-- The execution failed at a head: of the bytes `sent` it has read all but
`left`, these break at a head, and it carries what is kept of that. -/
def FailsAt (sent left : Bytes) (f : FailedExecution) : Prop :=
  ∃ toHead seen cur e kept, BreaksAt toHead none (seen ++ cur) seen cur e kept ∧
    sent = seen ++ cur ++ left ∧ f.failure = .ofDecode e ∧ f.response = kept.getD {}

/-! ### Executions -/

namespace Execution

/-- Where an execution stands on the bytes that were sent: nothing is read before
it waits for the head, and then interim heads and what is in the buffer. -/
def Hears (sent : Bytes) (w : Wire) : Execution → Prop
  | awaitingHead r => (∃ toHead, r.BeforeHead toHead) ∧ r.incoming.salvaged = none ∧
      ∃ seen, Interims seen ∧ sent = seen ++ (r.buffer ++ w.unread)
  | _ => w.unread = sent

/-- What an answer tells: an execution that is left stands on the bytes, and one
that failed at a head failed so. -/
structure Told (sent : Bytes) (a : Answer) : Prop where
  stage : a.2.1.stage ≠ .idle
  waits : ∀ again x, a.1 = .wait again x → a.2.1.response = {} ∧ x.Hears sent a.2.2
  fails : ∀ f, a.1 = .done (.error f) → f.failure.isOfHead = true →
    FailsAt sent a.2.2.unread f ∧ a.2.1.response = f.response

variable {sent : Bytes} {x x' : Execution} {e e' : Exchange} {w w' : Wire}

theorem Strides.hears (h : Strides e w x x' e' w') (hx : x.Hears sent w) : x'.Hears sent w' := by
  cases h with
  | starts => exact hx
  | connects _ hconnect => exact (Wire.unread_congr (Wire.arriving_connect hconnect)).trans hx
  | @sendsHead _ s _ _ f _ _ _ hflush =>
    have ha := s.arriving_pollFlush f w
    rw [hflush] at ha
    exact (Wire.unread_congr ha).trans hx
  | @sendsBody _ s _ f _ _ _ hflush =>
    have ha := s.arriving_pollFlush f w
    rw [hflush] at ha
    refine ⟨⟨_, Receiver.beforeHead_ofRequest ..⟩, rfl, [], .none, ?_⟩
    exact ((Wire.unread_congr ha).trans hx).symm

theorem Strides.response (h : Strides e w x x' e' w') : e'.response = e.response := by
  cases h <;> rfl

/-- Where an answer comes from: what every stride keeps holds where the execution
stops. -/
theorem exists_stop {P : Execution → Exchange → Wire → Prop}
    (strides : ∀ {x e w x' e' w'}, P x e w → Strides e w x x' e' w' → P x' e' w')
    {x : Execution} {e : Exchange} {w : Wire} (h : P x e w) : ∃ x' e' w', P x' e' w' ∧
      Stops e' w' x' (x.poll e w) ∧ x.poll e w = x'.poll e' w' := by
  rcases proceeds x e w with hstop | ⟨x', e', w', hstride, hpoll⟩
  · exact ⟨x, e, w, h, hstop, rfl⟩
  · rw [hpoll]
    exact exists_stop strides (strides h hstride)
termination_by Stage.rank .awaitingHead - x.stage.rank
decreasing_by
  have := hstride.rank_lt
  have := x'.rank_stage_le
  omega

/-- A failure that is none of a head tells nothing. -/
theorem told_failed {f : Failure} (hf : f.isOfHead = false) (e : Exchange) (w : Wire) :
    Told sent (failed f e w) := by
  refine ⟨?_, ?_, ?_⟩
  · show Stage.failed ≠ .idle
    decide
  · intro _ _ hwait
    cases hwait
  · intro _ hdone hhead
    cases hdone
    rw [hf] at hhead
    cases hhead

/-- A failure at a head that breaks where the bytes say. -/
theorem told_broken {toHead : Bool} {seen cur : Bytes} {error : DecodeError}
    {kept : Option Response} (hr : e.response = {})
    (hbreaks : BreaksAt toHead none (seen ++ cur) seen cur error kept)
    (hsent : sent = seen ++ cur ++ w.unread) :
    Told sent (failed (.ofDecode error) { e with response := kept.getD e.response } w.drop) := by
  refine ⟨?_, ?_, ?_⟩
  · show Stage.failed ≠ .idle
    decide
  · intro _ _ hwait
    cases hwait
  · intro f hdone _
    cases hdone
    have hleft : (failed (.ofDecode error) { e with response := kept.getD e.response }
        w.drop).2.2.unread = w.unread := Wire.unread_congr (Exchange.fail_frame Wire.arriving rfl _)
    refine ⟨⟨toHead, seen, cur, error, kept, hbreaks, ?_, rfl, ?_⟩, rfl⟩
    · rw [hleft, hsent]
    · rw [hr]

theorem told_wait {again : Bool} (hs : e.stage ≠ .idle) (hr : e.response = {})
    (hx : x.Hears sent w) : Told sent (.wait again x, e, w) := by
  refine ⟨hs, ?_, ?_⟩
  · intro _ _ hwait
    cases hwait
    exact ⟨hr, hx⟩
  · intro _ hdone
    cases hdone

theorem isIo_of_isOfHead {error : DecodeError} (h : (Failure.ofDecode error).isOfHead = true) :
    error.isIo = false := by
  cases error <;> first | rfl | cases h

/-- An execution that waits for the head goes on waiting, has found it, or fails
at the bytes that it has. -/
theorem told_awaitingHead {r : Receiver} (hs : e.stage ≠ .idle) (he : e.response = {})
    (hx : (awaitingHead r).Hears sent w) : Told sent (pollAwaitingHead r e w) := by
  obtain ⟨⟨toHead, hbefore⟩, hnone, seen, hseen, hsent⟩ := hx
  unfold pollAwaitingHead
  split
  · exact told_failed rfl _ _
  · split
    · refine ⟨nofun, ?_, ?_⟩
      · intro _ _ hwait
        cases hwait
      · intro _ hdone
        cases hdone
    · next error r' w' hpoll =>
      cases hhead : (Failure.ofDecode error).isOfHead with
      | false => exact told_failed hhead _ _
      | true =>
        obtain ⟨y, hg, hfail⟩ :=
          Receiver.fault_of_pollHead hbefore hpoll (isIo_of_isOfHead hhead)
        obtain ⟨seen', cur, hseen', hcur, htake⟩ := Incoming.fail_of_nextHead hfail
        rw [hnone] at htake
        refine told_broken he ⟨hseen.append hseen', rfl, htake⟩ ?_
        rw [hsent, hg.unread, ← List.append_assoc r.buffer, hcur]
        simp only [List.append_assoc]
    · next again r' w' hpoll =>
      refine told_wait hs he ?_
      cases Receiver.pollHead_turn hbefore hpoll with
      | @waits _ y rest _ hg hn =>
        obtain ⟨seen', hseen', hb⟩ := Incoming.interims_of_need hn
        refine ⟨⟨toHead, hbefore.withBuffer _⟩, hnone, seen ++ seen', hseen.append hseen', ?_⟩
        rw [hsent, hg.unread, ← List.append_assoc r.buffer, hb]
        simp only [List.append_assoc]

/-- An execution fails at a head as the bytes say. -/
theorem told_poll (hs : e.stage = x.stage) (he : e.response = {}) (hx : x.Hears sent w) :
    Told sent (x.poll e w) := by
  obtain ⟨x', e', w', ⟨hs', he', hx'⟩, hstop, hpoll⟩ := exists_stop
    (P := fun x e w => e.stage = x.stage ∧ e.response = {} ∧ x.Hears sent w)
    (fun h hstride => ⟨hstride.stage_next, hstride.response.trans h.2.1, hstride.hears h.2.2⟩)
    ⟨hs, he, hx⟩
  generalize x.poll e w = a at hstop hpoll ⊢
  have hwaits : ∀ r, x' = .awaitingHead r → Told sent a := by
    rintro r rfl
    rw [hpoll]
    exact told_awaitingHead (by rw [hs']; nofun) he' hx'
  cases hstop with
  | busy hbusy => exact absurd hs' hbusy
  | connecting _ hconnect =>
    refine told_wait (by rw [hs']; nofun) he' ?_
    exact (Wire.unread_congr (Wire.arriving_connect hconnect)).trans hx'
  | @sendingHead _ s _ f _ _ _ _ hflush =>
    have ha := s.arriving_pollFlush f w'
    rw [hflush] at ha
    exact told_wait (by rw [hs']; nofun) he' ((Wire.unread_congr ha).trans hx')
  | @sendingBody _ s _ f _ _ _ _ hflush =>
    have ha := s.arriving_pollFlush f w'
    rw [hflush] at ha
    exact told_wait (by rw [hs']; nofun) he' ((Wire.unread_congr ha).trans hx')
  | headUnread => exact hwaits _ rfl
  | awaitingHead => exact hwaits _ rfl
  | head => exact hwaits _ rfl
  | _ => exact told_failed rfl _ _

end Execution

/-! ### Courses -/

namespace Course

variable {sent : Bytes} {c : Course}

/-- A course that has not executed a request has read nothing, and an execution
that is under way stands on the bytes that were sent. -/
structure Hearing (sent : Bytes) (c : Course) : Prop where
  idle : c.exchange.stage = .idle → c.exchange.response = {} ∧ c.wire.unread = sent
  executing : ∀ x, c.pending = some (.execute x) → x.stage ≠ .idle →
    c.exchange.response = {} ∧ x.Hears sent c.wire

theorem hearing_start (settings : Settings) (w : Wire) :
    (start settings w).Hearing w.unread :=
  ⟨fun _ => ⟨rfl, rfl⟩, by simp [start]⟩

/-- Where nothing is read and no execution is under way that was not, a course
stands where it stood. -/
theorem Hearing.frame {c' : Course} (h : c.Hearing sent)
    (hidle : c'.exchange.stage = .idle → c.exchange.stage = .idle)
    (hpending : ∀ x, c'.pending = some (.execute x) → x.stage ≠ .idle →
      c.pending = some (.execute x) ∧ c'.wire = c.wire)
    (hr : c'.exchange.response = c.exchange.response)
    (ha : c'.exchange.stage = .idle → c'.wire.arriving = c.wire.arriving) :
    c'.Hearing sent := by
  refine ⟨fun hs => ?_, fun x hx hstage => ?_⟩
  · obtain ⟨hresponse, hunread⟩ := h.idle (hidle hs)
    exact ⟨hr.trans hresponse, (Wire.unread_congr (ha hs)).trans hunread⟩
  · obtain ⟨hx, hw⟩ := hpending x hx hstage
    obtain ⟨hresponse, hears⟩ := h.executing x hx hstage
    exact ⟨hr.trans hresponse, hw ▸ hears⟩

theorem hearing_busy (hs : c.exchange.stage ≠ .idle)
    (hp : ∀ x, c.pending ≠ some (.execute x)) : c.Hearing sent :=
  ⟨fun h => absurd h hs, fun x hx => absurd hx (hp x)⟩

/-- An execution that is under way brought the exchange where it is, or is refused. -/
theorem Hearing.told {x : Execution} (h : c.Hearing sent) (hsound : c.Sound True)
    (hop : c.pending = some (.execute x)) :
    Execution.Told sent (x.poll c.exchange c.wire) ∨
      ∃ q, x = .start q ∧ c.exchange.stage ≠ .idle := by
  have hat : x.At c.exchange := hsound.pending _ hop
  by_cases hx : x.stage = .idle
  · obtain ⟨q, rfl⟩ : ∃ q, x = .start q := by
      cases x with
      | start q => exact ⟨q, rfl⟩
      | _ => cases hx
    by_cases hs : c.exchange.stage = .idle
    · obtain ⟨hresponse, hunread⟩ := h.idle hs
      exact .inl (Execution.told_poll hs hresponse hunread)
    · exact .inr ⟨q, rfl, hs⟩
  · obtain ⟨hresponse, hears⟩ := h.executing x hop hx
    exact .inl (Execution.told_poll (hat.stage hx) hresponse hears)

theorem hearing_settleAs {a : Execution.Answer} (ha : Execution.Told sent a) :
    (c.settleAs .executed .execute a).Hearing sent := by
  obtain ⟨t, e, w⟩ := a
  cases t with
  | done result => exact hearing_busy ha.stage fun _ hx => by cases hx
  | wait again left =>
    refine ⟨fun hs => absurd hs ha.stage, fun x hx _ => ?_⟩
    cases hx
    exact ha.waits again left rfl

/-- Closing keeps a course that is idle idle, and reads nothing. -/
theorem Hearing.settle_closing {t : Turn (Except Failure Unit) Unit} {e : Exchange} {w : Wire}
    (h : c.Hearing sent) (hidle : e.stage = .idle → c.exchange.stage = .idle)
    (hr : e.response = c.exchange.response) (ha : w.arriving = c.wire.arriving) :
    (c.settleAs .closed (fun _ => .closing) (t, e, w)).Hearing sent := by
  cases t with
  | done result => exact h.frame hidle (fun _ hx => by cases hx) hr fun _ => ha
  | wait again left =>
    refine h.frame hidle (fun x hx => ?_) hr fun _ => ha
    cases hx

theorem stage_interrupt {e : Exchange} (h : e.interrupt.unlink.stage = .idle) :
    e.stage = .idle := by
  unfold Exchange.interrupt at h
  split at h
  · cases h
  · exact h

theorem response_interrupt (e : Exchange) : e.interrupt.unlink.response = e.response := by
  unfold Exchange.interrupt
  split <;> rfl

/-- A question for data inside the body leaves the exchange behind the head. -/
theorem hearing_read {size : Nat} (hs : c.exchange.stage = .readingBody) :
    (c.settleAs .delivered (fun _ => .read size)
      (c.exchange.pollRead size c.wire)).Hearing sent := by
  have hstage : (c.exchange.pollRead size c.wire).2.1.stage ≠ .idle := by
    unfold Exchange.pollRead
    split
    · rw [hs]
      nofun
    · split
      · nofun
      · split
        · next given r' w' hpoll =>
          show (if given.last = true then Stage.complete else Stage.readingBody) ≠ .idle
          split <;> nofun
        · nofun
        · show c.exchange.stage ≠ .idle
          rw [hs]
          nofun
    · rw [hs]
      nofun
    · rw [hs]
      nofun
  generalize c.exchange.pollRead size c.wire = a at hstage ⊢
  obtain ⟨t, e, w⟩ := a
  cases t <;> exact hearing_busy hstage fun _ hx => by cases hx

theorem Hearing.ask {op : Op} (h : c.Hearing sent) (hsound : c.Sound True)
    (hop : c.pending = some op) : (c.settle (op.poll c.exchange c.wire)).Hearing sent := by
  cases op with
  | execute x =>
    show (c.settleAs .executed .execute (x.poll c.exchange c.wire)).Hearing sent
    rcases h.told hsound hop with htold | ⟨q, rfl, hs⟩
    · exact hearing_settleAs htold
    · rw [Execution.poll_of_busy hs]
      exact hearing_busy hs fun _ hx => by cases hx
  | read size =>
    show (c.settleAs .delivered (fun _ => .read size)
      (c.exchange.pollRead size c.wire)).Hearing sent
    by_cases hs : c.exchange.stage = .readingBody
    · exact hearing_read hs
    · obtain ⟨r, hr, -⟩ := pollRead_of_ne c.exchange c.wire size hs
      rw [hr]
      exact h.frame id (fun _ hx => by cases hx) rfl fun _ => rfl
  | close =>
    show (c.settleAs .closed (fun _ => .closing) (c.exchange.pollClose c.wire)).Hearing sent
    unfold Exchange.pollClose
    split
    · obtain ⟨t, w, ht, ha⟩ := pollClosing_eq c.exchange.interrupt.unlink c.wire
      rw [ht]
      exact h.settle_closing stage_interrupt (response_interrupt _) ha
    · exact h.settle_closing stage_interrupt (response_interrupt _) rfl
  | closing =>
    show (c.settleAs .closed (fun _ => .closing) (c.exchange.pollClosing c.wire)).Hearing sent
    obtain ⟨t, w, ht, ha⟩ := pollClosing_eq c.exchange c.wire
    rw [ht]
    exact h.settle_closing id rfl ha

/-- Every deed keeps a course on the bytes that were sent. -/
theorem Hearing.step (h : c.Hearing sent) (hsound : c.Sound True) (deed : Deed) :
    (c.step deed).Hearing sent := by
  cases deed with
  | begin call =>
    rw [Course.step]
    split
    · exact h
    · refine h.frame id (fun x hx hstage => ?_) rfl fun _ => rfl
      cases call with
      | execute q =>
        cases hx
        exact absurd rfl hstage
      | _ => cases hx
  | ask =>
    rw [Course.step]
    split
    · exact h
    · next op hop => exact h.ask hsound hop
  | letGo =>
    rw [Course.step]
    split
    · exact h
    · next op _ =>
      refine h.frame id (fun _ hx => by cases hx) rfl fun _ => ?_
      exact op.abandon_frame Wire.arriving rfl
  | cancel => exact h.frame id (fun x hx _ => ⟨hx, rfl⟩) rfl fun _ => rfl
  | abort =>
    rw [Course.step]
    split
    · exact h
    · next hnone =>
      have hpending : ∀ x, c.pending ≠ some (.execute x) :=
        fun x hx => hnone (Option.isSome_of_mem hx)
      show Hearing sent { c with
        exchange := (c.exchange.abort c.wire).1, wire := (c.exchange.abort c.wire).2 }
      by_cases hbusy : c.exchange.stage ≠ .idle ∧ c.exchange.stage.isTerminal = false
      · rw [Exchange.abort, if_pos hbusy]
        exact hearing_busy (by show Stage.failed ≠ .idle; decide) hpending
      · rw [Exchange.abort, if_neg hbusy]
        exact h.frame id (fun x hx _ => ⟨hx, rfl⟩) rfl fun _ => rfl

theorem Hearing.run : ∀ (deeds : List Deed) {c : Course}, c.Hearing sent → c.Sound True →
    (c.run deeds).Hearing sent
  | [], _, h, _ => h
  | deed :: deeds, _, h, hsound => by
    rw [run_cons]
    exact Hearing.run deeds (h.step hsound deed) (hsound.step deed fun _ => trivial)

/-- An execution that fails at a head fails at bytes that were sent, and its
exchange has the response that it carries. -/
theorem failsAt_run (settings : Settings) (w : Wire) (deeds : List Deed) {f : FailedExecution}
    (hf : f.failure.isOfHead = true)
    (h : (((start settings w).run deeds).step .ask).replies =
      ((start settings w).run deeds).replies ++ [.executed (.error f)]) :
    FailsAt w.unread (((start settings w).run deeds).step .ask).wire.unread f ∧
      (((start settings w).run deeds).step .ask).exchange.response = f.response := by
  have hbegun : (start settings w).Sound True := sound_start settings w
  have hsound := hbegun.run deeds fun _ => trivial
  have hhears := (hearing_start settings w).run deeds hbegun
  generalize (start settings w).run deeds = c at *
  obtain ⟨op, e, w', hop, hpoll⟩ := poll_of_reply h
  have hstep : c.step .ask = c.settle (.done (.executed (.error f)), e, w') := by
    simp only [step, hop, hpoll]
  rw [hstep]
  rcases Op.poll_done hpoll with ⟨x, result, rfl, hreply, hx⟩ | ⟨_, _, _, hreply, _⟩ | ⟨_, hreply⟩
  · cases hreply
    rcases hhears.told hsound hop with htold | ⟨q, rfl, hs⟩
    · rw [hx] at htold
      exact htold.fails f rfl hf
    · rw [Execution.poll_of_busy hs] at hx
      cases hx
      cases hf
  · cases hreply
  · cases hreply

end Course

/-! ### Behind a status line -/

/-- **What a head leaves that fails behind its status line.** Whatever a reader
was asked before, it breaks at a head; if a status line stands in front of that,
it keeps the version, the status and the trimmed reason, and all fields where it
fails for their lengths. The failure of an execution carries the same, over any
stream and however it arrives, and so does its exchange. Only a head that is given
up before it ends leaves what was kept before it. -/
theorem salvaged_behind_statusLine (s : Incoming) (b : Bytes) (settings : Settings) (w : Wire)
    (deeds : List Deed) :
    (∀ (s' : Incoming) (rest : Bytes) (e : DecodeError), s.body = none → e.isIo = false →
      (s.next b = (.fail e, s', rest) ∨ s.nextEnd b = (.fail e, s', rest)) →
      ∃ seen cur, BreaksAt s.toHead s.salvaged b seen cur e s'.takeSalvaged.1 ∧
        ∀ (p behind reason : Bytes) (version : Version) (status : StatusCode),
          cur = p ++ behind → IsStatusLine p version status.code reason →
          Salvages (.ofStatusLine version status reason) cur behind s.salvaged e
            s'.takeSalvaged.1) ∧
    ∀ f : FailedExecution, f.failure.isOfHead = true →
      (((Course.start settings w).run deeds).step .ask).replies =
        ((Course.start settings w).run deeds).replies ++ [.executed (.error f)] →
      (((Course.start settings w).run deeds).step .ask).exchange.response = f.response ∧
      ∃ toHead seen cur e kept, BreaksAt toHead none (seen ++ cur) seen cur e kept ∧
        w.unread = seen ++ cur ++ (((Course.start settings w).run deeds).step .ask).wire.unread ∧
        f.failure = .ofDecode e ∧ f.response = kept.getD {} ∧
        ∀ (p behind reason : Bytes) (version : Version) (status : StatusCode),
          cur = p ++ behind → IsStatusLine p version status.code reason →
          Salvages (.ofStatusLine version status reason) cur behind none e kept := by
  constructor
  · intro s' rest e hbody he h
    obtain ⟨seen, cur, hbreaks⟩ := Incoming.fail_of_next hbody he h
    obtain ⟨_, htake⟩ := hbreaks.fails
    exact ⟨seen, cur, hbreaks, fun _ _ _ _ _ hcur hp => takeHead_salvages htake hcur hp⟩
  · intro f hf h
    obtain ⟨⟨toHead, seen, cur, e, kept, hbreaks, hsent, hfailure, hresponse⟩, hexchange⟩ :=
      Course.failsAt_run settings w deeds hf h
    obtain ⟨_, htake⟩ := hbreaks.fails
    exact ⟨hexchange, toHead, seen, cur, e, kept, hbreaks, hsent, hfailure, hresponse,
      fun _ _ _ _ _ hcur hp => takeHead_salvages htake hcur hp⟩

/-- A status line for the status 200. -/
def okLine : Bytes := Bytes.ofText "HTTP/1.1 200 OK\r\n"

/-- The status 200. -/
def okStatus : StatusCode :=
  ⟨200, Nat.le_of_ble_eq_true rfl, Nat.le_of_ble_eq_true rfl⟩

theorem isStatusLine_okLine :
    IsStatusLine okLine .http11 okStatus.code (Bytes.ofText "OK") :=
  ⟨Bytes.ofText "HTTP/1.1 200", Bytes.ofText " OK\r\n", by decide,
    ⟨[], 2, by decide, 0, by decide, 0, by decide, fun _ hx => (by cases hx), .inr rfl,
      by decide, by decide⟩,
    Bytes.crlf, .inr rfl, .inr ⟨Bytes.ofText "OK", by decide, by decide +kernel, by decide⟩⟩

/-- A head whose length is none. -/
def lengthless : Bytes := okLine ++ Bytes.ofText "A: b\r\nContent-Length: x\r\n\r\n"

/-- The response that it is nevertheless. -/
def lengthlessResponse : Response where
  status := some okStatus
  reason := "OK"
  fields := .ofList [(FieldName.ofToken [65] (by decide) (by decide +kernel),
    ⟨[98], by decide +kernel⟩), (.contentLength, ⟨[120], by decide +kernel⟩)]

/-- A stream that brings it in two parts. -/
def lengthlessWire : Wire :=
  { arriving := [.bytes (lengthless.take 20), .act .pause, .bytes (lengthless.drop 20)] }

/-- The failure that an execution ended in. -/
def Reply.failed? : Reply → Option FailedExecution
  | executed (.error f) => some f
  | _ => none

theorem replies_of_failed? {replies : List Reply} {f : FailedExecution}
    (h : replies.map Reply.failed? = [some f]) : replies = [.executed (.error f)] := by
  obtain ⟨reply, rfl, hreply⟩ := List.map_eq_singleton_iff.mp h
  cases reply with
  | executed result =>
    cases result with
    | ok response => cases hreply
    | error given =>
      cases hreply
      rfl
  | delivered result => cases hreply
  | closed result => cases hreply

theorem salvaged_lengthless :
    (∃ s' e, ({} : Incoming).next lengthless = (.fail e, s', []) ∧
      s'.takeSalvaged.1 = some lengthlessResponse ∧
      ∃ seen cur, BreaksAt false none lengthless seen cur e (some lengthlessResponse) ∧
        ∀ (p behind reason : Bytes) (version : Version) (status : StatusCode),
          cur = p ++ behind → IsStatusLine p version status.code reason →
          Salvages (.ofStatusLine version status reason) cur behind none e
            (some lengthlessResponse)) ∧
    let c := (Course.start {} lengthlessWire).run [.begin (.execute plainRequest), .ask]
    c.replies = [] ∧
      (c.step .ask).replies =
        [.executed (.error ⟨.length (.notDigits "x"), lengthlessResponse⟩)] ∧
      (c.step .ask).exchange.response = lengthlessResponse := by
  constructor
  · have hnext : ({} : Incoming).next lengthless =
        (.fail (.badLength (.notDigits "x")), { salvaged := some lengthlessResponse }, []) := by
      decide +kernel
    have hrule := (salvaged_behind_statusLine {} lengthless {} lengthlessWire []).1
    exact ⟨_, _, hnext, rfl, hrule _ _ _ rfl rfl (.inl hnext)⟩
  · intro c
    have hnone : c.replies = [] := (List.map_eq_nil_iff (f := Reply.failed?)).mp (by decide +kernel)
    have hreply : (c.step .ask).replies =
        [.executed (.error ⟨.length (.notDigits "x"), lengthlessResponse⟩)] :=
      replies_of_failed? (by decide +kernel)
    have happend : (c.step .ask).replies = c.replies ++
        [.executed (.error ⟨.length (.notDigits "x"), lengthlessResponse⟩)] := by
      rw [hreply, hnone]
      rfl
    exact ⟨hnone, hreply,
      ((salvaged_behind_statusLine {} lengthless {} lengthlessWire _).2 _ rfl happend).1⟩

/-- A field without end. -/
def endlessField (n : Nat) : Bytes := Bytes.ofText "X:" ++ List.replicate n 97

theorem scanFields_endlessField (room n : Nat) : scanFields room (endlessField n) = .short := by
  have hcons : endlessField n = 88 :: 58 :: List.replicate n 97 := rfl
  have hvalue : scanValue (List.replicate n 97) = .short := by
    have hrun : (List.replicate n 97).dropWhile Bytes.isValueByte = [] :=
      List.dropWhile_eq_nil_iff.mpr fun x hx => by rw [List.eq_of_mem_replicate hx]; decide
    rw [scanValue, hrun]
    rfl
  have hname : scanName (88 :: 58 :: List.replicate n 97) =
      .found (FieldName.ofToken [88] (by decide) (by decide +kernel)) (List.replicate n 97) := rfl
  have hfield : scanField (88 :: 58 :: List.replicate n 97) = .short := by
    rw [scanField_eq, andThen_of_found hname]
    simp only [andThen, hvalue]
  rw [hcons, scanFields_cons, if_neg (by decide)]
  simp only [andThen, hfield]

/-- A head that is given up before it ends leaves nothing of the response that its
status line begins. -/
theorem unsalvaged_unended : ∃ s', ({} : Incoming).next (okLine ++ endlessField 8192) =
      (.fail (.headTooLarge 8211 8192), s', okLine ++ endlessField 8192) ∧
    IsStatusLine okLine .http11 okStatus.code (Bytes.ofText "OK") ∧
    s'.takeSalvaged.1 = none := by
  have hlen : (okLine ++ endlessField 8192).length = 8211 := by
    rw [List.length_append, endlessField, List.length_append, List.length_replicate]
    rfl
  have hopen : scanHead (okLine ++ endlessField 8192) = .open := by
    rw [scanHead_of_isStatusLine isStatusLine_okLine, scanSection, scanFields_endlessField]
  have htake : takeHead false none (okLine ++ endlessField 8192) =
      ⟨.fail (.headTooLarge 8211 8192), none, okLine ++ endlessField 8192⟩ := by
    have hlong : ¬ Bytes.isShorter leastSize (okLine ++ endlessField 8192) = true := by
      rw [Bytes.isShorter_iff, hlen]
      decide
    rw [takeHead, if_neg hlong, hopen]
    dsimp only
    rw [hlen, if_neg (by decide)]
    rfl
  have hnext := Incoming.nextHead_eq_fail (s := {}) htake
  exact ⟨_, hnext, isStatusLine_okLine, rfl⟩

/-! ### At a broken status line -/

/-- The taking of a head tells of no version but that it is malformed. -/
theorem badStatusLine_of_ofDecode {toHead : Bool} {before kept : Option Response}
    {cur rest : Bytes} {e : DecodeError} {words : String}
    (h : takeHead toHead before cur = ⟨.fail e, kept, rest⟩)
    (he : Failure.ofDecode e = .statusLine words) : e = .badStatusLine words := by
  cases e with
  | badStatusLine reason =>
    cases he
    rfl
  | badVersion minor =>
    unfold takeHead at h
    split at h
    · cases h
    · split at h
      · split at h <;> cases h
      · next fault _ _ => cases fault <;> cases h
      · split at h
        · cases h
        · split at h
          · unfold frameHead at h
            split at h <;> cases h
          · cases h
  | _ => cases he

/-- **What a broken status line leaves.** Whatever a reader was asked before, one
that fails at a status line breaks at a head, and keeps nothing if no version and
code stand in front of that; the version and the status if they do, with no
reason and no fields; and if the code is no status, nothing, or what was kept
before where the head is complete. An execution that fails so carries the same,
over any stream and however it arrives, and so does its exchange. -/
theorem forgotten_at_statusLine (s : Incoming) (b : Bytes) (settings : Settings) (w : Wire)
    (deeds : List Deed) :
    (∀ (s' : Incoming) (rest : Bytes) (words : String), s.body = none →
      (s.next b = (.fail (.badStatusLine words), s', rest) ∨
        s.nextEnd b = (.fail (.badStatusLine words), s', rest)) →
      ∃ seen cur, BreaksAt s.toHead s.salvaged b seen cur (.badStatusLine words)
          s'.takeSalvaged.1 ∧
        Forgets cur s.salvaged s'.takeSalvaged.1) ∧
    ∀ (f : FailedExecution) (words : String), f.failure = .statusLine words →
      (((Course.start settings w).run deeds).step .ask).replies =
        ((Course.start settings w).run deeds).replies ++ [.executed (.error f)] →
      (((Course.start settings w).run deeds).step .ask).exchange.response = f.response ∧
      ∃ toHead seen cur kept,
        BreaksAt toHead none (seen ++ cur) seen cur (.badStatusLine words) kept ∧
        w.unread = seen ++ cur ++ (((Course.start settings w).run deeds).step .ask).wire.unread ∧
        Forgets cur none kept ∧ f.response = kept.getD {} := by
  constructor
  · intro s' rest words hbody h
    obtain ⟨seen, cur, hbreaks⟩ := Incoming.fail_of_next hbody rfl h
    obtain ⟨_, htake⟩ := hbreaks.fails
    exact ⟨seen, cur, hbreaks, takeHead_forgets htake⟩
  · intro f words hf h
    obtain ⟨⟨toHead, seen, cur, e, kept, hbreaks, hsent, hfailure, hresponse⟩, hexchange⟩ :=
      Course.failsAt_run settings w deeds (by rw [hf]; rfl) h
    obtain ⟨_, htake⟩ := hbreaks.fails
    obtain rfl := badStatusLine_of_ofDecode htake (hfailure.symm.trans hf)
    exact ⟨hexchange, toHead, seen, cur, kept, hbreaks, hsent, takeHead_forgets htake, hresponse⟩

/-- A head without a version. -/
def versionless : Bytes := Bytes.ofText "HTTP/2.0 200 OK\r\n\r\n"

theorem forgotten_versionless :
    (∃ s' words, ({} : Incoming).next versionless =
        (.fail (.badStatusLine words), s', versionless) ∧ s'.takeSalvaged.1 = none ∧
      ∃ seen cur, BreaksAt false none versionless seen cur (.badStatusLine words) none ∧
        Forgets cur none none) ∧
    let c := (Course.start {} { arriving := [.bytes versionless] }).run
      [.begin (.execute plainRequest)]
    c.replies = [] ∧
      (c.step .ask).replies = [.executed (.error ⟨.statusLine "invalid HTTP version", {}⟩)] ∧
      (c.step .ask).exchange.response = {} := by
  constructor
  · have hnext : ({} : Incoming).next versionless =
        (.fail (.badStatusLine "invalid HTTP version"), {}, versionless) := by
      decide +kernel
    have hrule := (forgotten_at_statusLine {} versionless {} {} []).1
    exact ⟨_, _, hnext, rfl, hrule _ _ _ rfl (.inl hnext)⟩
  · intro c
    have hnone : c.replies = [] := (List.map_eq_nil_iff (f := Reply.failed?)).mp (by decide +kernel)
    have hreply : (c.step .ask).replies =
        [.executed (.error ⟨.statusLine "invalid HTTP version", {}⟩)] :=
      replies_of_failed? (by decide +kernel)
    have happend : (c.step .ask).replies = c.replies ++
        [.executed (.error ⟨.statusLine "invalid HTTP version", {}⟩)] := by
      rw [hreply, hnone]
      rfl
    exact ⟨hnone, hreply, ((forgotten_at_statusLine {} versionless {}
      { arriving := [.bytes versionless] } _).2 _ _ rfl happend).1⟩

/-- A head whose code nothing ends. -/
def brokenCode : Bytes := Bytes.ofText "HTTP/1.1 404x Gone\r\n\r\n"

/-- A broken status line leaves the status in front of the fault: to a reader, and
to the execution that fails. And a code that is no status leaves what a fault
before it had left. -/
theorem remembered_broken :
    ({} : Incoming).next brokenCode = (.fail (.badStatusLine "invalid response status"),
      { salvaged := some { status := StatusCode.ofNat? 404 } }, brokenCode) ∧
    ((Course.start {} { arriving := [.bytes brokenCode] }).run
      [.begin (.execute plainRequest), .ask]).replies.map Reply.failed? =
        [some ⟨.statusLine "invalid response status", { status := StatusCode.ofNat? 404 }⟩] ∧
    ({ salvaged := some lengthlessResponse } : Incoming).next
        (Bytes.ofText "HTTP/1.1 099 OK\r\n\r\n") =
      (.fail (.badStatusLine "99: invalid status code"), { salvaged := some lengthlessResponse },
        Bytes.ofText "HTTP/1.1 099 OK\r\n\r\n") := by
  decide +kernel

end Http1Client
