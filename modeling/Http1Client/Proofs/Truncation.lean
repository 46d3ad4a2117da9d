/-
# A stream that ends too early

A response whose body is framed, by a length or in chunks, may be cut short:
the stream ends, and the last bytes of the response never come. An exchange
takes none of that for the end of the body (`Course.cut_run`). It never says
that the body is complete; if the cut is inside a head it does not hand a head
over; and when it meets the end of the stream it says that it came too early.

An end that the wire is told to report is met when it is used up. Behind the
last bytes the end needs no telling: there, as long as only bytes arrive, every
question is answered, and the transport fails in no other way.

Key definitions: `Course.Receives`.
Key theorems: `Course.replies_run`, `Course.cut_run`.
-/
import Http1Client.Proofs.Course

namespace Http1Client

open Arrival

namespace Course

variable {toHead : Bool} {response : Response} {framing : Framing} {body missing : Bytes}
  {c : Course}

/-- A response that is cut short is never complete. -/
theorem Follows.ne_complete (h : Follows toHead response framing body [] missing c)
    (hmissing : missing ≠ []) (hframing : framing.isUntilClose = false) :
    c.exchange.stage ≠ .complete := by
  intro hs
  rcases h.of_complete hs with ⟨hclose, -⟩ | ⟨dropped, hrest, -⟩
  · rw [hframing] at hclose
    simp at hclose
  · simp [hmissing] at hrest

/-- Behind a response that is cut inside a head no body is read. -/
theorem Follows.ne_reading (h : Follows toHead response framing body [] missing c)
    (hmissing : body.length < missing.length) : c.exchange.stage ≠ .readingBody := by
  intro hs
  obtain ⟨hle, -⟩ := h.of_reading hs
  rw [List.append_nil] at hle
  omega

/-! ### Replies and stages -/

theorem stage_pollRead {size : Nat} {e e' : Exchange} {w w' : Wire} {d : Delivery}
    (h : e.pollRead size w = (.done (.ok d), e', w')) (hd : d.last = true) :
    e'.stage = .complete := by
  unfold Exchange.pollRead at h
  split at h
  · next hs =>
    cases h
    exact hs
  · split at h
    · simp at h
    · split at h
      · cases h
        show (if d.last = true then Stage.complete else Stage.readingBody) = .complete
        rw [if_pos hd]
      · simp at h
      · simp at h
  · simp at h
  · simp at h

/-- A head that is handed over leaves the exchange inside the body, and the
last data of the body completes it. -/
theorem stage_of_reply {op : Op} {e e' : Exchange} {w w' : Wire} {reply : Reply}
    (h : op.poll e w = (.done reply, e', w')) :
    (reply.isHead = true → e'.stage = .readingBody) ∧
      (reply.isLast = true → e'.stage = .complete) := by
  rcases Op.poll_done h with ⟨x, result, -, rfl, hx⟩ | ⟨size, result, -, rfl, hr⟩ | ⟨result, rfl⟩
  · refine ⟨fun hhead => ?_, by simp [Reply.isLast]⟩
    cases result with
    | error f => simp [Reply.isHead] at hhead
    | ok response => exact Execution.stage_poll hx
  · refine ⟨by simp [Reply.isHead], fun hlast => ?_⟩
    cases result with
    | error f => simp [Reply.isLast] at hlast
    | ok d => exact stage_pollRead hr hlast
  · exact ⟨by simp [Reply.isHead], by simp [Reply.isLast]⟩

/-- A reply is an old one, or it tells the stage that the exchange is at. -/
theorem mem_replies_step (c : Course) (deed : Deed) {reply : Reply}
    (h : reply ∈ (c.step deed).replies) : reply ∈ c.replies ∨
      (reply.isHead = true → (c.step deed).exchange.stage = .readingBody) ∧
        (reply.isLast = true → (c.step deed).exchange.stage = .complete) := by
  cases deed with
  | begin call =>
    rw [step] at h
    split at h <;> exact .inl h
  | ask =>
    rw [step] at h ⊢
    split at h
    · exact .inl h
    · next op hop =>
      rcases hpoll : op.poll c.exchange c.wire with ⟨t, e, w⟩
      rw [hpoll] at h
      cases t with
      | done r =>
        rcases List.mem_append.mp h with h | h
        · exact .inl h
        · obtain rfl := List.mem_singleton.mp h
          exact .inr (stage_of_reply hpoll)
      | wait again left => exact .inl h
  | letGo =>
    rw [step] at h
    split at h <;> exact .inl h
  | cancel => exact .inl h
  | abort =>
    rw [step] at h
    split at h <;> exact .inl h

theorem replies_run (hbody : framing.IsBody body) (hmissing : missing ≠ [])
    (hframing : framing.isUntilClose = false) : ∀ (deeds : List Deed) {c : Course},
    (∀ deed ∈ deeds, deed.Fits toHead) → Follows toHead response framing body [] missing c →
    (∀ reply ∈ c.replies, reply.isLast = false ∧
      (body.length < missing.length → reply.isHead = false)) →
    ∀ reply ∈ (c.run deeds).replies, reply.isLast = false ∧
      (body.length < missing.length → reply.isHead = false)
  | [], _, _, _, h => h
  | deed :: deeds, c, hfits, h, hreplies => by
    have h' := (onward_step deed (hfits deed (List.mem_cons_self ..)) hbody h).follows
    rw [run_cons]
    refine replies_run hbody hmissing hframing deeds
      (fun d hd => hfits d (List.mem_cons_of_mem _ hd)) h' fun reply hreply => ?_
    rcases mem_replies_step c deed hreply with hold | ⟨hhead, hlast⟩
    · exact hreplies reply hold
    · constructor
      · rw [← Bool.not_eq_true]
        exact fun hl => h'.ne_complete hmissing hframing (hlast hl)
      · intro hcut
        rw [← Bool.not_eq_true]
        exact fun hh => h'.ne_reading hcut (hhead hh)

/-! ### Answers where only bytes arrive -/

/-- The course waits for the head, or for data of the body. -/
def Receives (c : Course) : Prop :=
  (∃ r, c.pending = some (.execute (.awaitingHead r))) ∨
    ∃ size, c.pending = some (.read size) ∧ c.exchange.stage = .readingBody

theorem onlyCutShort_of_none {reply : Reply} (h : reply.readError? = none) :
    reply.OnlyCutShort := by
  intro e he
  rw [h] at he
  simp at he

theorem readError?_ofDecode {e : DecodeError} (h : e.isIo = false) :
    (Failure.ofDecode e).readError? = none := by
  cases e with
  | io error => simp [DecodeError.isIo] at h
  | _ => rfl

/-- Where only bytes arrive, one who waits for the head gets an answer, and no
error but that the stream ended too early. -/
theorem answer_awaitingHead {r : Receiver} (hr : r.BeforeHead toHead) (e : Exchange) {w : Wire}
    (hw : actsIn w.arriving = 0) : ∃ result e' w',
      Execution.pollAwaitingHead r e w = (.done result, e', w') ∧
        (Reply.executed result).OnlyCutShort := by
  unfold Execution.pollAwaitingHead
  split
  · exact ⟨_, _, _, rfl, onlyCutShort_of_none rfl⟩
  · rcases hpoll : r.pollHead w with ⟨p, r', w'⟩
    cases Receiver.pollHead_turn hr hpoll with
    | waits _ _ hlt => omega
    | found => exact ⟨_, _, _, rfl, onlyCutShort_of_none rfl⟩
    | broken _ _ hlt => omega
    | cut _ _ _ hk =>
      refine ⟨_, _, _, rfl, fun e' he' => ?_⟩
      cases he'
      exact hk
    | fault _ hne =>
      have hnone := readError?_ofDecode hne
      exact ⟨_, _, _, rfl, onlyCutShort_of_none hnone⟩

/-- Where only bytes arrive, one who waits for data gets an answer, and no error
but that the stream ended too early. -/
theorem answer_reading {r : Receiver} {d : BodyDecoder} (hr : r.OpenAt d) (size : Nat)
    {e : Exchange} {w : Wire} (hs : e.stage = .readingBody) (hl : e.link = some r)
    (hw : actsIn w.arriving = 0) : ∃ result e' w',
      e.pollRead size w = (.done result, e', w') ∧ (Reply.delivered result).OnlyCutShort := by
  simp only [Exchange.pollRead, hs, hl]
  split
  · exact ⟨_, _, _, rfl, onlyCutShort_of_none rfl⟩
  · rcases hpoll : r.pollBody size w with ⟨p, r', w'⟩
    cases Receiver.pollBody_turn hr hpoll with
    | waits hm hlt => omega
    | data => exact ⟨_, _, _, rfl, onlyCutShort_of_none rfl⟩
    | last => exact ⟨_, _, _, rfl, onlyCutShort_of_none rfl⟩
    | closed => exact ⟨_, _, _, rfl, onlyCutShort_of_none rfl⟩
    | broken hm hlt => omega
    | cut _ _ hk =>
      refine ⟨_, _, _, rfl, fun e' he' => ?_⟩
      cases he'
      exact hk
    | fault => exact ⟨_, _, _, rfl, onlyCutShort_of_none rfl⟩

/-- Where only bytes arrive, one who receives gets an answer. -/
theorem Follows.answered (h : Follows toHead response framing body [] missing c)
    (hw : actsIn c.wire.arriving = 0) (hreceives : c.Receives) :
    ∃ reply, (c.step .ask).replies = c.replies ++ [reply] := by
  rcases hreceives with ⟨r, hr⟩ | ⟨size, hsize, hs⟩
  · obtain ⟨-, -, hbefore⟩ := h.of_awaiting hr
    obtain ⟨result, e, w, hpoll, -⟩ := answer_awaitingHead hbefore c.exchange hw
    refine ⟨.executed result, ?_⟩
    simp only [step, hr, Op.poll, Execution.poll, hpoll]
    rfl
  · obtain ⟨-, r, d, hl, hopen, -⟩ := h.of_reading hs
    obtain ⟨result, e, w, hpoll, -⟩ := answer_reading hopen size hs hl hw
    refine ⟨.delivered result, ?_⟩
    simp only [step, hsize, Op.poll, hpoll]
    rfl

/-- Where only bytes arrive, an execution before the head meets no error of the
transport but that the stream ended too early. -/
theorem onlyCutShort_opening {q : Request} {as : List Arrival} {a : Execution.Answer}
    {result : Except FailedExecution Response} {e : Exchange} {w : Wire}
    (ha : Execution.Opening q as a) (has : actsIn as = 0) (h : a = (.done result, e, w)) :
    (Reply.executed result).OnlyCutShort := by
  cases ha with
  | failed hf =>
    cases h
    exact onlyCutShort_of_none hf
  | waits => simp at h
  | heads _ _ hw =>
    obtain ⟨result', e', w', hpoll, honly⟩ :=
      answer_awaitingHead (Receiver.beforeHead_ofRequest ..) _ (hw ▸ has)
    rw [hpoll] at h
    cases h
    exact honly

/-- Where only bytes arrive, an execution tells of no error of the transport but
that the stream ended too early. -/
theorem Follows.onlyCutShort_executed {x : Execution} {result : Except FailedExecution Response}
    {e : Exchange} {w : Wire} (h : Follows toHead response framing body [] missing c)
    (hw : actsIn c.wire.arriving = 0) (hop : c.pending = some (.execute x))
    (hpoll : x.poll c.exchange c.wire = (.done result, e, w)) :
    (Reply.executed result).OnlyCutShort := by
  -- An exchange that is past the head refuses, and tells of no error of the transport.
  have hbusy : c.Resting → c.exchange.stage ≠ .idle → (Reply.executed result).OnlyCutShort := by
    intro hrest hs
    obtain ⟨q, rfl⟩ := hrest x hop
    rw [Execution.poll_of_busy hs] at hpoll
    cases hpoll
    exact onlyCutShort_of_none rfl
  cases h with
  | opening h1 h2 h3 _ =>
    obtain ⟨q, hq, -⟩ := h3 x hop
    rcases Execution.opening_poll hq h1 h2 rfl with ha | ⟨f, hf, hfail⟩
    · exact onlyCutShort_opening ha hw hpoll
    · rw [hfail] at hpoll
      cases hpoll
      exact onlyCutShort_of_none hf
  | awaiting h1 h2 h3 h4 _ =>
    rw [hop] at h1
    cases h1
    obtain ⟨result', e', w', hpoll', honly⟩ := answer_awaitingHead h4 c.exchange hw
    rw [Execution.poll, hpoll'] at hpoll
    cases hpoll
    exact honly
  | reading h1 h2 => exact hbusy h1 (by simp [h2])
  | complete h1 h2 => exact hbusy h1 (by simp [h2])
  | gone h1 h2 => exact hbusy h1 h2

/-- Where only bytes arrive, a reading tells of no error of the transport but
that the stream ended too early. -/
theorem Follows.onlyCutShort_delivered {size : Nat} {result : Except Failure Delivery}
    {e : Exchange} {w : Wire} (h : Follows toHead response framing body [] missing c)
    (hw : actsIn c.wire.arriving = 0)
    (hpoll : c.exchange.pollRead size c.wire = (.done result, e, w)) :
    (Reply.delivered result).OnlyCutShort := by
  by_cases hs : c.exchange.stage = .readingBody
  · obtain ⟨-, r, d, hl, hopen, -⟩ := h.of_reading hs
    obtain ⟨result', e', w', hpoll', honly⟩ := answer_reading hopen size hs hl hw
    rw [hpoll'] at hpoll
    cases hpoll
    exact honly
  · obtain ⟨result', hpoll', hnone⟩ := pollRead_of_ne c.exchange c.wire size hs
    rw [hpoll'] at hpoll
    cases hpoll
    exact onlyCutShort_of_none hnone

theorem poll_of_reply {reply : Reply} (h : (c.step .ask).replies = c.replies ++ [reply]) :
    ∃ op e w, c.pending = some op ∧ op.poll c.exchange c.wire = (.done reply, e, w) := by
  rcases hop : c.pending with _ | op
  · simp [step, hop] at h
  · rcases hpoll : op.poll c.exchange c.wire with ⟨t, e, w⟩
    simp only [step, hop, hpoll] at h
    cases t with
    | wait again left => simp [settle] at h
    | done given =>
      obtain rfl : given = reply := by simpa [settle] using h
      exact ⟨op, e, w, rfl, hpoll⟩

/-! ### Runs -/

/-- **A stream that ends too early is never taken for the end of the body.** The
question that meets its end is answered so. -/
theorem cut_run {p : Bytes} {settings : Settings} {w : Wire} {deeds : List Deed}
    (hresponse : IsResponse toHead (p ++ missing) framing body) (hmissing : missing ≠ [])
    (hframing : framing.isUntilClose = false) (hw : w.unread = p)
    (hfits : ∀ deed ∈ deeds, deed.Fits toHead) (hc : (start settings w).run deeds = c) :
    (body.length < missing.length → ∀ reply ∈ c.replies, reply.isHead = false) ∧
    (∀ reply ∈ c.replies, reply.isLast = false) ∧
    c.exchange.stage ≠ .complete ∧
    ((c.step .ask).wire.ends < c.wire.ends →
      ∃ reply, (c.step .ask).replies = c.replies ++ [reply] ∧ reply.IsCutShort) ∧
    (actsIn c.wire.arriving = 0 →
      (c.Receives → ∃ reply, (c.step .ask).replies = c.replies ++ [reply]) ∧
      ∀ reply, (c.step .ask).replies = c.replies ++ [reply] → reply.OnlyCutShort) := by
  obtain ⟨response, hheads⟩ := hresponse.heads
  have hbody := hresponse.isBody
  have hstart : Follows toHead response framing body [] missing (start settings w) := by
    refine follows_start ?_
    rw [List.append_nil, hw]
    exact hheads
  have hrun := follows_run hbody deeds hfits hstart
  have hreplies := replies_run hbody hmissing hframing deeds hfits hstart (by simp [start])
  rw [hc] at hrun hreplies
  refine ⟨fun hcut reply h => (hreplies reply h).2 hcut, fun reply h => (hreplies reply h).1,
    hrun.ne_complete hmissing hframing, fun hlt => ?_, fun hplain => ⟨?_, fun reply hreply => ?_⟩⟩
  · exact (onward_step .ask trivial hbody hrun).cut hlt hframing
  · exact hrun.answered hplain
  · obtain ⟨op, e, w', hop, hpoll⟩ := poll_of_reply hreply
    rcases Op.poll_done hpoll with ⟨x, result, rfl, rfl, hx⟩ | ⟨_, _, -, rfl, hr⟩ | ⟨_, rfl⟩
    · exact hrun.onlyCutShort_executed hplain hop hx
    · exact hrun.onlyCutShort_delivered hplain hr
    · exact onlyCutShort_of_none rfl

/-- A response that ends inside its body. -/
def cutShort : Wire :=
  { arriving := [
      .bytes (Incoming.shortHeads.take 50), .act .pause,
      .bytes (Incoming.shortHeads.drop 50 ++ Bytes.ofText "h"), .act .zero] }

theorem cut_run_cutShort : ∃ reply,
    (((start {} cutShort).run plainDeeds).step .ask).replies =
        ((start {} cutShort).run plainDeeds).replies ++ [reply] ∧ reply.IsCutShort := by
  have hw : cutShort.unread = Incoming.shortHeads ++ Bytes.ofText "h" := by decide +kernel
  have hresponse : IsResponse false (Incoming.shortHeads ++ Bytes.ofText "h" ++ Bytes.ofText "i")
      (.length 2) (Bytes.ofText "hi") := by
    rw [List.append_assoc]
    exact isResponse_short
  have hc : (start {} cutShort).run plainDeeds = (start {} cutShort).run plainDeeds := rfl
  obtain ⟨-, -, -, hcut, -⟩ := cut_run hresponse (by decide) rfl hw fits_plainDeeds hc
  exact hcut (by decide +kernel)

end Course
end Http1Client
