/-
# What an exchange sends

A request goes out as its head and, behind it, its body as it is or in chunks
(`Request.GoesOutAs`). While an execution is under way, what the wire has taken and
what the execution still has to hand over are the bytes of its request
(`Execution.Carries`). A deed begins an execution, or asks one, or hands nothing
over (`Course.effect_step`); so once a course has begun to send a request, it
goes on with that one (`Course.Emitting.step`), and at each point the wire has
taken the front of its bytes, and all of them when the exchange waits for the
response (`Course.emission_run`). A request that can be sent is never refused
for its body.

Key definitions: `Request.IsSendable`, `Request.GoesOutAs`, `Execution.Carries`,
`Exchange.Silent`, `Course.Effect`, `Course.Emitting`.
Key theorems: `Execution.emits_poll`, `Course.effect_step`,
`Course.Emitting.step`, `Course.emission_run`.
-/
import Http1Client.Build
import Http1Client.Proofs.Holdings
import Http1Client.Proofs.Output
import Http1Client.Proofs.Body.Writing
import Http1Client.Proofs.Head.Printing

namespace Http1Client

/-! ### Requests -/

/-- A request that can be sent: its URI names a host, and its version is the one
that is written. -/
structure Request.IsSendable (q : Request) : Prop where
  uri : q.head.uri.WellFormed
  host : ∃ host, q.head.uri.host = some host
  version : q.head.version = .http11

/-- The bytes that a request goes out as: its head, printed for its body, and
behind it the body as it is, or, if the head says so, the pieces of the body in
chunks. -/
inductive Request.GoesOutAs (q : Request) (segment : Nat) : Bytes → Prop where
  | plain {head : Bytes} : q.head.isChunked = false →
      q.head.print (.length q.body.length) = .ok head → GoesOutAs q segment (head ++ q.body)
  | chunked {head framed : Bytes} {pieces : List Bytes} : q.head.isChunked = true →
      q.head.print .chunked = .ok head → Cut (max segment 1) q.body pieces →
      Chunked.IsPlainBody pieces framed → GoesOutAs q segment (head ++ framed)

/-- A request that was built can be sent if it names a host and has that version. -/
theorem Request.isSendable_of_build {q : Request} {method body : Bytes} {uri : String}
    {version : Version} {fields : List (Bytes × Bytes)}
    (h : Request.build method uri version fields body = .ok q)
    (hhost : ∃ host, q.head.uri.host = some host) (hversion : q.head.version = .http11) :
    q.IsSendable := by
  refine ⟨?_, hhost, hversion⟩
  unfold Request.build at h
  split at h
  · cases h
  · cases h
  · cases h
  · next hparse _ =>
    cases h
    exact Uri.wellFormed_of_parse hparse

theorem Request.IsSendable.head {q : Request} (h : q.IsSendable) :
    ∃ head, q.head.print (q.head.framing q.body.length) = .ok head := by
  obtain ⟨host, hhost⟩ := h.host
  exact RequestHead.print_of_wellFormed h.uri hhost h.version _

/-- What the sender puts behind the head is the body that the head announces. -/
theorem Request.goesOutAs_of_print {q : Request} {head : Bytes} (segment : Nat)
    (h : q.head.print (q.head.framing q.body.length) = .ok head) :
    q.GoesOutAs segment (head ++ q.head.bodyBytes segment q.body) := by
  unfold RequestHead.bodyBytes
  by_cases hchunked : q.head.isChunked = true
  · rw [RequestHead.framing, if_pos hchunked] at h
    rw [if_pos hchunked]
    have hcut := cut_segments segment q.body
    exact .chunked hchunked h hcut (Chunked.isPlainBody_iff.mpr ⟨hcut.ne_nil, rfl⟩)
  · rw [RequestHead.framing, if_neg hchunked] at h
    rw [if_neg hchunked]
    exact .plain (Bool.eq_false_iff.mpr hchunked) h

/-- Is the failure that the body does not fit its framing? -/
def Failure.isBadBody : Failure → Bool
  | write (.badBody _) => true
  | _ => false

theorem Failure.isBadBody_ofDecode (error : DecodeError) : (ofDecode error).isBadBody = false := by
  cases error <;> rfl

/-- Is the request sent at this stage? -/
def Stage.isSent : Stage → Bool
  | awaitingHead => true
  | readingBody => true
  | complete => true
  | _ => false

/-! ### Executions -/

namespace Execution

section Carries

variable {base head : Bytes} {q : Request} {settings : Settings} {e e' : Exchange} {w w' : Wire}
  {x x' : Execution}

/-- The execution still has to hand over what is left of its request, of which
the wire has taken the front behind `base`. -/
inductive Carries (base head : Bytes) (q : Request) (segment : Nat) (w : Wire) :
    Execution → Prop where
  | start : w.taken = base → Carries base head q segment w (start q)
  | connecting : w.taken = base → Carries base head q segment w (connecting q)
  | sendingHead {s : Sender} {f : Flush} {e : BodyEncoder} : s.segment = segment →
      BodyEncoder.ofFraming (q.head.framing q.body.length) = .ok e → s.outgoing.body = some e →
      s.Owes base head f w → Carries base head q segment w (sendingHead q s f)
  | sendingBody {s : Sender} {f : Flush} :
      s.Owes base (head ++ q.head.bodyBytes segment q.body) f w →
      Carries base head q segment w (sendingBody q s f)
  | awaitingHead {r : Receiver} : w.taken = base ++ (head ++ q.head.bodyBytes segment q.body) →
      Carries base head q segment w (awaitingHead r)

theorem owes_start {s : Sender} {sent all : Bytes} (hw : w.taken = base ++ sent)
    (hall : sent ++ s.buffer = all) : s.Owes base all .start w :=
  ⟨⟨sent, hw, hall⟩, by simp⟩

/-- Every stride carries the request on. -/
theorem Strides.carries (hhead : q.head.print (q.head.framing q.body.length) = .ok head)
    (h : Strides e w x x' e' w') (hx : x.Carries base head q e.settings.segment w) :
    x'.Carries base head q e.settings.segment w' := by
  cases h with
  | starts =>
    cases hx with
    | start hw => exact .connecting hw
  | connects _ hconnect hput =>
    cases hx with
    | connecting hw =>
      obtain ⟨bytes, body, hprint, hbody, -, rfl⟩ := Sender.putHead_eq_ok hput
      obtain rfl : head = bytes := Except.ok.inj (hhead.symm.trans hprint)
      have hw' : w'.taken = base ++ [] := by rw [Wire.taken_connect hconnect, hw, List.append_nil]
      exact .sendingHead rfl hbody rfl (owes_start hw' rfl)
  | @sendsHead _ s _ _ _ _ _ _ hflush hput =>
    cases hx with
    | sendingHead hsegment hbody hs howes =>
      cases Sender.pollFlush_turn howes hflush with
      | done hw =>
        have hbehind := Sender.putBody_eq (s := { s with buffer := [] }) hbody hs
        rw [hput] at hbehind
        cases hbehind
        rw [← hsegment]
        exact .sendingBody (owes_start hw rfl)
  | sendsBody _ hflush =>
    cases hx with
    | sendingBody howes =>
      cases Sender.pollFlush_turn howes hflush with
      | done hw => exact .awaitingHead hw

/-- The wire has taken the front of what an execution carries. -/
theorem Carries.taken {segment : Nat} (h : x.Carries base head q segment w) :
    ∃ sent, w.taken = base ++ sent ∧ sent <+: head ++ q.head.bodyBytes segment q.body := by
  cases h with
  | start hw => exact ⟨[], by rw [hw, List.append_nil], List.nil_prefix⟩
  | connecting hw => exact ⟨[], by rw [hw, List.append_nil], List.nil_prefix⟩
  | sendingHead _ _ _ howes =>
    obtain ⟨sent, hw, hall⟩ := howes.taken
    exact ⟨sent, hw, List.IsPrefix.trans ⟨_, hall⟩ (List.prefix_append ..)⟩
  | sendingBody howes =>
    obtain ⟨sent, hw, hall⟩ := howes.taken
    exact ⟨sent, hw, ⟨_, hall⟩⟩
  | awaitingHead hw => exact ⟨_, hw, List.prefix_rfl⟩

/-- It has taken all of it when the execution waits for the head. -/
theorem Carries.whole {segment : Nat} (h : x.Carries base head q segment w)
    (hs : x.stage.isSent = true) :
    w.taken = base ++ (head ++ q.head.bodyBytes segment q.body) := by
  cases h with
  | awaitingHead hw => exact hw
  | _ => cases hs

/-- What an execution that was asked has made of its request: the wire has taken
the front of it, and all of it where the exchange has gone on to the response. -/
structure Emits (base head : Bytes) (q : Request) (settings : Settings) (a : Answer) : Prop where
  kept : a.2.1.settings = settings
  begun : a.2.1.stage ≠ .idle
  taken : ∃ sent, a.2.2.taken = base ++ sent ∧
    sent <+: head ++ q.head.bodyBytes settings.segment q.body
  whole : a.2.1.stage.isSent = true →
    a.2.2.taken = base ++ (head ++ q.head.bodyBytes settings.segment q.body)
  fits : ∀ f, a.1 = .done (.error f) → f.failure.isBadBody = false
  left : ∀ again x, a.1 = .wait again x → x.Carries base head q settings.segment a.2.2

theorem emits_failed {f : Failure} (he : e.settings = settings) (hf : f.isBadBody = false)
    (hw : ∃ sent, w.taken = base ++ sent ∧
      sent <+: head ++ q.head.bodyBytes settings.segment q.body) :
    Emits base head q settings (failed f e w) where
  kept := he
  begun := nofun
  taken := by rwa [failed, Exchange.fail_frame Wire.taken rfl]
  whole := nofun
  fits _ h := by
    cases h
    exact hf
  left _ _ h := by cases h

/-- An execution that is not done carries on at its stage. -/
theorem emits_wait {again : Bool} (hx : x.Carries base head q settings.segment w)
    (he : e.settings = settings) (hs : e.stage = x.stage) (hbegun : x.stage ≠ .idle) :
    Emits base head q settings (.wait again x, e, w) where
  kept := he
  begun := hs ▸ hbegun
  taken := hx.taken
  whole h := hx.whole (hs ▸ h)
  fits _ h := by cases h
  left _ _ h := by
    cases h
    exact hx

/-- An execution that stops has made no more of its request than the wire has
taken. -/
theorem Stops.emits {a : Answer}
    (hhead : q.head.print (q.head.framing q.body.length) = .ok head) (h : Stops e w x a)
    (hx : x.Carries base head q settings.segment w) (he : e.settings = settings)
    (hs : e.stage = x.stage) : Emits base head q settings a := by
  have htaken := hx.taken
  cases h with
  | busy hbusy => exact absurd hs hbusy
  | hostless => exact emits_failed he rfl htaken
  | cancelledFirst => exact emits_failed he rfl htaken
  | cancelled => exact emits_failed he rfl (by rwa [Op.abandon_frame Wire.taken rfl])
  | notConnected _ hconnect => exact emits_failed he rfl (by rwa [Wire.taken_connect hconnect])
  | connecting _ hconnect =>
    cases hx with
    | connecting hw =>
      have hw' := (Wire.taken_connect hconnect).trans hw
      exact emits_wait (.connecting hw') he hs nofun
  | headRefused _ _ hput =>
    cases hx with
    | connecting =>
      have hok := Sender.putHead_of_print (s := { segment := e.settings.segment }) rfl hhead
      rw [hput] at hok
      cases hok
  | headUnsent _ hflush =>
    cases hx with
    | sendingHead _ _ _ howes =>
      cases Sender.pollFlush_turn howes hflush with
      | failed hw =>
        obtain ⟨sent, hsent, hfront⟩ := hw
        exact emits_failed he rfl ⟨sent, hsent, hfront.trans (List.prefix_append ..)⟩
  | sendingHead _ hflush =>
    cases hx with
    | sendingHead hsegment hbody hout howes =>
      cases Sender.pollFlush_turn howes hflush with
      | waits howes' => exact emits_wait (.sendingHead hsegment hbody hout howes') he hs nofun
  | @bodyRefused _ s _ _ _ _ _ _ _ hflush hput =>
    cases hx with
    | sendingHead hsegment hbody hout howes =>
      cases Sender.pollFlush_turn howes hflush with
      | done =>
        have hok := Sender.putBody_eq (s := { s with buffer := [] }) hbody hout
        rw [hput] at hok
        cases hok
  | bodyUnsent _ hflush =>
    cases hx with
    | sendingBody howes =>
      cases Sender.pollFlush_turn howes hflush with
      | failed hw => exact emits_failed he rfl hw
  | sendingBody _ hflush =>
    cases hx with
    | sendingBody howes =>
      cases Sender.pollFlush_turn howes hflush with
      | waits howes' => exact emits_wait (.sendingBody howes') he hs nofun
  | headUnread _ hr =>
    have hout := Receiver.taken_pollHead hr
    exact emits_failed he (Failure.isBadBody_ofDecode _) (hout ▸ htaken)
  | awaitingHead _ hr =>
    have hout := Receiver.taken_pollHead hr
    exact emits_wait (.awaitingHead (hout.trans (hx.whole rfl))) he hs nofun
  | head _ hr =>
    have hout := Receiver.taken_pollHead hr
    exact
      { kept := he
        begun := nofun
        taken := hout ▸ htaken
        whole := fun _ => hout.trans (hx.whole rfl)
        fits _ h := by cases h
        left _ _ h := by cases h }

/-- A question to an execution hands over the front of what it carries. -/
theorem emits_poll (hhead : q.head.print (q.head.framing q.body.length) = .ok head)
    (hx : x.Carries base head q settings.segment w) (he : e.settings = settings)
    (hs : e.stage = x.stage) : Emits base head q settings (x.poll e w) := by
  refine poll_induct
    (P := fun x e w => x.Carries base head q settings.segment w ∧ e.settings = settings ∧
      e.stage = x.stage)
    (Q := Emits base head q settings) ?_ ?_ ⟨hx, he, hs⟩
  · rintro x e w x' e' w' ⟨hx, rfl, -⟩ hstride
    exact ⟨hstride.carries hhead hx, hstride.settings, hstride.stage_next⟩
  · rintro x e w a ⟨hx, he, hs⟩ hstop
    exact hstop.emits hhead hx he hs

end Carries

end Execution

/-! ### Operations that hand nothing over -/

namespace Exchange

/-- The exchange has gone on, and no byte was handed over. -/
structure Silent (e : Exchange) (w : Wire) (e' : Exchange) (w' : Wire) : Prop where
  settings : e'.settings = e.settings
  taken : w'.taken = w.taken
  idle : e'.stage = .idle ↔ e.stage = .idle
  sent : e'.stage.isSent = true → e.stage.isSent = true

section Silent

variable {e : Exchange} {w : Wire}

theorem Silent.refl (e : Exchange) (w : Wire) : Silent e w e w := ⟨rfl, rfl, .rfl, id⟩

/-- An exchange that is under way fails. -/
theorem silent_fail {e' : Exchange} {w' : Wire} (hs : e.stage ≠ .idle)
    (he : e'.settings = e.settings) (hw : w'.taken = w.taken) :
    Silent e w (e'.fail w').1 (e'.fail w').2 :=
  ⟨he, (e'.fail_frame Wire.taken rfl).trans hw, ⟨nofun, fun h => absurd h hs⟩, nofun⟩

theorem silent_pollRead (size : Nat) (e : Exchange) (w : Wire) :
    Silent e w (e.pollRead size w).2.1 (e.pollRead size w).2.2 := by
  unfold pollRead
  split
  · exact .refl e w
  · next r hs hl =>
    have hbusy : e.stage ≠ .idle := by simp [hs]
    split
    · exact silent_fail hbusy rfl rfl
    · split
      · next given r' w' hpoll =>
        have hnext : (if given.last then Stage.complete else Stage.readingBody) ≠ .idle := by
          split <;> exact nofun
        refine ⟨rfl, Receiver.taken_pollBody hpoll,
          ⟨fun h => absurd h hnext, fun h => absurd h hbusy⟩, fun _ => ?_⟩
        rw [hs]
        rfl
      · next error r' w' hpoll =>
        exact silent_fail hbusy rfl (Receiver.taken_pollBody hpoll)
      · next again r' w' hpoll =>
        exact ⟨rfl, Receiver.taken_pollBody hpoll, .rfl, id⟩
  · exact .refl e w
  · exact .refl e w

theorem silent_interrupt (e : Exchange) (w : Wire) {w' : Wire} (hw : w'.taken = w.taken) :
    Silent e w e.interrupt.unlink w' := by
  by_cases hbusy : e.stage ≠ .idle ∧ e.stage.isTerminal = false
  · rw [interrupt, if_pos hbusy]
    refine ⟨rfl, hw, ⟨fun h => ?_, fun h => absurd h hbusy.1⟩, fun h => ?_⟩
    all_goals cases h
  · rw [interrupt, if_neg hbusy]
    exact ⟨rfl, hw, .rfl, id⟩

theorem taken_pollClosing (e : Exchange) (w : Wire) : (e.pollClosing w).2.2.taken = w.taken := by
  unfold pollClosing
  split
  all_goals
    next h =>
      have hw := Wire.taken_close h
      exact hw

theorem silent_pollClosing (e : Exchange) (w : Wire) :
    Silent e w (e.pollClosing w).2.1 (e.pollClosing w).2.2 := by
  have htaken := taken_pollClosing e w
  obtain ⟨t, w', ht, -⟩ := Course.pollClosing_eq e w
  rw [ht] at htaken ⊢
  exact ⟨rfl, htaken, .rfl, id⟩

theorem silent_pollClose (e : Exchange) (w : Wire) :
    Silent e w (e.pollClose w).2.1 (e.pollClose w).2.2 := by
  unfold pollClose
  split
  · have htaken := taken_pollClosing e.interrupt.unlink w
    obtain ⟨t, w', ht, -⟩ := Course.pollClosing_eq e.interrupt.unlink w
    rw [ht] at htaken ⊢
    exact silent_interrupt e w htaken
  · exact silent_interrupt e w rfl

theorem silent_abort (e : Exchange) (w : Wire) : Silent e w (e.abort w).1 (e.abort w).2 := by
  unfold abort
  split
  · next hbusy => exact silent_fail hbusy.1 rfl rfl
  · exact ⟨rfl, rfl, .rfl, id⟩

end Silent

end Exchange

/-! ### Courses -/

namespace Course

/-- No reply is that a body does not fit its framing. -/
def BodiesFit (c : Course) : Prop :=
  ∀ f, .executed (.error f) ∈ c.replies → f.failure.isBadBody = false

/-- No execution has begun to ask the exchange, and no byte was handed over. -/
structure Unsent (settings : Settings) (base : Bytes) (asked : Request → Prop) (c : Course) :
    Prop where
  kept : c.exchange.settings = settings
  fits : c.BodiesFit
  idle : c.exchange.stage = .idle
  taken : c.wire.taken = base
  pending : ∀ x, c.pending = some (.execute x) → ∃ q, x = .start q ∧ asked q

/-- The exchange executes or has executed the request: the wire has taken the
front of it, and all of it when the exchange has gone on to the response. -/
structure Emitting (settings : Settings) (base head : Bytes) (q : Request) (c : Course) :
    Prop where
  kept : c.exchange.settings = settings
  fits : c.BodiesFit
  begun : c.exchange.stage ≠ .idle
  taken : ∃ sent, c.wire.taken = base ++ sent ∧
    sent <+: head ++ q.head.bodyBytes settings.segment q.body
  whole : c.exchange.stage.isSent = true →
    c.wire.taken = base ++ (head ++ q.head.bodyBytes settings.segment q.body)
  pending : ∀ x, c.pending = some (.execute x) → x.stage ≠ .idle →
    x.Carries base head q settings.segment c.wire

/-- From the one course to the other no byte is handed over. An execution that
is under way was under way, and its wire is as it was. -/
structure Quiet (c c' : Course) : Prop where
  silent : c.exchange.Silent c.wire c'.exchange c'.wire
  fits : c.BodiesFit → c'.BodiesFit
  pending : ∀ x, c'.pending = some (.execute x) →
    c.pending = some (.execute x) ∧ c'.wire = c.wire

section Emission

variable {settings : Settings} {base head : Bytes} {q : Request} {asked : Request → Prop}
  {c c' : Course}

theorem Quiet.refl (c : Course) : Quiet c c := ⟨.refl .., id, fun _ h => ⟨h, rfl⟩⟩

theorem Unsent.quiet (h : c.Unsent settings base asked) (hq : Quiet c c') :
    c'.Unsent settings base asked where
  kept := hq.silent.settings.trans h.kept
  fits := hq.fits h.fits
  idle := hq.silent.idle.mpr h.idle
  taken := hq.silent.taken.trans h.taken
  pending x hx := h.pending x (hq.pending x hx).1

theorem Emitting.quiet (h : c.Emitting settings base head q) (hq : Quiet c c') :
    c'.Emitting settings base head q where
  kept := hq.silent.settings.trans h.kept
  fits := hq.fits h.fits
  begun hidle := h.begun (hq.silent.idle.mp hidle)
  taken := by
    rw [hq.silent.taken]
    exact h.taken
  whole hsent := hq.silent.taken.trans (h.whole (hq.silent.sent hsent))
  pending x hx hbegun := by
    obtain ⟨hx', hw⟩ := hq.pending x hx
    rw [hw]
    exact h.pending x hx' hbegun

/-- The replies to come are those that were and the one that settles. -/
theorem mem_replies_settleAs {ρ ω : Type} {reply : ρ → Reply} {left : ω → Op}
    {a : Turn ρ ω × Exchange × Wire} {r : Reply} (h : r ∈ (c.settleAs reply left a).replies) :
    r ∈ c.replies ∨ ∃ result, a.1 = .done result ∧ r = reply result := by
  obtain ⟨t, e, w⟩ := a
  cases t with
  | done result =>
    rcases List.mem_append.mp h with h | h
    · exact .inl h
    · exact .inr ⟨result, rfl, List.mem_singleton.mp h⟩
  | wait again l => exact .inl h

/-- To take in the answer of an operation that is no execution. -/
theorem quiet_settleAs {ρ ω : Type} {reply : ρ → Reply} {left : ω → Op}
    {a : Turn ρ ω × Exchange × Wire} (ha : c.exchange.Silent c.wire a.2.1 a.2.2)
    (hleft : ∀ l x, left l ≠ .execute x) (hreply : ∀ result r, reply result ≠ .executed r) :
    Quiet c (c.settleAs reply left a) := by
  obtain ⟨he, hw⟩ := c.settleAs_exchange reply left a.1 a.2.1 a.2.2
  refine ⟨?_, fun hfits f hf => ?_, fun x hx => ?_⟩
  · rw [he, hw]
    exact ha
  · rcases mem_replies_settleAs hf with hf | ⟨result, -, hresult⟩
    · exact hfits f hf
    · exact absurd hresult.symm (hreply result _)
  · obtain ⟨t, e, w⟩ := a
    cases t with
    | done result => simp [settleAs, settle, Turn.map] at hx
    | wait again l => exact absurd (Option.some.inj hx) (hleft l x)

/-- To ask an operation that is no execution. -/
theorem quiet_ask {op : Op} (hop : ∀ x, op ≠ .execute x) :
    Quiet c (c.settle (op.poll c.exchange c.wire)) := by
  cases op with
  | execute x => exact absurd rfl (hop x)
  | read size =>
    show Quiet c (c.settleAs .delivered (fun _ => .read size) (c.exchange.pollRead size c.wire))
    exact quiet_settleAs (Exchange.silent_pollRead ..) (by simp) (by simp)
  | close =>
    show Quiet c (c.settleAs .closed (fun _ => .closing) (c.exchange.pollClose c.wire))
    exact quiet_settleAs (Exchange.silent_pollClose ..) (by simp) (by simp)
  | closing =>
    show Quiet c (c.settleAs .closed (fun _ => .closing) (c.exchange.pollClosing c.wire))
    exact quiet_settleAs (Exchange.silent_pollClosing ..) (by simp) (by simp)

/-- What one deed can be: it begins an execution, or asks one, or hands nothing
over. -/
inductive Effect (c : Course) : Deed → Course → Prop where
  | quiet {deed : Deed} {c' : Course} : Quiet c c' → Effect c deed c'
  | begins (q : Request) :
      Effect c (.begin (.execute q)) { c with pending := some (.execute (.start q)) }
  | asks {x : Execution} : c.pending = some (.execute x) →
      Effect c .ask (c.settleAs .executed .execute (x.poll c.exchange c.wire))

theorem effect_begin (c : Course) (call : Call) :
    Effect c (.begin call) (c.step (.begin call)) := by
  rw [step]
  split
  · exact .quiet (.refl c)
  · cases call with
    | execute q => exact .begins q
    | read size => exact .quiet ⟨.refl .., id, fun x hx => by cases hx⟩
    | close => exact .quiet ⟨.refl .., id, fun x hx => by cases hx⟩

theorem effect_ask (c : Course) : Effect c .ask (c.step .ask) := by
  rw [step]
  split
  · exact .quiet (.refl c)
  · next op hop =>
    by_cases hx : ∃ x, op = .execute x
    · obtain ⟨x, rfl⟩ := hx
      exact .asks hop
    · exact .quiet (quiet_ask fun x h => hx ⟨x, h⟩)

/-- What one deed does to what is sent. -/
theorem effect_step (c : Course) (deed : Deed) : Effect c deed (c.step deed) := by
  cases deed with
  | begin call => exact effect_begin c call
  | ask => exact effect_ask c
  | letGo =>
    rw [step]
    split
    · exact .quiet (.refl c)
    · next op hop =>
      exact .quiet ⟨⟨rfl, op.abandon_frame Wire.taken rfl, .rfl, id⟩, id, fun x hx => by cases hx⟩
  | cancel => exact .quiet ⟨⟨rfl, rfl, .rfl, id⟩, id, fun x hx => ⟨hx, rfl⟩⟩
  | abort =>
    rw [step]
    split
    · exact .quiet (.refl c)
    · next hnone =>
      refine .quiet ⟨Exchange.silent_abort .., id, fun x hx => ?_⟩
      exact absurd (Option.isSome_of_mem hx) hnone

/-- To take in what an execution has made of its request. -/
theorem emitting_settleAs {a : Execution.Answer} (hfits : c.BodiesFit)
    (ha : Execution.Emits base head q settings a) :
    (c.settleAs .executed .execute a).Emitting settings base head q := by
  obtain ⟨he, hw⟩ := c.settleAs_exchange .executed .execute a.1 a.2.1 a.2.2
  refine ⟨he ▸ ha.kept, fun f hf => ?_, he ▸ ha.begun, hw ▸ ha.taken, ?_, fun x hx _ => ?_⟩
  · rcases mem_replies_settleAs hf with hf | ⟨result, hdone, hresult⟩
    · exact hfits f hf
    · cases hresult
      exact ha.fits f hdone
  · rw [he, hw]
    exact ha.whole
  · rw [hw]
    obtain ⟨t, e, w⟩ := a
    cases t with
    | done r => simp [settleAs, settle, Turn.map] at hx
    | wait again left =>
      cases hx
      exact ha.left again _ rfl

/-- An exchange that has begun an execution refuses another one. -/
theorem quiet_busy (hbegun : c.exchange.stage ≠ .idle) (q : Request) :
    Quiet c (c.settleAs .executed .execute ((Execution.start q).poll c.exchange c.wire)) := by
  rw [Execution.poll_of_busy hbegun]
  refine ⟨.refl .., fun hfits f hf => ?_, fun x hx => by cases hx⟩
  rcases mem_replies_settleAs hf with hf | ⟨result, hdone, hresult⟩
  · exact hfits f hf
  · cases hdone
    cases hresult
    rfl

/-- Before the first execution, every deed hands nothing over or begins to
send a request that was asked for. -/
theorem Unsent.step (h : c.Unsent settings base asked) (hasked : ∀ q, asked q → q.IsSendable)
    (deed : Deed) (hdeed : ∀ q, deed = .begin (.execute q) → asked q) :
    (c.step deed).Unsent settings base asked ∨ ∃ q head, asked q ∧
      q.head.print (q.head.framing q.body.length) = .ok head ∧
      (c.step deed).Emitting settings base head q := by
  have heffect := effect_step c deed
  generalize c.step deed = c' at heffect ⊢
  cases heffect with
  | quiet hq => exact .inl (h.quiet hq)
  | begins q =>
    refine .inl ⟨h.kept, h.fits, h.idle, h.taken, fun x hx => ?_⟩
    cases hx
    exact ⟨q, rfl, hdeed q rfl⟩
  | asks hx =>
    obtain ⟨q, rfl, hq⟩ := h.pending _ hx
    obtain ⟨head, hhead⟩ := (hasked q hq).head
    have hemits := Execution.emits_poll hhead (.start h.taken) h.kept h.idle
    exact .inr ⟨q, head, hq, hhead, emitting_settleAs h.fits hemits⟩

/-- Every deed goes on with the request that is being sent. -/
theorem Emitting.step (h : c.Emitting settings base head q)
    (hhead : q.head.print (q.head.framing q.body.length) = .ok head) (hsound : c.Sound True)
    (deed : Deed) : (c.step deed).Emitting settings base head q := by
  have heffect := effect_step c deed
  generalize c.step deed = c' at heffect ⊢
  cases heffect with
  | quiet hq => exact h.quiet hq
  | begins q' =>
    refine ⟨h.kept, h.fits, h.begun, h.taken, h.whole, fun x hx hbegun => ?_⟩
    cases hx
    exact absurd rfl hbegun
  | @asks x hx =>
    by_cases hidle : x.stage = .idle
    · cases x with
      | start q' => exact h.quiet (quiet_busy h.begun q')
      | _ => cases hidle
    · have hs := (hsound.pending _ hx).stage hidle
      have hemits := Execution.emits_poll hhead (h.pending x hx hidle) h.kept hs
      exact emitting_settleAs h.fits hemits

theorem Emitting.run (hhead : q.head.print (q.head.framing q.body.length) = .ok head) :
    ∀ (deeds : List Deed) {c : Course}, c.Emitting settings base head q → c.Sound True →
      (c.run deeds).Emitting settings base head q
  | [], _, h, _ => h
  | deed :: deeds, _, h, hsound =>
    Emitting.run hhead deeds (h.step hhead hsound deed) (hsound.step deed fun _ => trivial)

theorem unsent_start (settings : Settings) (w : Wire) (asked : Request → Prop) :
    (start settings w).Unsent settings w.taken asked where
  kept := rfl
  fits _ hf := by cases hf
  idle := rfl
  taken := rfl
  pending _ hx := by cases hx

/-- At no point of a course is anything sent, or there is one request of which
all that is sent is the front. -/
theorem Unsent.run (hasked : ∀ q, asked q → q.IsSendable) : ∀ (deeds : List Deed) {c : Course},
    c.Unsent settings base asked → c.Sound True →
    (∀ q, .begin (.execute q) ∈ deeds → asked q) →
    (∀ n, (c.run (deeds.take n)).Unsent settings base asked) ∨
      ∃ q head, asked q ∧ q.head.print (q.head.framing q.body.length) = .ok head ∧
        ∀ n, (c.run (deeds.take n)).Unsent settings base asked ∨
          (c.run (deeds.take n)).Emitting settings base head q
  | [], c, h, _, _ => .inl fun n => by rwa [List.take_nil]
  | deed :: deeds, c, h, hsound, hdeeds => by
    have hnext := hsound.step deed fun _ => trivial
    rcases h.step hasked deed fun q hq => hdeeds q (hq ▸ List.mem_cons_self ..) with
      hstep | ⟨q, head, hq, hhead, hstep⟩
    · rcases Unsent.run hasked deeds hstep hnext fun q hq =>
          hdeeds q (List.mem_cons_of_mem _ hq) with hall | ⟨q, head, hq, hhead, hall⟩
      · refine .inl fun n => ?_
        cases n with
        | zero => exact h
        | succ n => exact hall n
      · refine .inr ⟨q, head, hq, hhead, fun n => ?_⟩
        cases n with
        | zero => exact .inl h
        | succ n => exact hall n
    · refine .inr ⟨q, head, hq, hhead, fun n => ?_⟩
      cases n with
      | zero => exact .inl h
      | succ n => exact .inr (hstep.run hhead (deeds.take n) hnext)

/-- Where no execution is under way, no deed hands a byte over. -/
theorem taken_step (hc : ∀ x, c.pending ≠ some (.execute x)) (deed : Deed) :
    (c.step deed).wire.taken = c.wire.taken := by
  have heffect := effect_step c deed
  generalize c.step deed = c' at heffect ⊢
  cases heffect with
  | quiet hq => exact hq.silent.taken
  | begins q => rfl
  | asks hx => exact absurd hx (hc _)

end Emission

/-! ### All courses -/

/-- **An exchange sends one request and nothing else**, whatever is done with it
and whatever its wire does: of the head and the body behind it, in chunks if the
head says so, the wire has taken the front at each point of the course, and all
of it when the exchange has gone on to the response. No body is refused, and
no byte is handed over but in an execution. -/
theorem emission_run {settings : Settings} {w : Wire} {deeds : List Deed}
    (hdeeds : ∀ q, .begin (.execute q) ∈ deeds → q.IsSendable) :
    let c := fun n => (start settings w).run (deeds.take n)
    ((∀ n, (c n).exchange.stage = .idle ∧ (c n).wire.taken = w.taken) ∨
      ∃ q bytes, .begin (.execute q) ∈ deeds ∧ q.GoesOutAs settings.segment bytes ∧
        ∀ n, (∃ sent, (c n).wire.taken = w.taken ++ sent ∧ sent <+: bytes) ∧
          ((c n).exchange.stage.isSent = true → (c n).wire.taken = w.taken ++ bytes)) ∧
      ∀ n, (∀ f, .executed (.error f) ∈ (c n).replies → f.failure.isBadBody = false) ∧
        ((∀ x, (c n).pending ≠ some (.execute x)) →
          ∀ deed, ((c n).step deed).wire.taken = (c n).wire.taken) := by
  intro c
  rcases (unsent_start settings w fun q => .begin (.execute q) ∈ deeds).run hdeeds deeds
      (sound_start settings w) fun _ => id with hall | ⟨q, head, hq, hhead, hall⟩
  · exact ⟨.inl fun n => ⟨(hall n).idle, (hall n).taken⟩,
      fun n => ⟨(hall n).fits, fun hc deed => taken_step hc deed⟩⟩
  · refine ⟨.inr ⟨q, head ++ q.head.bodyBytes settings.segment q.body, hq, ?_, fun n => ?_⟩,
      fun n => ⟨?_, fun hc deed => taken_step hc deed⟩⟩
    · exact Request.goesOutAs_of_print settings.segment hhead
    · rcases hall n with h | h
      · refine ⟨⟨[], ?_, List.nil_prefix⟩, fun hsent => ?_⟩
        · rw [List.append_nil]
          exact h.taken
        · rw [show (c n).exchange.stage = .idle from h.idle] at hsent
          cases hsent
      · exact ⟨h.taken, h.whole⟩
    · exact (hall n).elim Unsent.fits Emitting.fits

/-- A request with a body that goes out in chunks. -/
def chunkedRequest : Request :=
  { head := { plainRequest.head with fields := .ofList [(.transferEncoding, .chunked)] }
    body := Bytes.ofText "abc" }

theorem isSendable_chunkedRequest : chunkedRequest.IsSendable where
  uri := Uri.wellFormed_of_authority rfl (List.all_eq_true.mp (by decide))
  host := ⟨['a'], rfl⟩
  version := rfl

/-- A wire that takes few bytes at once, stops inside the head and inside the
body, and does not answer. -/
def slowWire : Wire :=
  { perWrite := some 5, stops := [(7, .pause), (50, .pause)], arriving := [.act .hang] }

/-- Executes the request, and asks until it is sent. -/
def slowDeeds : List Deed := [.begin (.execute chunkedRequest), .ask, .ask, .ask]

/-- The bytes of the request: its body is cut into two pieces, and so goes out
in two chunks. -/
def slowBytes : Bytes :=
  Bytes.ofText "GET / HTTP/1.1\r\ntransfer-encoding: chunked\r\nhost: a\r\n\r\n" ++
    Bytes.ofText "2\r\nab\r\n1\r\nc\r\n0\r\n\r\n"

theorem emission_run_slow : chunkedRequest.GoesOutAs 2 slowBytes ∧
    ((start { segment := 2 } slowWire).run slowDeeds).exchange.stage = .awaitingHead ∧
      ((start { segment := 2 } slowWire).run slowDeeds).wire.taken = slowBytes := by
  have hdeeds : ∀ q, .begin (.execute q) ∈ slowDeeds → q = chunkedRequest := by
    simp [slowDeeds]
  have hstage : ((start { segment := 2 } slowWire).run slowDeeds).exchange.stage =
      .awaitingHead := by
    decide +kernel
  have htaken : ((start { segment := 2 } slowWire).run slowDeeds).wire.taken = slowBytes := by
    decide +kernel
  obtain ⟨hsent, -⟩ := @emission_run { segment := 2 } slowWire slowDeeds fun q hq => by
    rw [hdeeds q hq]
    exact isSendable_chunkedRequest
  rcases hsent with hidle | ⟨q, bytes, hq, hout, hall⟩
  · have hnone : ((start { segment := 2 } slowWire).run slowDeeds).exchange.stage = .idle :=
      (hidle slowDeeds.length).1
    rw [hstage] at hnone
    cases hnone
  · obtain rfl := hdeeds q hq
    have hsent :
        ((start { segment := 2 } slowWire).run slowDeeds).exchange.stage.isSent = true := by
      rw [hstage]
      rfl
    obtain rfl : slowBytes = bytes := htaken.symm.trans ((hall slowDeeds.length).2 hsent)
    exact ⟨hout, hstage, htaken⟩

end Course
end Http1Client
