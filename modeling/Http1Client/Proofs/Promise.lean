/-
# The promise to keep a connection

An exchange that says it keeps its connection (`Exchange.keepAlive`) promises it
to the next one. The promise is given with the head of the response, when no
value of its `connection` field mentions `close` and its body does not end with
the connection (`Response.LeavesOpen`), and taken back by every failure and where
bytes behind the body were thrown away. As long as the exchange has the
connection, the promise is good (`Exchange.Held`).

It is not taken back where an exchange that is complete is closed: then the
connection is shut down and let go of, and the exchange goes on to promise it.
No other operation leaves a promise of a connection that is gone (`Op.Keeps`).

Key definitions: `Response.LeavesOpen`, `Exchange.Held`, `Exchange.Promises`,
`Execution.OnWay`, `Op.Keeps`.
Key theorems: `Exchange.promises_pollRead`, `Exchange.pollClose_kept`,
`Execution.promising_poll`, `Op.keeps_execute`, `Op.keeps_read`, `Op.keeps_close`.
-/
import Http1Client.Proofs.Holdings
import Http1Client.Proofs.Link

namespace Http1Client

/-- The head that was found says where its body ends. -/
theorem Heads.framing {toHead : Bool} {b tail : Bytes} {response : Response} {framing : Framing}
    (h : Heads toHead b response framing tail) : response.framing toHead = .ok framing := by
  induction h with
  | final hp _ =>
    obtain ⟨_, _, _, _, _, _, hframing, _⟩ := hp
    exact hframing
  | interim _ _ _ ih => exact ih

/-- No value of the `connection` field mentions `close`, and the body does not
end with the connection. `asked` says of which answers to the question whether
the request was a `HEAD` one is to be right. -/
structure Response.LeavesOpen (asked : Bool → Prop) (response : Response) : Prop where
  unclosed : ∀ v ∈ response.fields.values .connection, v.mentions "close" = false
  framed : ∃ toHead framing, asked toHead ∧ response.framing toHead = .ok framing ∧
    framing.isUntilClose = false

theorem Response.keepAlive_iff {response : Response} : response.keepAlive = true ↔
    ∀ v ∈ response.fields.values .connection, v.mentions "close" = false := by
  simp [Response.keepAlive, Fields.mention]

/-- Is the failure only that the operation does not fit the stage? -/
def Failure.isMisuse : Failure → Bool
  | stage _ _ => true
  | _ => false

/-- Does the reply tell of a failure of the exchange or its transport? -/
def Reply.isFailed : Reply → Bool
  | executed (.error f) => !f.failure.isMisuse
  | delivered (.error f) => !f.isMisuse
  | closed (.error _) => true
  | _ => false

/-! ### Exchanges -/

namespace Exchange

/-- The exchange has its connection, which nobody let go of or asked to close,
and no bytes behind the body were thrown away. -/
structure Held (base : Wire) (e : Exchange) (w : Wire) : Prop where
  held : e.connected = true
  connected : w.connected = true
  intact : Wire.Intact base w
  undiscarded : ∃ r, e.receiver = some r ∧ r.discarded = false

/-- What the promise to keep the connection says. -/
structure Promises (asked : Bool → Prop) (base : Wire) (e : Exchange) (w : Wire) : Prop where
  announced : e.keepAlive = true → e.response.LeavesOpen asked
  held : e.keepAlive = true → e.connected = true → e.Held base w

/-- The exchange is over, and has no connection. -/
structure IsShut (e : Exchange) : Prop where
  isTerminal : e.stage.isTerminal = true
  unlinked : e.connected = false

variable {asked : Bool → Prop} {base : Wire} {e e' : Exchange} {w w' : Wire} {closes : Prop}

/-- The connection is held on, with a receiver that threw nothing away. -/
theorem Held.sameLink {r' : Receiver} (h : e.Held base w) (hw : w.SameLink w')
    (he : e'.connected = e.connected) (hr : e'.receiver = some r') (hr' : r'.discarded = false) :
    e'.Held base w' :=
  ⟨he.trans h.held, hw.connected.trans h.connected, h.intact.sameLink hw, r', hr, hr'⟩

/-- Who promises nothing keeps every promise. -/
theorem promises_of_keepAlive (h : e.keepAlive = false) (w : Wire) : e.Promises asked base w :=
  ⟨fun hkeep => by simp [h] at hkeep, fun hkeep => by simp [h] at hkeep⟩

/-- What is said of an exchange without connection does not depend on the wire. -/
theorem Promises.unlinked (h : e.Promises asked base w) (hnone : e.connected = false) (w' : Wire) :
    e.Promises asked base w' :=
  ⟨h.announced, fun _ hconnected => by simp [hnone] at hconnected⟩

theorem Promises.cancel (h : e.Promises asked base w) : e.cancel.Promises asked base w := by
  refine ⟨h.announced, fun hkeep hconnected => ?_⟩
  have hheld := h.held hkeep hconnected
  obtain ⟨r, hr, hundiscarded⟩ := hheld.undiscarded
  exact hheld.sameLink (.refl w) rfl hr hundiscarded

/-- An exchange that closes promises no more than before. -/
theorem Promises.interrupt (h : e.Promises asked base w) (w' : Wire) :
    e.interrupt.unlink.Promises asked base w' := by
  unfold Exchange.interrupt
  split
  · exact promises_of_keepAlive rfl w'
  · exact ⟨h.announced, nofun⟩

/-- An exchange whose stage is none at which it has a connection has none, and
promises none. -/
theorem Sound.of_not_isLinked (h : e.Sound closes) (hs : e.stage.isLinked = false) :
    e.connected = false ∧ e.keepAlive = false := by
  cases h.holds with
  | nothing _ hc _ hk => exact ⟨hc, hk⟩
  | reading hs' => simp [hs', Stage.isLinked] at hs
  | complete hs' => simp [hs', Stage.isLinked] at hs
  | closed _ hs' => simp [hs', Stage.isLinked] at hs

/-- An exchange that has failed promises nothing. -/
theorem Sound.ne_failed (h : e.Sound closes) (hkeep : e.keepAlive = true) : e.stage ≠ .failed := by
  intro hs
  have hunkept := (h.of_not_isLinked (by rw [hs]; rfl)).2
  rw [hunkept] at hkeep
  cases hkeep

theorem IsShut.ne_idle (h : e.IsShut) : e.stage ≠ .idle := by
  intro hs
  have hover := h.isTerminal
  rw [hs] at hover
  cases hover

/-- A reading keeps the promise, or takes it back. -/
theorem promises_pollRead (h : e.Promises asked base w) (hsound : e.Sound closes) (size : Nat) :
    (e.pollRead size w).2.1.Promises asked base (e.pollRead size w).2.2 := by
  unfold pollRead
  split
  · exact h
  · next r hs hlink =>
    obtain ⟨hconnected, hr⟩ := link_eq_some_iff.mp hlink
    obtain ⟨-, r₁, d, hr₁, hopen⟩ := hsound.of_reading hs
    obtain rfl : r₁ = r := Option.some.inj (hr₁.symm.trans hr)
    split
    · exact promises_of_keepAlive rfl _
    · split
      · next given r' w' hpoll =>
        have hboth : (e.keepAlive && !r'.discarded) = true →
            e.keepAlive = true ∧ r'.discarded = false := by
          simp
        refine ⟨fun hkeep => h.announced (hboth hkeep).1, fun hkeep _ => ?_⟩
        have hheld := h.held (hboth hkeep).1 hconnected
        exact hheld.sameLink (Receiver.sameLink_pollBody hpoll) rfl rfl (hboth hkeep).2
      · exact promises_of_keepAlive rfl _
      · next again r' w' hpoll =>
        refine ⟨h.announced, fun hkeep _ => ?_⟩
        have hheld := h.held hkeep hconnected
        -- A reading that waits is not at the end of the body, so nothing is behind it.
        have hunfinished : r'.finished = false := by
          cases Receiver.pollBody_turn hopen hpoll with
          | waits hm => exact hm.openAt.unfinished
        obtain ⟨r₂, hr₂, hundiscarded⟩ := hheld.undiscarded
        obtain rfl : r₂ = r₁ := Option.some.inj (hr₂.symm.trans hr)
        have hsame := (Receiver.discarded_pollBody hpoll).resolve_left (by simp [hunfinished])
        exact hheld.sameLink (Receiver.sameLink_pollBody hpoll) rfl rfl (hsame.trans hundiscarded)
  · exact h
  · exact h

/-- A reading that fails ends the exchange. -/
theorem failed_pollRead {size : Nat} {f : Failure}
    (h : e.pollRead size w = (.done (.error f), e', w')) (hf : f.isMisuse = false) :
    e'.stage = .failed := by
  unfold pollRead at h
  split at h
  · cases h
  · split at h
    · cases h
      rfl
    · split at h
      · cases h
      · cases h
        rfl
      · cases h
  · next hs =>
    cases h
    exact hs
  · cases h
    cases hf

/-- What a reading does to an exchange: nothing at all, or it was inside the
body, and is begun then and has its connection until it fails. -/
theorem pollRead_kept {size : Nat}
    {t : Turn (Except Failure Delivery) Unit} (h : e.pollRead size w = (t, e', w')) :
    e' = e ∧ w' = w ∨
      e'.stage ≠ .idle ∧ (e'.connected = false → e'.keepAlive = false) := by
  unfold pollRead at h
  split at h
  · cases h
    exact .inl ⟨rfl, rfl⟩
  · next r hs hlink =>
    obtain ⟨hconnected, -⟩ := link_eq_some_iff.mp hlink
    have hheld : ¬ e.connected = false := by simp [hconnected]
    have hfailed : Stage.failed ≠ .idle := by decide
    right
    split at h
    · cases h
      exact ⟨hfailed, fun _ => rfl⟩
    · split at h
      · next given _ _ _ =>
        cases h
        refine ⟨?_, fun hnone => absurd hnone hheld⟩
        cases hlast : given.last <;> simp [advance]
      · cases h
        exact ⟨hfailed, fun _ => rfl⟩
      · cases h
        exact ⟨by simp [hs], fun hnone => absurd hnone hheld⟩
  · cases h
    exact .inl ⟨rfl, rfl⟩
  · cases h
    exact .inl ⟨rfl, rfl⟩

/-- A closing takes the connection from the exchange and leaves it over, and goes
on to promise only what was promised of an exchange that is complete. -/
theorem pollClose_kept (hsound : e.Sound closes) (w : Wire) : ∃ t w',
    e.pollClose w = (t, e.interrupt.unlink, w') ∧
      (e.connected = false ∧ w' = w ∧ t = .done (.ok ()) ∨
        e.connected = true ∧ e.interrupt.unlink.IsShut) ∧
      (e.interrupt.unlink.stage = .idle → e.stage = .idle) ∧
      (e.interrupt.unlink.keepAlive = true →
        e.keepAlive = true ∧ (e.connected = false ∨ e.stage = .complete)) := by
  have hpoll : ∃ t w', e.pollClose w = (t, e.interrupt.unlink, w') ∧
      (e.connected = false → w' = w ∧ t = .done (.ok ())) := by
    rw [pollClose]
    by_cases hconnected : e.connected = true
    · obtain ⟨t, w', ht, -⟩ := Course.pollClosing_eq e.interrupt.unlink w
      rw [if_pos hconnected]
      exact ⟨t, w', ht, fun hnone => by simp [hnone] at hconnected⟩
    · rw [if_neg hconnected]
      exact ⟨_, w, rfl, fun _ => ⟨rfl, rfl⟩⟩
  obtain ⟨t, w', hpoll, hnone⟩ := hpoll
  refine ⟨t, w', hpoll, ?_⟩
  by_cases hbusy : e.stage ≠ .idle ∧ e.stage.isTerminal = false
  · -- An exchange that is under way fails, and promises nothing.
    rw [interrupt, if_pos hbusy]
    have hfailed : Stage.failed ≠ .idle := by decide
    refine ⟨?_, fun hidle => absurd hidle hfailed, fun hkeep => absurd hkeep Bool.false_ne_true⟩
    cases hconnected : e.connected with
    | false => exact .inl ⟨rfl, hnone hconnected⟩
    | true => exact .inr ⟨rfl, rfl, rfl⟩
  · have hcomplete : e.connected = true → e.stage = .complete := by
      intro hconnected
      cases hsound.holds with
      | nothing _ hc => simp [hc] at hconnected
      | reading hs => exact absurd ⟨by simp [hs], by simp [hs, Stage.isTerminal]⟩ hbusy
      | complete hs => exact hs
      | closed _ _ hc => simp [hc] at hconnected
    rw [interrupt, if_neg hbusy]
    cases hconnected : e.connected with
    | false => exact ⟨.inl ⟨rfl, hnone hconnected⟩, id, fun hkeep => ⟨hkeep, .inl rfl⟩⟩
    | true =>
      have hs := hcomplete hconnected
      have hover : e.unlink.stage.isTerminal = true := by simp [unlink, hs, Stage.isTerminal]
      exact ⟨.inr ⟨rfl, hover, rfl⟩, id, fun hkeep => ⟨hkeep, .inr hs⟩⟩

end Exchange

/-! ### Executions -/

namespace Execution

/-- An execution that may come to promise its connection. -/
structure OnWay (asked : Bool → Prop) (base : Wire) (x : Execution) (w : Wire) : Prop where
  request : ∀ q, x.request? = some q → asked q.head.method.isHead
  intact : Wire.Intact base w
  connected : x.ownsConnection = true → w.connected = true
  receiver : ∀ r, x = .awaitingHead r →
    ∃ toHead, asked toHead ∧ r.BeforeHead toHead ∧ r.discarded = false

/-- What an answer to an execution promises. -/
structure Promising (asked : Bool → Prop) (base : Wire) (a : Answer) : Prop where
  promises : a.2.1.Promises asked base a.2.2
  begun : a.2.1.stage ≠ .idle
  held : a.2.1.keepAlive = true → a.2.1.connected = true
  left : ∀ again x, a.1 = .wait again x → x.OnWay asked base a.2.2
  failed : ∀ f, a.1 = .done (.error f) → a.2.1.stage = .failed

variable {asked : Bool → Prop} {base : Wire} {x x' : Execution} {e e' : Exchange} {w w' : Wire}

theorem promising_failed (f : Failure) (e : Exchange) (w : Wire) :
    Promising asked base (Execution.failed f e w) where
  promises := Exchange.promises_of_keepAlive rfl _
  begun h := by cases h
  held h := by cases h
  left _ _ h := by cases h
  failed _ _ := rfl

theorem promising_wait {again : Bool} (hkeep : e.keepAlive = false) (hs : e.stage ≠ .idle)
    (h : x.OnWay asked base w) : Promising asked base (.wait again x, e, w) where
  promises := Exchange.promises_of_keepAlive hkeep w
  begun := hs
  held h := by simp [hkeep] at h
  left _ _ hwait := by
    cases hwait
    exact h
  failed _ hdone := by cases hdone

/-- Only an execution that waits for a head has a receiver. -/
theorem onWay_of_stage (hrequest : ∀ q, x.request? = some q → asked q.head.method.isHead)
    (hintact : Wire.Intact base w) (hconnected : x.ownsConnection = true → w.connected = true)
    (hx : x.stage ≠ .awaitingHead) : x.OnWay asked base w :=
  ⟨hrequest, hintact, hconnected, fun _ hr => absurd (congrArg stage hr) hx⟩

/-- A flush leaves an execution on its way. -/
theorem OnWay.flushed {s : Sender} {f : Flush} {o : Sender.Flushed} (h : x.OnWay asked base w)
    (hx : x.ownsConnection = true) (hf : s.pollFlush f w = o)
    (hrequest : x'.request? = x.request?) (hx' : x'.stage ≠ .awaitingHead) :
    x'.OnWay asked base o.wire := by
  have hlinked := Sender.sameLink_pollFlush hf
  refine onWay_of_stage ?_ (h.intact.sameLink hlinked) (fun _ => ?_) hx'
  · rw [hrequest]
    exact h.request
  · exact hlinked.connected.trans (h.connected hx)

/-- A stride is on the way. -/
theorem Strides.onWay (h : Strides e w x x' e' w') (hx : x.OnWay asked base w) :
    x'.OnWay asked base w' := by
  cases h with
  | @starts q host =>
    exact onWay_of_stage hx.request ⟨hx.intact.dropped, hx.intact.closes⟩ nofun nofun
  | connects _ hconnect =>
    exact onWay_of_stage hx.request (hx.intact.connect hconnect)
      (fun _ => Wire.connected_connect hconnect) nofun
  | sendsHead _ hf => exact hx.flushed rfl hf rfl nofun
  | sendsBody _ hf =>
    have hlinked := Sender.sameLink_pollFlush hf
    refine ⟨nofun, hx.intact.sameLink hlinked,
      fun _ => hlinked.connected.trans (hx.connected rfl), fun r hr => ?_⟩
    cases hr
    exact ⟨_, hx.request _ rfl, Receiver.beforeHead_ofRequest .., rfl⟩

theorem Strides.keepAlive (h : Strides e w x x' e' w') : e'.keepAlive = e.keepAlive := by
  cases h <;> rfl

/-- The head that an execution has found is what its promise rests on. -/
theorem promising_head {r r' : Receiver} {response : Response} {framing : Framing}
    (hx : (Execution.awaitingHead r).OnWay asked base w)
    (hr : r.pollHead w = (.ready (.ok (response, framing)), r', w')) :
    Promising asked base (.done (.ok response), Exchange.advance
      { e with
        response
        keepAlive := response.keepAlive && !framing.isUntilClose
        connected := true
        receiver := some r' } .readingBody, w') := by
  obtain ⟨toHead, hasked, hbefore, hundiscarded⟩ := hx.receiver r rfl
  have hlinked := Receiver.sameLink_pollHead hr
  have hfound : response.framing toHead = .ok framing ∧ r'.discarded = r.discarded := by
    cases Receiver.pollHead_turn hbefore hr with
    | found _ hn =>
      refine ⟨?_, rfl⟩
      rw [← hbefore.toHead]
      exact (Incoming.heads_of_nextHead hn).framing
  have hboth : (response.keepAlive && !framing.isUntilClose) = true →
      response.keepAlive = true ∧ framing.isUntilClose = false := by
    simp
  refine ⟨⟨fun hkeep => ?_, fun _ _ => ?_⟩, ?_, fun _ => rfl, ?_, ?_⟩
  · obtain ⟨hopen, hends⟩ := hboth hkeep
    exact ⟨Response.keepAlive_iff.mp hopen, toHead, framing, hasked, hfound.1, hends⟩
  · exact ⟨rfl, hlinked.connected.trans (hx.connected rfl), hx.intact.sameLink hlinked, r', rfl,
      hfound.2.trans hundiscarded⟩
  · intro h
    cases h
  · intro _ _ h
    cases h
  · intro _ h
    cases h

/-- An execution that stops promises what it found. -/
theorem Stops.promising {a : Answer} (h : Stops e w x a) (hs : e.stage = x.stage)
    (hkeep : e.keepAlive = false) (hx : x.OnWay asked base w) : Promising asked base a := by
  have hbegun : x.stage ≠ .idle → e.stage ≠ .idle := fun hne hidle => hne (hs.symm.trans hidle)
  cases h with
  | busy hbusy => exact absurd hs hbusy
  | connecting _ hconnect =>
    refine promising_wait hkeep (hbegun nofun) ?_
    exact onWay_of_stage hx.request (hx.intact.connect hconnect) nofun nofun
  | sendingHead _ hf =>
    exact promising_wait hkeep (hbegun nofun) (hx.flushed rfl hf rfl nofun)
  | sendingBody _ hf =>
    exact promising_wait hkeep (hbegun nofun) (hx.flushed rfl hf rfl nofun)
  | awaitingHead _ hr =>
    obtain ⟨toHead, hasked, hbefore, hundiscarded⟩ := hx.receiver _ rfl
    have hlinked := Receiver.sameLink_pollHead hr
    refine promising_wait hkeep (hbegun nofun) ⟨nofun, hx.intact.sameLink hlinked,
      fun _ => hlinked.connected.trans (hx.connected rfl), ?_⟩
    cases Receiver.pollHead_turn hbefore hr with
    | waits =>
      intro r hr'
      cases hr'
      exact ⟨toHead, hasked, hbefore.withBuffer _, hundiscarded⟩
  | head _ hr => exact promising_head hx hr
  | _ => exact promising_failed ..

/-- An execution promises what it found. -/
theorem promising_poll (hs : e.stage = x.stage) (hkeep : e.keepAlive = false)
    (hx : x.OnWay asked base w) : Promising asked base (x.poll e w) :=
  poll_induct (P := fun x e w => e.stage = x.stage ∧ e.keepAlive = false ∧ x.OnWay asked base w)
    (Q := Promising asked base)
    (fun h hstride => ⟨hstride.stage_next, hstride.keepAlive.trans h.2.1, hstride.onWay h.2.2⟩)
    (fun h hstop => hstop.promising h.1 h.2.1 h.2.2) ⟨hs, hkeep, hx⟩

end Execution

/-! ### Operations -/

namespace Op

/-- An answer to an operation keeps the promise of its exchange, which goes on to
promise a connection that it has no longer only where it was closed. -/
structure Keeps (asked : Bool → Prop) (base : Wire) (op : Op) (e : Exchange)
    (a : Turn Reply Op × Exchange × Wire) : Prop where
  promises : a.2.1.Promises asked base a.2.2
  idle : a.2.1.stage = .idle → Wire.Intact base a.2.2
  executing : ∀ again x, a.1 = .wait again (.execute x) → x.OnWay asked base a.2.2
  shut : (∃ again, a.1 = .wait again .closing) ∨ (∃ f, a.1 = .done (.closed (.error f))) →
    a.2.1.IsShut
  failed : ∀ reply, a.1 = .done reply → reply.isFailed = true →
    a.2.1.stage = .failed ∨ ∃ f, reply = .closed (.error f)
  closed : a.2.1.keepAlive = true → a.2.1.connected = false →
    e.keepAlive = true ∧ (e.connected = false ∨ op = .close ∧ e.stage = .complete)

variable {asked : Bool → Prop} {base : Wire} {e : Exchange} {w : Wire} {closes : Prop}

/-- An execution of an exchange that is past its beginning is refused. -/
theorem keeps_busy (q : Request) (hbusy : e.stage ≠ .idle) (h : e.Promises asked base w) :
    Keeps asked base (execute (.start q)) e ((execute (.start q)).poll e w) := by
  have hpoll : (execute (.start q)).poll e w =
      (.done (.executed (.error ⟨.stage .execute e.stage, e.response⟩)), e, w) := by
    rw [poll, Execution.poll_of_busy hbusy]
    rfl
  rw [hpoll]
  refine ⟨h, fun hidle => absurd hidle hbusy, ?_, ?_, ?_, fun hkeep hnone => ⟨hkeep, .inl hnone⟩⟩
  · intro _ _ hwait
    cases hwait
  · rintro (⟨_, hwait⟩ | ⟨_, hdone⟩)
    · cases hwait
    · cases hdone
  · intro _ hdone hfailed
    cases hdone
    cases hfailed

/-- An execution keeps the promise that it gives. -/
theorem keeps_execute {x : Execution} (hs : e.stage = x.stage) (hsound : e.Sound closes)
    (hx : x.OnWay asked base w) : Keeps asked base (execute x) e ((execute x).poll e w) := by
  have hunlinked : e.stage.isLinked = false := by
    rw [hs]
    cases x <;> rfl
  have hkeep := (hsound.of_not_isLinked hunlinked).2
  have hpromising := Execution.promising_poll hs hkeep hx
  rw [poll]
  rcases hpoll : x.poll e w with ⟨t, e', w'⟩
  rw [hpoll] at hpromising
  refine ⟨hpromising.promises, fun hidle => absurd hidle hpromising.begun, ?_, ?_, ?_, ?_⟩
  · intro again x' hwait
    obtain ⟨left, rfl, hleft⟩ := Turn.eq_wait_of_map hwait
    cases hleft
    exact hpromising.left _ _ rfl
  · rintro (⟨_, hwait⟩ | ⟨_, hdone⟩)
    · obtain ⟨_, -, hleft⟩ := Turn.eq_wait_of_map hwait
      cases hleft
    · obtain ⟨_, -, hreply⟩ := Turn.eq_done_of_map hdone
      cases hreply
  · intro reply hdone hfailed
    obtain ⟨r, rfl, rfl⟩ := Turn.eq_done_of_map hdone
    cases r with
    | ok response => cases hfailed
    | error f => exact .inl (hpromising.failed f rfl)
  · intro hkeep' hnone
    have hheld := hpromising.held hkeep'
    rw [hnone] at hheld
    cases hheld

/-- A reading keeps the promise. -/
theorem keeps_read (size : Nat) (hsound : e.Sound closes) (h : e.Promises asked base w)
    (hidle : e.stage = .idle → Wire.Intact base w) :
    Keeps asked base (read size) e ((read size).poll e w) := by
  have hpromises := Exchange.promises_pollRead h hsound size
  rw [poll]
  rcases hread : e.pollRead size w with ⟨t, e', w'⟩
  rw [hread] at hpromises
  have hkept := Exchange.pollRead_kept hread
  refine ⟨hpromises, fun hidle' => ?_, ?_, ?_, ?_, fun hkeep hnone => ?_⟩
  · rcases hkept with ⟨rfl, rfl⟩ | ⟨hbegun, -⟩
    · exact hidle hidle'
    · exact absurd hidle' hbegun
  · intro again x hwait
    obtain ⟨_, -, hleft⟩ := Turn.eq_wait_of_map hwait
    cases hleft
  · rintro (⟨_, hwait⟩ | ⟨_, hdone⟩)
    · obtain ⟨_, -, hleft⟩ := Turn.eq_wait_of_map hwait
      cases hleft
    · obtain ⟨_, -, hreply⟩ := Turn.eq_done_of_map hdone
      cases hreply
  · intro reply hdone hfailed
    obtain ⟨r, rfl, rfl⟩ := Turn.eq_done_of_map hdone
    cases r with
    | ok given => cases hfailed
    | error f =>
      have hmisuse : f.isMisuse = false := by simpa [Reply.isFailed] using hfailed
      exact .inl (Exchange.failed_pollRead hread hmisuse)
  · rcases hkept with ⟨rfl, -⟩ | ⟨-, hunkept⟩
    · exact ⟨hkeep, .inl hnone⟩
    · rw [hunkept hnone] at hkeep
      cases hkeep

/-- A closing fails with the error of the wire. -/
theorem error_of_closed {t : Turn (Except Failure Unit) Unit} {reply : Reply}
    (h : t.map Reply.closed (fun _ => closing) = .done reply) (hfailed : reply.isFailed = true) :
    ∃ f, reply = .closed (.error f) := by
  obtain ⟨r, -, rfl⟩ := Turn.eq_done_of_map h
  cases r with
  | ok done => cases hfailed
  | error f => exact ⟨f, rfl⟩

/-- A closing takes the connection, and leaves the promise of an exchange that is
complete standing. -/
theorem keeps_close (hsound : e.Sound closes) (h : e.Promises asked base w)
    (hidle : e.stage = .idle → Wire.Intact base w) :
    Keeps asked base close e (close.poll e w) := by
  obtain ⟨t, w', hpoll, hkept, hstage, hkeeps⟩ := Exchange.pollClose_kept hsound w
  rw [poll, hpoll]
  refine ⟨h.interrupt w', fun hidle' => ?_, ?_, ?_, ?_, fun hkeep _ => ?_⟩
  · have hs := hstage hidle'
    have hnone := (hsound.of_not_isLinked (by rw [hs]; rfl)).1
    rcases hkept with ⟨-, rfl, -⟩ | ⟨hconnected, -⟩
    · exact hidle hs
    · rw [hnone] at hconnected
      cases hconnected
  · intro again x hwait
    obtain ⟨_, -, hleft⟩ := Turn.eq_wait_of_map hwait
    cases hleft
  · intro hcloses
    rcases hkept with ⟨-, -, rfl⟩ | ⟨-, hshut⟩
    · rcases hcloses with ⟨_, hwait⟩ | ⟨_, hdone⟩
      · cases hwait
      · cases hdone
    · exact hshut
  · exact fun reply hdone hfailed => .inr (error_of_closed hdone hfailed)
  · obtain ⟨hbefore, hwhere⟩ := hkeeps hkeep
    exact ⟨hbefore, hwhere.imp_right fun hs => ⟨rfl, hs⟩⟩

theorem keeps_closing (hshut : e.IsShut) (h : e.Promises asked base w) :
    Keeps asked base closing e (closing.poll e w) := by
  obtain ⟨t, w', hpoll, -⟩ := Course.pollClosing_eq e w
  rw [poll, hpoll]
  refine ⟨h.unlinked hshut.unlinked w', fun hidle => absurd hidle hshut.ne_idle, ?_,
    fun _ => hshut, ?_, fun hkeep hnone => ⟨hkeep, .inl hnone⟩⟩
  · intro again x hwait
    obtain ⟨_, -, hleft⟩ := Turn.eq_wait_of_map hwait
    cases hleft
  · exact fun reply hdone hfailed => .inr (error_of_closed hdone hfailed)

end Op

end Http1Client
