/-
# The last question to a cancelled operation

Whoever asks the wire on behalf of an execution or a reading looks at the
cancellation token first. So, once the token is set, a question to such an
operation is its last one at whatever point it was suspended: the wire is not
asked, the operation fails with a cancellation, and the connection is let go of
(`Op.poll_of_isCancelled`). An operation that has not gone on with its exchange
yet is answered too, in its own way.

A closing does not look at the token. It is done when the wire has answered, and
stays suspended as long as the wire makes it wait (`Op.poll_of_isClosing`). So
behind a cancellation a closing is the only operation that a question can leave
under way (`Course.cancelled_run`).

Key definitions: `Op.IsSuspended`, `Op.IsClosing`, `Op.LetsGo`,
`Course.isCancelled`.
Key theorems: `Course.isSuspended_ask`, `Op.poll_of_isCancelled`,
`Op.poll_of_isClosing`, `Course.Sound.isCancelled_run`, `Course.cancelled_run`.
-/
import Http1Client.Proofs.Holdings

namespace Http1Client

/-! ### Asking the wire to close -/

theorem Wire.cancelled_close {w w' : Wire} {answer : Poll (Except IoError Unit)}
    (h : w.close = (answer, w')) :
    w'.cancelled = (w.cancelled || (Act.perform w.closing).cancels) :=
  (congrArg (fun a => a.2.cancelled) h).symm

namespace Exchange

/-- The question of a closing to the wire leaves the exchange as it is. -/
theorem pollClosing_of_close (e : Exchange) {w w' : Wire}
    {answer : Poll (Except IoError Unit)} (h : w.close = (answer, w')) :
    (∃ r, e.pollClosing w = (.done r, e, w'.drop) ∧ ∃ r', answer = .ready r') ∨
      ∃ again, e.pollClosing w = (.wait again (), e, w') ∧ answer = .wait again := by
  rw [pollClosing, h]
  rcases answer with (error | ok) | again
  · exact .inl ⟨_, rfl, _, rfl⟩
  · exact .inl ⟨_, rfl, _, rfl⟩
  · exact .inr ⟨again, rfl, rfl⟩

theorem cancelled_interrupt (e : Exchange) : e.interrupt.unlink.cancelled = e.cancelled := by
  unfold interrupt
  split <;> rfl

end Exchange

/-! ### Operations that are under way -/

/-- The reply says that the operation was cancelled. -/
def Reply.IsCancelled : Reply → Prop
  | executed r => ∃ f : FailedExecution, r = .error f ∧ f.failure = .cancelled
  | delivered r => r = .error .cancelled
  | closed r => r = .error .cancelled

namespace Op

/-- Does the operation close its exchange? -/
def IsClosing (op : Op) : Prop := op = .close ∨ op = .closing

/-- The operation has gone on with its exchange, so that it waits for the wire. -/
def IsSuspended (e : Exchange) : Op → Prop
  | execute x => x.stage ≠ .idle
  | read _ => e.stage = .readingBody
  | close => False
  | closing => True

/-- The operation asks the wire to close, or has asked it. -/
def AsksToClose (e : Exchange) (op : Op) : Prop :=
  op = .closing ∨ op = .close ∧ e.connected = true

/-- A suspended reading has a connection, and a receiver for it. -/
def IsLinked (e : Exchange) (op : Op) : Prop :=
  ∀ size, op = .read size → e.stage = .readingBody → ∃ r, e.link = some r

variable {op left : Op} {e e' : Exchange} {w w' : Wire} {again : Bool} {reply : Reply}

/-- An execution that waits has gone on with its exchange. -/
theorem stage_of_wait {x x' : Execution} (h : x.poll e w = (.wait again x', e', w')) :
    x'.stage ≠ .idle := by
  have hwaits : ∀ again l, (x.poll e w).1 = .wait again l → l.stage ≠ .idle := by
    refine Execution.poll_induct (P := fun _ _ _ => True)
      (Q := fun a => ∀ again l, a.1 = .wait again l → l.stage ≠ .idle)
      (fun _ _ => trivial) (fun _ hstop again l hwait => ?_) trivial
    cases hstop <;> cases hwait <;> simp [Execution.stage]
  exact hwaits again x' (by rw [h])

/-- A reading that waits is inside the body. -/
theorem stage_of_read_wait {size : Nat} (h : e.pollRead size w = (.wait again (), e', w')) :
    e'.stage = .readingBody := by
  unfold Exchange.pollRead at h
  split at h
  · cases h
  · next r hs _ =>
    split at h
    · cases h
    · split at h
      · cases h
      · cases h
      · cases h
        exact hs
  · cases h
  · cases h

/-- What is left of an operation is suspended. -/
theorem isSuspended_of_wait (h : op.poll e w = (.wait again left, e', w')) :
    left.IsSuspended e' := by
  cases op with
  | execute x =>
    rcases hx : x.poll e w with ⟨t, e₁, w₁⟩
    simp only [poll, hx, Prod.mk.injEq] at h
    obtain ⟨ht, rfl, rfl⟩ := h
    obtain ⟨x', rfl, rfl⟩ := Turn.eq_wait_of_map ht
    exact stage_of_wait hx
  | read size =>
    rcases hr : e.pollRead size w with ⟨t, e₁, w₁⟩
    simp only [poll, hr, Prod.mk.injEq] at h
    obtain ⟨ht, rfl, rfl⟩ := h
    obtain ⟨l, rfl, rfl⟩ := Turn.eq_wait_of_map ht
    exact stage_of_read_wait hr
  | close =>
    obtain ⟨_, -, rfl⟩ := Turn.eq_wait_of_map (congrArg Prod.fst h)
    trivial
  | closing =>
    obtain ⟨_, -, rfl⟩ := Turn.eq_wait_of_map (congrArg Prod.fst h)
    trivial

/-! ### The last question -/

/-- An operation was answered without a question to the wire. If it was
suspended, then it was cancelled, its exchange has failed, and the connection is
let go of, whoever had it. -/
structure LetsGo (op : Op) (e : Exchange) (w : Wire) (reply : Reply) (e' : Exchange) (w' : Wire) :
    Prop where
  unasked : w' = w ∨ w' = w.drop
  still : e'.isCancelled w' = true
  cancelled : op.IsSuspended e → reply.IsCancelled
  failed : op.IsSuspended e → e'.stage = .failed ∧ e'.connected = false
  dropped : op.IsSuspended e → op.ownsConnection = true ∨ e.connected = true → w'.dropped = true

/-- An operation that changes nothing was not suspended. -/
theorem LetsGo.same (h : e.isCancelled w = true) (hop : ¬ op.IsSuspended e) :
    op.LetsGo e w reply e w :=
  ⟨.inl rfl, h, fun hs => absurd hs hop, fun hs => absurd hs hop, fun hs => absurd hs hop⟩

theorem LetsGo.fail {e₁ : Exchange} (h : e.isCancelled w = true)
    (hcancelled : e₁.cancelled = e.cancelled) (hconnected : e₁.connected = e.connected)
    (hreply : op.IsSuspended e → reply.IsCancelled) :
    op.LetsGo e w reply (e₁.fail (op.abandon w)).1 (e₁.fail (op.abandon w)).2 := by
  have hwire : (e₁.fail (op.abandon w)).2 =
      if op.ownsConnection = true ∨ e.connected = true then w.drop else w := by
    show e₁.release (op.abandon w) = _
    rw [Exchange.release, abandon, hconnected]
    by_cases howns : op.ownsConnection = true
    · -- To let go twice is to let go once.
      have htwice : w.drop.drop = w.drop := rfl
      simp [howns, htwice]
    · simp [howns]
  have hlook : (e₁.fail (op.abandon w)).1.cancelled = e.cancelled := hcancelled
  rw [hwire]
  refine ⟨?_, ?_, hreply, fun _ => ⟨rfl, rfl⟩, fun _ howned => ?_⟩
  · split
    · exact .inr rfl
    · exact .inl rfl
  · rw [Exchange.isCancelled, hlook]
    split <;> exact h
  · rw [if_pos howned]
    rfl

/-- A cancelled execution is over once it is asked, wherever it is. -/
theorem poll_execute_of_isCancelled (x : Execution) (h : e.isCancelled w = true) :
    ∃ reply e' w', (execute x).poll e w = (.done reply, e', w') ∧
      (execute x).LetsGo e w reply e' w' := by
  rcases hpoll : x.poll e w with ⟨t, e', w'⟩
  have hstop : Execution.Stops e w x (t, e', w') := by
    rcases Execution.proceeds x e w with hstop | ⟨x', e₁, w₁, hstride, -⟩
    · rwa [hpoll] at hstop
    -- A stride begins with a look at a token that is not cancelled.
    · cases hstride <;> simp_all
  cases hstop with
  | @busy q hbusy => exact ⟨_, e, w, by rw [poll, hpoll]; rfl, .same h (fun hs => hs rfl)⟩
  | @hostless q reason hs hhost =>
    refine ⟨_, _, _, by rw [poll, hpoll]; rfl, ?_⟩
    exact .fail h rfl rfl fun hs => absurd rfl hs
  | @cancelledFirst q host =>
    refine ⟨_, _, _, by rw [poll, hpoll]; rfl, ?_⟩
    exact .fail h rfl rfl fun hs => absurd rfl hs
  | @cancelled _ response =>
    refine ⟨_, _, _, by rw [poll, hpoll]; rfl, ?_⟩
    exact .fail h rfl rfl fun _ => ⟨_, rfl, rfl⟩
  | _ => simp_all

/-- A cancelled reading is over once it is asked. -/
theorem poll_read_of_isCancelled {size : Nat} (hlinked : (read size).IsLinked e)
    (h : e.isCancelled w = true) :
    ∃ reply e' w', (read size).poll e w = (.done reply, e', w') ∧
      (read size).LetsGo e w reply e' w' := by
  by_cases hs : e.stage = .readingBody
  · obtain ⟨r, hr⟩ := hlinked size rfl hs
    have hread : e.pollRead size w = (.done (.error .cancelled), e.fail w) := by
      simp [Exchange.pollRead, hs, hr, h]
    refine ⟨_, _, _, by rw [poll, hread]; rfl, ?_⟩
    exact .fail h rfl rfl fun _ => rfl
  · obtain ⟨r, hread, -⟩ := Course.pollRead_of_ne e w size hs
    exact ⟨_, e, w, by rw [poll, hread]; rfl, .same h hs⟩

/-- A cancelled operation is over once it is asked, unless it closes. -/
theorem poll_of_isCancelled (hlinked : op.IsLinked e) (h : e.isCancelled w = true)
    (hop : ¬ op.IsClosing) :
    ∃ reply e' w', op.poll e w = (.done reply, e', w') ∧ op.LetsGo e w reply e' w' := by
  cases op with
  | execute x => exact poll_execute_of_isCancelled x h
  | read size => exact poll_read_of_isCancelled hlinked h
  | close => exact absurd (.inl rfl) hop
  | closing => exact absurd (.inr rfl) hop

/-- A closing is over: where the wire was asked, it has answered, and the
connection is let go of. -/
structure Closed (op : Op) (e : Exchange) (w : Wire) (e' : Exchange) (w' : Wire) : Prop where
  still : e.isCancelled w = true → e'.isCancelled w' = true
  answered : op.AsksToClose e → ∃ r, w.close.1 = .ready r
  dropped : op.AsksToClose e → w'.dropped = true

/-- A closing waits, as the wire does. -/
structure Waits (op : Op) (e : Exchange) (w : Wire) (again : Bool) (e' : Exchange) (w' : Wire) :
    Prop where
  still : e.isCancelled w = true → e'.isCancelled w' = true
  asked : op.AsksToClose e
  waits : w.close.1 = .wait again

/-- The same question on behalf of an exchange that looks at the same token. -/
theorem poll_of_asksToClose {e₁ : Exchange} (hasks : op.AsksToClose e)
    (hpoll : ∀ t e' w', e₁.pollClosing w = (t, e', w') →
      op.poll e w = (t.map .closed (fun _ => .closing), e', w'))
    (he : e₁.cancelled = e.cancelled) : ∃ e' w',
      (∃ reply, op.poll e w = (.done reply, e', w') ∧ op.Closed e w e' w') ∨
        ∃ again, op.poll e w = (.wait again .closing, e', w') ∧ op.Waits e w again e' w' := by
  rcases hclose : w.close with ⟨answer, w'⟩
  have hstill : e.isCancelled w = true → e₁.isCancelled w' = true := by
    intro h
    rw [Exchange.isCancelled, he, Wire.cancelled_close hclose, ← Bool.or_assoc]
    exact Bool.or_eq_true_iff.mpr (.inl h)
  rcases e₁.pollClosing_of_close hclose with ⟨r, hdone, hready⟩ | ⟨again, hwait, hwaits⟩
  · refine ⟨e₁, w'.drop, .inl ⟨_, hpoll _ _ _ hdone, hstill, fun _ => ?_, fun _ => rfl⟩⟩
    rw [hclose]
    exact hready
  · refine ⟨e₁, w', .inr ⟨again, hpoll _ _ _ hwait, hstill, hasks, ?_⟩⟩
    rw [hclose]
    exact hwaits

/-- A closing waits for the wire and for nothing else: it is done where there
is no connection or the wire has answered, whether or not the token is set. -/
theorem poll_of_isClosing (hop : op.IsClosing) (e : Exchange) (w : Wire) : ∃ e' w',
    (∃ reply, op.poll e w = (.done reply, e', w') ∧ op.Closed e w e' w') ∨
      ∃ again, op.poll e w = (.wait again .closing, e', w') ∧ op.Waits e w again e' w' := by
  rcases hop with rfl | rfl
  · by_cases hconnected : e.connected = true
    · refine poll_of_asksToClose (.inr ⟨rfl, hconnected⟩) ?_ e.cancelled_interrupt
      intro t e' w' hpoll
      rw [poll, Exchange.pollClose, if_pos hconnected, hpoll]
    · have hidle : ¬ AsksToClose e .close := by simp [AsksToClose, hconnected]
      refine ⟨e.interrupt.unlink, w, .inl ⟨.closed (.ok ()), ?_, fun h => ?_, ?_, ?_⟩⟩
      · rw [poll, Exchange.pollClose, if_neg hconnected]
        rfl
      · rwa [Exchange.isCancelled, Exchange.cancelled_interrupt]
      · exact fun hasks => absurd hasks hidle
      · exact fun hasks => absurd hasks hidle
  · refine poll_of_asksToClose (.inl rfl) ?_ rfl
    intro t e' w' hpoll
    rw [poll, hpoll]

end Op

/-! ### Courses -/

namespace Course

variable {c : Course} {closes : Prop}

/-- Is the exchange cancelled? -/
def isCancelled (c : Course) : Bool := c.exchange.isCancelled c.wire

theorem step_ask {op : Op} (hop : c.pending = some op) :
    c.step .ask = c.settle (op.poll c.exchange c.wire) := by
  rw [Course.step, hop]

theorem step_ask_of_none (hnone : c.pending = none) : c.step .ask = c := by
  rw [Course.step, hnone]

/-- What a question leaves under way is suspended. -/
theorem isSuspended_ask {op : Op} (h : (c.step .ask).pending = some op) :
    op.IsSuspended (c.step .ask).exchange := by
  cases hpending : c.pending with
  | none =>
    rw [step_ask_of_none hpending, hpending] at h
    cases h
  | some op₁ =>
    rw [step_ask hpending] at h ⊢
    rcases hpoll : op₁.poll c.exchange c.wire with ⟨t, e, w⟩
    rw [hpoll] at h
    cases t with
    | done reply => cases h
    | wait again left =>
      cases h
      exact Op.isSuspended_of_wait hpoll

theorem Sound.isLinked (h : c.Sound closes) (op : Op) : op.IsLinked c.exchange := by
  rintro size - hs
  obtain ⟨hconnected, r, -, hr, -⟩ := h.exchange.of_reading hs
  exact ⟨r, Exchange.link_eq_some_iff.mpr ⟨hconnected, hr⟩⟩

/-- A token that is set stays set. -/
theorem Sound.isCancelled_step (h : c.Sound closes) (hcancelled : c.isCancelled = true)
    (deed : Deed) : (c.step deed).isCancelled = true := by
  cases deed with
  | begin call =>
    rw [Course.step]
    split <;> exact hcancelled
  | ask =>
    cases hpending : c.pending with
    | none => rwa [step_ask_of_none hpending]
    | some op =>
      rw [step_ask hpending]
      by_cases hop : op.IsClosing
      · obtain ⟨e, w, ⟨reply, hpoll, hclosed⟩ | ⟨again, hpoll, hwaits⟩⟩ :=
          Op.poll_of_isClosing hop c.exchange c.wire
        · rw [hpoll]
          exact hclosed.still hcancelled
        · rw [hpoll]
          exact hwaits.still hcancelled
      · obtain ⟨reply, e, w, hpoll, hgo⟩ :=
          Op.poll_of_isCancelled (h.isLinked op) hcancelled hop
        rw [hpoll]
        exact hgo.still
  | letGo =>
    rw [Course.step]
    split
    · exact hcancelled
    · next op hop =>
      show c.exchange.isCancelled (op.abandon c.wire) = true
      unfold Op.abandon
      split <;> exact hcancelled
  | cancel => rfl
  | abort =>
    rw [Course.step]
    split
    · exact hcancelled
    · show (c.exchange.abort c.wire).1.isCancelled _ = true
      unfold Exchange.abort
      split <;> rfl

theorem Sound.isCancelled_run : ∀ (deeds : List Deed) {c : Course}, c.Sound True →
    c.isCancelled = true → (c.run deeds).isCancelled = true
  | [], _, _, hcancelled => hcancelled
  | deed :: deeds, c, h, hcancelled => by
    have hstep := h.isCancelled_step hcancelled deed
    rw [run_cons]
    exact Sound.isCancelled_run deeds (h.step deed fun _ => trivial) hstep

/-- A question to an operation that does not close is its last one. -/
theorem Sound.ask_of_isCancelled (h : c.Sound closes) (hcancelled : c.isCancelled = true) {op : Op}
    (hop : c.pending = some op) (hcloses : ¬ op.IsClosing) : (c.step .ask).pending = none ∧
      ∃ reply, (c.step .ask).replies = c.replies ++ [reply] ∧
        op.LetsGo c.exchange c.wire reply (c.step .ask).exchange (c.step .ask).wire := by
  obtain ⟨reply, e, w, hpoll, hgo⟩ := Op.poll_of_isCancelled (h.isLinked op) hcancelled hcloses
  rw [step_ask hop, hpoll]
  exact ⟨rfl, reply, rfl, hgo⟩

/-- A question to a closing is answered as the wire answers it. -/
theorem ask_of_isClosing {op : Op} (hop : c.pending = some op) (hcloses : op.IsClosing) :
    (c.step .ask).pending = none ∧
        op.Closed c.exchange c.wire (c.step .ask).exchange (c.step .ask).wire ∨
      (c.step .ask).pending = some .closing ∧ ∃ again,
        op.Waits c.exchange c.wire again (c.step .ask).exchange (c.step .ask).wire := by
  obtain ⟨e, w, ⟨reply, hpoll, hclosed⟩ | ⟨again, hpoll, hwaits⟩⟩ :=
    Op.poll_of_isClosing hcloses c.exchange c.wire
  · rw [step_ask hop, hpoll]
    exact .inl ⟨rfl, hclosed⟩
  · rw [step_ask hop, hpoll]
    exact .inr ⟨rfl, again, hwaits⟩

/-- **Behind a cancellation only a closing can wait.** Once the token is set,
whatever else is done: a question to an execution or a reading that is under way
is its last, asks nothing of the wire and, if the operation was suspended,
reports the cancellation and lets go of the connection. A question to a closing
is answered as the wire answers it, so that it stays suspended exactly as long as
the wire makes it wait. -/
theorem cancelled_run (settings : Settings) (w : Wire) (before after : List Deed)
    (hcancelled : ((start settings w).run before).isCancelled = true) :
    let c := ((start settings w).run before).run after
    c.isCancelled = true ∧
      (∀ op, c.pending = some op → ¬ op.IsClosing → (c.step .ask).pending = none ∧
        ∃ reply, (c.step .ask).replies = c.replies ++ [reply] ∧
          op.LetsGo c.exchange c.wire reply (c.step .ask).exchange (c.step .ask).wire) ∧
      (∀ op, c.pending = some op → op.IsClosing →
        (c.step .ask).pending = none ∧
            op.Closed c.exchange c.wire (c.step .ask).exchange (c.step .ask).wire ∨
          (c.step .ask).pending = some .closing ∧ ∃ again,
            op.Waits c.exchange c.wire again (c.step .ask).exchange (c.step .ask).wire) ∧
      ∀ op, (c.step .ask).pending = some op →
        op = .closing ∧ ∃ again, c.wire.close.1 = .wait again := by
  intro c
  have hbefore : ((start settings w).run before).Sound True :=
    (sound_start settings w).run before fun _ => trivial
  have hsound : c.Sound True := hbefore.run after fun _ => trivial
  have hstill : c.isCancelled = true := hbefore.isCancelled_run after hcancelled
  refine ⟨hstill, fun op hop hcloses => hsound.ask_of_isCancelled hstill hop hcloses,
    fun op hop hcloses => ask_of_isClosing hop hcloses, fun left hleft => ?_⟩
  cases hpending : c.pending with
  | none =>
    rw [step_ask_of_none hpending, hpending] at hleft
    cases hleft
  | some op =>
    by_cases hcloses : op.IsClosing
    · rcases ask_of_isClosing hpending hcloses with ⟨hnone, -⟩ | ⟨hclosing, again, hwaits⟩
      · rw [hnone] at hleft
        cases hleft
      · rw [hclosing] at hleft
        cases hleft
        exact ⟨rfl, again, hwaits.waits⟩
    · have hnone := (hsound.ask_of_isCancelled hstill hpending hcloses).1
      rw [hnone] at hleft
      cases hleft

/-- A transport that hands a head over, and then nothing for a while. -/
def slowBody : Wire :=
  { arriving := [.bytes (Bytes.ofText "HTTP/1.1 200 OK\r\nContent-Length: 5\r\n\r\n"), .act .hang,
      .bytes (Bytes.ofText "hello")] }

theorem cancelled_run_reading :
    let c := (start {} slowBody).run
      [.begin (.execute plainRequest), .ask, .begin (.read 5), .ask, .cancel]
    c.isCancelled = true ∧ c.pending = some (.read 5) ∧ (c.step .ask).pending = none ∧
      (∃ reply, (c.step .ask).replies = c.replies ++ [reply] ∧ reply.IsCancelled) ∧
      (c.step .ask).exchange.stage = .failed ∧ (c.step .ask).wire.dropped = true := by
  intro c
  have hcancelled : c.isCancelled = true := by decide +kernel
  have hpending : c.pending = some (.read 5) := by decide +kernel
  have hs : c.exchange.stage = .readingBody := by decide +kernel
  have hconnected : c.exchange.connected = true := by decide +kernel
  obtain ⟨-, hasked, -⟩ := cancelled_run {} slowBody
    [.begin (.execute plainRequest), .ask, .begin (.read 5), .ask, .cancel] [] hcancelled
  obtain ⟨hnone, reply, hreply, hgo⟩ := hasked (.read 5) hpending (by simp [Op.IsClosing])
  exact ⟨hcancelled, hpending, hnone, ⟨reply, hreply, hgo.cancelled hs⟩, (hgo.failed hs).1,
    hgo.dropped hs (.inr hconnected)⟩

/-- A transport that cancels the exchange while it is closed, and hangs then. -/
def slowClose : Wire :=
  { arriving := [.bytes (Bytes.ofText "HTTP/1.1 200 OK\r\nContent-Length: 5\r\n\r\nhello")]
    closing := [.cancel, .hang] }

/-- A closing that is cancelled is asked again, and is not done. -/
theorem closing_waits :
    let c := (start {} slowClose).run
      [.begin (.execute plainRequest), .ask, .begin .close, .ask]
    c.isCancelled = true ∧ c.pending = some .closing ∧
      (c.step .ask).pending = some .closing := by
  decide +kernel

end Course
end Http1Client
