/-
# Nothing succeeds behind a cancellation

Whoever is asked on behalf of a cancelled exchange looks at the token first and
fails, without a question to the wire: an execution at any of its points
(`Execution.poll_of_cancelled`), and a reading wherever the body is not complete
(`Exchange.pollRead_of_cancelled`). So once a session is cancelled whose exchange
is not complete, whatever else happens, what it reports is that it was cancelled,
nothing is dialled, and its exchange never becomes complete
(`Service.Cancelled.step`). Its tasks end when they are let to work, and then the
exchange has failed (`Background.cancel_run`).

Key definitions: `Notice.IsCancelled`, `Service.Cancelled`.
Key theorems: `Execution.poll_of_cancelled`, `Exchange.pollRead_of_cancelled`,
`Service.Cancelled.step`, `Background.cancel_run`.
-/
import Http1Client.Proofs.Background.Standing

namespace Http1Client

/-! ### Who is asked -/

/-- The failure tells that the execution was cancelled, or that its request
names no host. -/
def Failure.IsCancelledOf (q : Request) (f : Failure) : Prop :=
  f = .cancelled ∨ q.head.uri.host = none ∧ ∃ reason, f = .invalidRequest reason

/-- What was cancelled is reported as such. -/
def Notice.IsCancelled (q : Request) : Notice → Prop
  | completed r => ∃ f : FailedExecution, r = .error f ∧ f.failure.IsCancelledOf q
  | read _ r => r = .error .cancelled

namespace Exchange

/-- The exchange has failed behind its cancellation. -/
structure IsGivenUp (e : Exchange) : Prop where
  stage : e.stage = .failed
  cancelled : e.cancelled = true

variable {closes : Prop} {e : Exchange} {w : Wire}

theorem isCancelled_of_cancelled (h : e.cancelled = true) (w : Wire) : e.isCancelled w = true := by
  rw [isCancelled, h]
  rfl

theorem isGivenUp_fail (h : e.cancelled = true) (w : Wire) : (e.fail w).1.IsGivenUp := ⟨rfl, h⟩

/-- An exchange that was aborted is not inside the body. -/
theorem abort_gives (e : Exchange) (w : Wire) :
    (e.abort w).1.cancelled = true ∧ (e.abort w).1.stage ≠ .readingBody ∧
      (e.abort w).2.dialled = w.dialled := by
  unfold abort
  split
  · exact ⟨rfl, fun h => (by cases h), fail_frame Wire.dialled rfl _⟩
  · next hbusy =>
    refine ⟨rfl, fun hs => hbusy ?_, rfl⟩
    rw [show e.stage = .readingBody from hs]
    decide

theorem complete_of_abort (h : (e.abort w).1.stage = .complete) : e.stage = .complete := by
  unfold abort at h
  split at h
  · cases h
  · exact h

/-- A cancelled reading fails, unless the body is complete. -/
theorem pollRead_of_cancelled (hcancelled : e.cancelled = true) (he : e.IsAnswered)
    (hsound : e.Sound closes) (hcomplete : e.stage ≠ .complete) (size : Nat) (w : Wire) :
    ∃ e' w', e.pollRead size w = (.done (.error .cancelled), e', w') ∧ e'.IsGivenUp ∧
      w'.dialled = w.dialled := by
  have hlook := isCancelled_of_cancelled hcancelled w
  rcases he with hs | hs | hs
  · obtain ⟨hconnected, r, d, hr, -⟩ := hsound.of_reading hs
    have hlink : e.link = some r := link_eq_some_iff.mpr ⟨hconnected, hr⟩
    refine ⟨_, _, ?_, isGivenUp_fail hcancelled w, e.fail_frame Wire.dialled rfl⟩
    simp [pollRead, hs, hlink, hlook]
  · exact absurd hs hcomplete
  · refine ⟨e, w, ?_, ⟨hs, hcancelled⟩, rfl⟩
    simp [pollRead, hs, hlook]

end Exchange

namespace Execution

/-- A cancelled execution fails, wherever it is. -/
theorem poll_of_cancelled {x : Execution} {e : Exchange} {q : Request}
    (hcancelled : e.cancelled = true) (hs : e.stage = x.stage) (hq : ∀ q', x = .start q' → q' = q)
    (w : Wire) : ∃ f e' w', x.poll e w = (.done (.error f), e', w') ∧
      f.failure.IsCancelledOf q ∧ e'.IsGivenUp ∧ w'.dialled = w.dialled := by
  have hlook := Exchange.isCancelled_of_cancelled hcancelled w
  have hfailed : ∀ (f : Failure) (e₁ : Exchange) (w₁ : Wire), e₁.cancelled = true →
      w₁.dialled = w.dialled → f.IsCancelledOf q → ∃ f' e' w',
        failed f e₁ w₁ = (.done (.error f'), e', w') ∧ f'.failure.IsCancelledOf q ∧
          e'.IsGivenUp ∧ w'.dialled = w.dialled := by
    intro f e₁ w₁ he₁ hw₁ hf
    exact ⟨_, _, _, rfl, hf, Exchange.isGivenUp_fail he₁ w₁,
      (e₁.fail_frame Wire.dialled rfl).trans hw₁⟩
  rcases proceeds x e w with hstop | ⟨x', e', w', hstride, -⟩
  · generalize x.poll e w = a at hstop ⊢
    cases hstop with
    | busy hbusy => exact absurd hs hbusy
    | @hostless q' reason _ hhost =>
      obtain rfl := hq q' rfl
      exact hfailed _ _ _ hcancelled rfl (.inr ⟨hhost, reason, rfl⟩)
    | cancelledFirst => exact hfailed _ _ _ hcancelled rfl (.inl rfl)
    | @cancelled _ response =>
      exact hfailed _ { e with response } _ hcancelled (Op.abandon_frame Wire.dialled rfl _)
        (.inl rfl)
    -- The other stops are behind a look at a token that is not cancelled.
    | _ => simp_all
  · cases hstride <;> simp_all

end Execution

/-- Who has a cancelled exchange is done once it is asked. -/
theorem Session.Stands.poll_of_cancelled {q : Request} {s : Session} {r : Running}
    (h : s.Stands q) (hr : s.running = some r) (hcancelled : s.exchange.cancelled = true)
    (hsound : s.exchange.Sound True) (hcomplete : s.exchange.stage ≠ .complete) (w : Wire) :
    ∃ n e w', r.task.poll s.exchange w = (.done n, e, w') ∧ n.IsCancelled q ∧ e.IsGivenUp ∧
      w'.dialled = w.dialled := by
  obtain ⟨-, ⟨x, htask, -, hs, hq⟩ | ⟨index, size, htask, hanswered⟩⟩ := h.running hr
  · obtain ⟨f, e, w', hpoll, hf, he, hw⟩ := Execution.poll_of_cancelled hcancelled hs hq w
    refine ⟨.completed (.error f), e, w', ?_, ⟨f, rfl, hf⟩, he, hw⟩
    rw [htask, Task.poll, hpoll]
    rfl
  · obtain ⟨e, w', hpoll, he, hw⟩ :=
      Exchange.pollRead_of_cancelled hcancelled hanswered hsound hcomplete size w
    refine ⟨.read index (.error .cancelled), e, w', ?_, rfl, he, hw⟩
    rw [htask, Task.poll, hpoll]
    rfl

/-! ### A session that is cancelled -/

namespace Service

/-- The session was cancelled when its exchange was not complete, `told` was
reported and `dialled` was dialled. -/
structure Cancelled (q : Request) (told : List Notice) (dialled : List (List Char × Nat))
    (v : Service) : Prop where
  standing : v.Standing q
  cancelled : v.session.exchange.cancelled = true
  incomplete : v.session.exchange.stage ≠ .complete
  /-- Only a reading that has the exchange may still be inside the body. -/
  given : v.session.running = none → v.session.exchange.stage ≠ .readingBody
  reports : ∃ later, v.told = told ++ later ∧ ∀ n ∈ later, n.IsCancelled q
  dials : v.wire.dialled = dialled

variable {q : Request} {told : List Notice} {dialled : List (List Char × Nat)} {v v' : Service}
  {event : Background.Event}

theorem Cancelled.take (h : v.Cancelled q told dialled) :
    { v with session := v.session.take }.Cancelled q told dialled := by
  have hstanding := h.standing.take
  obtain htake | ⟨t, ts, -, -, htake⟩ := v.session.take_cases
  · rw [htake]
    exact h
  · rw [htake] at hstanding ⊢
    exact ⟨hstanding, h.cancelled, h.incomplete, fun hnone => (by cases hnone), h.reports, h.dials⟩

/-- Who is asked reports the cancellation. -/
theorem Cancelled.ask (h : v.Cancelled q told dialled) :
    (v.tell (v.session.ask v.wire)).Cancelled q told dialled := by
  have hstanding := h.standing.ask
  have hanswers := v.session.answers_ask v.wire
  have hfires := h.standing.accounted.fires
  have hpolls := fun r (hr : v.session.running = some r) =>
    h.standing.stands.poll_of_cancelled hr h.cancelled h.standing.sound h.incomplete v.wire
  revert hstanding
  generalize v.session.ask v.wire = a at hanswers ⊢
  intro hstanding
  obtain ⟨later, hlater, hall⟩ := h.reports
  cases hanswers with
  | asleep =>
    refine ⟨hstanding, h.cancelled, h.incomplete, h.given, ⟨later, ?_, hall⟩, h.dials⟩
    rw [tell, List.append_nil, hlater]
  | @done r n e w' hr _ hpoll =>
    obtain ⟨n', e', w'', hpoll', hn, he, hw⟩ := hpolls r hr
    rw [hpoll] at hpoll'
    cases hpoll'
    obtain ⟨o, hreport, -⟩ := hfires.report hr hpoll
    rw [hreport] at hstanding ⊢
    refine ⟨hstanding, he.cancelled, ?_, fun _ => ?_, ⟨later ++ [n], ?_, ?_⟩, hw.trans h.dials⟩
    · simp [tell, he.stage]
    · simp [tell, he.stage]
    · simp [tell, hlater]
    · intro m hm
      rcases List.mem_append.mp hm with hm | hm
      · exact hall m hm
      · rwa [List.mem_singleton.mp hm]
  | @waits r again t' e w' hr _ hpoll =>
    obtain ⟨n', e', w'', hpoll', -⟩ := hpolls r hr
    rw [hpoll] at hpoll'
    cases hpoll'

/-- To cancel an exchange that is not complete leaves it inside the body only
where a task has it. -/
theorem cancel_incomplete {s : Session} (hcomplete : s.exchange.stage ≠ .complete) (w : Wire) :
    (s.cancel w).1.exchange.cancelled = true ∧ (s.cancel w).1.exchange.stage ≠ .complete ∧
      ((s.cancel w).1.running = none → (s.cancel w).1.exchange.stage ≠ .readingBody) ∧
      (s.cancel w).2.dialled = w.dialled := by
  cases hr : s.running with
  | some r =>
    simp only [Session.cancel, hr]
    exact ⟨rfl, hcomplete, fun hnone => (by cases hnone), trivial⟩
  | none =>
    obtain ⟨hcancelled, hreading, hdialled⟩ := s.exchange.abort_gives w
    simp only [Session.cancel, hr]
    exact ⟨hcancelled, fun h => hcomplete (Exchange.complete_of_abort h), fun _ => hreading,
      hdialled⟩

/-- A cancelled session whose exchange is not complete reports nothing else. -/
theorem Standing.cancelled (h : v.Standing q) (hcomplete : v.session.exchange.stage ≠ .complete)
    (hreports : ∃ later, v.told = told ++ later ∧ ∀ n ∈ later, n.IsCancelled q)
    (hdials : v.wire.dialled = dialled) : Cancelled q told dialled
      { v with
        session := (v.session.cancel v.wire).1
        wire := (v.session.cancel v.wire).2 } := by
  obtain ⟨hcancelled, hstage, hgiven, hdialled⟩ := cancel_incomplete hcomplete v.wire
  exact ⟨h.cancel, hcancelled, hstage, hgiven, hreports, hdialled.trans hdials⟩

/-- A cancelled session that has no work left has failed. -/
theorem Cancelled.failed (h : v.Cancelled q told dialled) (hfree : v.session.isFree = true) :
    v.session.exchange.stage = .failed := by
  have hanswered := h.standing.stands.of_free hfree
  rw [Session.isFree, Bool.and_eq_true, Option.isNone_iff_eq_none] at hfree
  rcases hanswered with hs | hs | hs
  · exact absurd hs (h.given hfree.1)
  · exact absurd hs h.incomplete
  · exact hs

/-- Nothing succeeds behind a cancellation. -/
theorem Cancelled.step (h : v.Cancelled q told dialled) (hstep : v.Step event v') :
    v'.Cancelled q told dialled := by
  have hstanding := h.standing.step hstep
  cases hstep with
  | gone => exact h
  | reads size => exact ⟨hstanding, h.cancelled, h.incomplete, h.given, h.reports, h.dials⟩
  | overtakes n =>
    have he : (v.session.overtake n).exchange = v.session.exchange := by
      unfold Session.overtake
      split <;> rfl
    have hr : (v.session.overtake n).running = v.session.running := by
      unfold Session.overtake
      split <;> rfl
    refine ⟨hstanding, ?_, ?_, ?_, h.reports, h.dials⟩
    all_goals
      dsimp only
      rw [he]
    · exact h.cancelled
    · exact h.incomplete
    · rw [hr]
      exact h.given
  | takes => exact h.take
  | asks => exact h.ask
  | settles hworks =>
    exact hworks.induct (P := fun told' s w =>
        Cancelled q told dialled { v with session := s, wire := w, told := told' })
      (fun h => h.take) (fun h => h.ask) h
  | cancels => exact h.standing.cancelled h.incomplete h.reports h.dials
  | closes _ hfree =>
    obtain ⟨he, hw⟩ := v.session.exchange.carryOut_close v.wire
    have hs := h.failed hfree
    have hkept : v.session.exchange.interrupt = v.session.exchange := by
      simp [Exchange.interrupt, hs, Stage.isTerminal]
    rw [hkept] at he
    refine ⟨hstanding, ?_, ?_, ?_, h.reports, hw.trans h.dials⟩
    all_goals
      dsimp only
      rw [he]
    · exact h.cancelled
    · exact h.incomplete
    · exact h.given
  | busy => exact h
  | releases => exact ⟨hstanding, h.cancelled, h.incomplete, h.given, h.reports, h.dials⟩

/-- The work of a cancelled session ends. -/
theorem Cancelled.isFree (h : v.Cancelled q told dialled) (hstill : v.session.IsStill v.wire) :
    v.session.isFree = true := by
  have hlook := Exchange.isCancelled_of_cancelled h.cancelled v.wire
  cases hr : v.session.running with
  | none => simp [Session.isFree, hr, hstill.waiting hr]
  | some r =>
    have hasleep := (hstill.asleep r hr).2
    rw [hlook] at hasleep
    cases hasleep

end Service

namespace Client

/-- The sessions of a client. -/
def sessions (c : Client) : List Session := c.released ++ c.current.toList

end Client

theorem Service.eq_of_mem_sessions (settings : Settings) {v : Service} {s : Session}
    (h : s ∈ (v.client settings).sessions) : s = v.session := by
  revert h
  refine client_cases (P := fun c => s ∈ c.sessions → s = v.session) settings v
    (fun _ => ?held) (fun _ _ => ?free) (fun _ _ => ?busy)
  all_goals simp [Client.sessions]

namespace Background

/-- **Nothing succeeds behind a cancellation.** Whatever happened before, once
the exchange is cancelled when it is not complete, whatever happens then: all
that is reported is that the execution, if it was not reported of yet, and the
readings were cancelled, or that the request names no host; nothing is dialled;
and no exchange ever is complete. Once the tasks have worked until none can go
on, each of them was reported of once, and the exchange has failed. -/
theorem cancel_run (settings : Settings) (wire : Wire) (q : Request)
    (before after : List Event) {s : Session}
    (hcurrent : ((start settings wire q).run before).client.current = some s)
    (hcomplete : s.exchange.stage ≠ .complete) :
    let b := (start settings wire q).run before
    let cancelled := (b.step .cancels).run after
    let settled := cancelled.step .settles
    (∃ later, cancelled.told = b.told ++ later ∧ ∀ n ∈ later, n.IsCancelled q) ∧
      cancelled.client.wire.dialled = b.client.wire.dialled ∧
      (∀ s' ∈ cancelled.client.sessions, s'.exchange.stage ≠ .complete ∧
        (s'.isFree = true → s'.exchange.stage = .failed)) ∧
      (settled.told.map Notice.place).Perm (List.range (settled.sizes.length + 1)) ∧
      (∀ s' ∈ settled.client.sessions, s'.isFree = true ∧ s'.exchange.stage = .failed) := by
  intro b cancelled settled
  obtain ⟨v, h, hrun⟩ := Service.run_background settings before
    (fun _ _ _ _ h hstep => h.step hstep) (Service.standing_start settings wire q)
  have hb : b = v.background settings := hrun
  have hclient : ((start settings wire q).run before).client = v.client settings :=
    congrArg client hrun
  rw [hclient, Service.current_client] at hcurrent
  obtain ⟨hheld, rfl⟩ := hcurrent
  obtain ⟨v₁, hstep₁, hv₁⟩ := Service.step_background settings v .cancels
  have h₁ : v₁.Cancelled q v.told v.wire.dialled := by
    cases hstep₁ with
    | gone hgone => simp [hheld] at hgone
    | cancels => exact h.cancelled hcomplete ⟨[], (List.append_nil _).symm, by simp⟩ rfl
  obtain ⟨v₂, h₂, hrun₂⟩ := Service.run_background settings after
    (fun _ _ _ _ h hstep => h.step hstep) h₁
  have hcancelled : cancelled = v₂.background settings := by rw [← hrun₂, ← hv₁, ← hb]
  obtain ⟨v₃, hstep₃, hv₃⟩ := Service.step_background settings v₂ .settles
  have h₃ := h₂.step hstep₃
  have hsettled : settled = v₃.background settings := by rw [← hv₃, ← hcancelled]
  have hfree := h₃.isFree hstep₃.of_settles.1
  refine ⟨?_, ?_, fun s' hs' => ?_, ?_, fun s' hs' => ?_⟩
  · rw [hcancelled, hb]
    exact h₂.reports
  · rw [hcancelled, hb]
    show (v₂.client settings).wire.dialled = (v.client settings).wire.dialled
    rw [Service.client_frame settings Wire.dialled rfl,
      Service.client_frame settings Wire.dialled rfl, h₂.dials]
  · rw [hcancelled] at hs'
    obtain rfl := Service.eq_of_mem_sessions settings hs'
    exact ⟨h₂.incomplete, h₂.failed⟩
  · rw [hsettled]
    have hplaces := h₃.standing.accounted.places
    rw [Session.isFree, Bool.and_eq_true, Option.isNone_iff_eq_none, List.isEmpty_iff] at hfree
    rw [Session.tasks_of_none hfree.1, hfree.2, List.map_nil, List.append_nil] at hplaces
    exact hplaces
  · rw [hsettled] at hs'
    obtain rfl := Service.eq_of_mem_sessions settings hs'
    exact ⟨hfree, h₃.failed hfree⟩

/-- A transport that never connects. -/
def hangingWire : Wire := { connecting := [.hang] }

theorem cancel_run_hanging :
    let b := (start {} hangingWire plainRequest).run [.takes, .asks, .reads 4]
    let settled := (b.step .cancels).run [.settles]
    b.client.wire.dialled = [(['a'], 80)] ∧ settled.client.wire.dialled = [(['a'], 80)] ∧
      (∀ n ∈ settled.told, n.IsCancelled plainRequest) ∧
      ((settled.step .settles).told.map Notice.place).Perm [0, 1] := by
  intro b settled
  obtain ⟨s, hcurrent, hstage⟩ : ∃ s, b.client.current = some s ∧ s.exchange.stage = .connecting :=
    ⟨_, rfl, rfl⟩
  have hcomplete : s.exchange.stage ≠ .complete := by simp [hstage]
  obtain ⟨⟨later, htold, hall⟩, hdialled, -, hplaces, -⟩ :=
    cancel_run {} hangingWire plainRequest [.takes, .asks, .reads 4] [.settles] hcurrent hcomplete
  replace htold : settled.told = [] ++ later := htold
  have hb : b.client.wire.dialled = [(['a'], 80)] := rfl
  refine ⟨hb, hdialled.trans hb, ?_, hplaces⟩
  rw [htold]
  exact hall

end Background
end Http1Client
