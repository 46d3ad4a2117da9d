/-
# Where a session stands

The execution is the first of the tasks of a session. As long as it is not done,
the exchange is at the stage that the execution has brought it to, and before it
takes the exchange nothing has happened to that. Behind it, the exchange reads
the body or is over, and the tasks that are left are readings
(`Session.Stands`). Every event keeps this (`Service.Standing.step`).

Key definitions: `Exchange.IsAnswered`, `Session.Stands`, `Service.Standing`.
Key theorems: `Execution.leaves_poll`, `Exchange.isAnswered_pollRead`,
`Service.Standing.step`.
-/
import Http1Client.Proofs.Background.Service
import Http1Client.Proofs.Holdings

namespace Http1Client

/-! ### Answers -/

namespace Exchange

/-- The execution has been answered: the exchange reads the body or is over. -/
def IsAnswered (e : Exchange) : Prop :=
  e.stage = .readingBody ∨ e.stage = .complete ∨ e.stage = .failed

variable {e : Exchange} {w : Wire}

theorem IsAnswered.of_stage {e' : Exchange} (h : e.IsAnswered) (hs : e'.stage = e.stage) :
    e'.IsAnswered := by
  rwa [IsAnswered, hs]

theorem isAnswered_fail (e : Exchange) (w : Wire) : (e.fail w).1.IsAnswered := .inr (.inr rfl)

/-- A reading stays where the execution is answered. -/
theorem isAnswered_pollRead (h : e.IsAnswered) (size : Nat) (w : Wire) :
    (e.pollRead size w).2.1.IsAnswered := by
  unfold pollRead
  split
  · exact h
  · split
    · exact isAnswered_fail ..
    · split
      · next d r' w' hpoll =>
        cases hlast : d.last with
        | true => exact .inr (.inl (by simp [advance]))
        | false => exact .inl (by simp [advance])
      · exact isAnswered_fail ..
      · exact h.of_stage rfl
  · exact h
  · exact h

theorem isAnswered_abort (h : e.IsAnswered) (w : Wire) : (e.abort w).1.IsAnswered := by
  unfold abort
  split
  · exact isAnswered_fail ..
  · exact h.of_stage rfl

theorem isAnswered_interrupt (h : e.IsAnswered) : e.interrupt.unlink.IsAnswered := by
  unfold interrupt
  split
  · exact .inr (.inr rfl)
  · exact h.of_stage rfl

/-- To abort a fresh exchange only cancels it. -/
theorem abort_of_idle (h : e.stage = .idle) (w : Wire) : e.abort w = (e.cancel, w) :=
  if_neg fun hbusy => hbusy.1 h

end Exchange

namespace Execution

/-- An execution that is done is answered, and one that is not has brought its
exchange to a stage. -/
def Leaves (e : Exchange) : Turn (Except FailedExecution Response) Execution → Prop
  | .done _ => e.IsAnswered
  | .wait _ x => e.stage = x.stage ∧ x.stage ≠ .idle

theorem leaves_poll {x : Execution} {e : Exchange} (h : e.stage = x.stage) (w : Wire) :
    Leaves (x.poll e w).2.1 (x.poll e w).1 := by
  refine poll_induct (P := fun x e _ => e.stage = x.stage) (Q := fun a => Leaves a.2.1 a.1)
    (fun _ hstride => hstride.stage_next) (fun hs hstop => ?_) h
  cases hstop with
  | busy hbusy => exact absurd hs hbusy
  | connecting => exact ⟨hs, by simp [stage]⟩
  | sendingHead => exact ⟨hs, by simp [stage]⟩
  | sendingBody => exact ⟨hs, by simp [stage]⟩
  | awaitingHead => exact ⟨hs, by simp [stage]⟩
  | head => exact .inl rfl
  | _ => exact Exchange.isAnswered_fail ..

end Execution

/-! ### Closing -/

namespace Exchange

theorem pollClosing_keeps (e : Exchange) (w : Wire) :
    (e.pollClosing w).2.1 = e ∧ (e.pollClosing w).2.2.dialled = w.dialled := by
  unfold pollClosing
  split <;> next h => exact ⟨rfl, (Wire.asked_close h).dialled⟩

/-- A closing that has asked its wire leaves the exchange alone. -/
theorem run_closing : ∀ (n : Nat) (e : Exchange) (w : Wire),
    (Op.closing.run n e w).2.1 = e ∧ (Op.closing.run n e w).2.2.dialled = w.dialled := by
  intro n
  induction n with
  | zero =>
    intro e w
    exact e.pollClosing_keeps w
  | succ n ih =>
    intro e w
    obtain ⟨he, hw⟩ := e.pollClosing_keeps w
    rcases hpoll : e.pollClosing w with ⟨result | ⟨again, u⟩, e', w'⟩
    all_goals
      rw [hpoll] at he hw
      obtain rfl : e' = e := he
    · have hrun : Op.closing.run (n + 1) e' w = (.done (.closed result), e', w') := by
        rw [Op.run.eq_def, Op.poll, hpoll]
        rfl
      rw [hrun]
      exact ⟨rfl, hw⟩
    · have hop : Op.closing.poll e' w = (.wait again .closing, e', w') := by
        rw [Op.poll, hpoll]
        rfl
      cases again with
      | true =>
        rw [Op.run_of_again hop]
        exact ⟨(ih e' w').1, (ih e' w').2.trans hw⟩
      | false =>
        have hrun : Op.closing.run (n + 1) e' w = (.wait false .closing, e', w') := by
          rw [Op.run.eq_def, hop]
        rw [hrun]
        exact ⟨rfl, hw⟩

/-- To close interrupts the exchange and lets go of its connection. -/
theorem carryOut_close (e : Exchange) (w : Wire) :
    (e.carryOut .close w).2.1 = e.interrupt.unlink ∧
      (e.carryOut .close w).2.2.dialled = w.dialled := by
  have hkeeps : (e.pollClose w).2.1 = e.interrupt.unlink ∧
      (e.pollClose w).2.2.dialled = w.dialled := by
    unfold pollClose
    split
    · exact pollClosing_keeps ..
    · exact ⟨rfl, rfl⟩
  rw [carryOut_eq, Op.poll]
  rcases hpoll : e.pollClose w with ⟨result | ⟨_ | _, u⟩, e', w'⟩
  all_goals rw [hpoll] at hkeeps
  · exact hkeeps
  · exact hkeeps
  · have hrun := run_closing (w'.events + 1) e' w'
    show (carryOut .closing e' w').2.1 = _ ∧ (carryOut .closing e' w').2.2.dialled = _
    unfold carryOut
    rcases hclosing : Op.closing.run (w'.events + 1) e' w' with ⟨result | ⟨again, op⟩, e'', w''⟩
    all_goals rw [hclosing] at hrun
    · exact ⟨hrun.1.trans hkeeps.1, hrun.2.trans hkeeps.2⟩
    · refine ⟨hrun.1.trans hkeeps.1, ?_⟩
      exact (op.abandon_frame Wire.dialled rfl).trans (hrun.2.trans hkeeps.2)

end Exchange

/-! ### Sessions -/

namespace Session

/-- Where a session stands with the execution of a request. -/
inductive Stands (q : Request) (s : Session) : Prop where
  /-- Nothing has happened to the exchange. -/
  | waits {ts : List Task} : s.running = none → s.waiting = .execute (.start q) :: ts →
      (∀ t ∈ ts, t.place ≠ 0) → s.exchange.stage = .idle → Stands q s
  | runs {x : Execution} {again : Bool} : s.running = some ⟨.execute x, again⟩ →
      (∀ t ∈ s.waiting, t.place ≠ 0) → x.At s.exchange → s.exchange.stage = x.stage →
      (∀ q', x = .start q' → q' = q) → Stands q s
  | reads : (∀ t ∈ s.tasks, t.place ≠ 0) → s.exchange.IsAnswered → Stands q s

variable {q : Request} {s s' : Session} {w : Wire} {closes : Prop}

theorem stands_start (settings : Settings) (q : Request) : (start settings q).Stands q :=
  .waits rfl rfl (by simp) rfl

theorem Stands.read (h : s.Stands q) (index size : Nat) : (s.read index size).Stands q := by
  have hread : (Task.read index size).place ≠ 0 := Nat.succ_ne_zero _
  have hmore : ∀ {ts : List Task}, (∀ t ∈ ts, t.place ≠ 0) →
      ∀ t ∈ ts ++ [.read index size], t.place ≠ 0 := by
    intro ts hts t ht
    rcases List.mem_append.mp ht with ht | ht
    · exact hts t ht
    · rwa [List.mem_singleton.mp ht]
  cases h with
  | waits hr hw hts hs => exact .waits hr (by rw [Session.read, hw]; rfl) (hmore hts) hs
  | runs hr hts hat hs hq => exact .runs hr (hmore hts) hat hs hq
  | reads hts he =>
    refine .reads ?_ he
    have htasks : (s.read index size).tasks = s.tasks ++ [.read index size] := by
      simp [tasks, Session.read]
    rw [htasks]
    exact hmore hts

theorem Stands.overtake (h : s.Stands q) (n : Nat) : (s.overtake n).Stands q := by
  cases h with
  | waits hr hw hts hs =>
    have hkept : s.overtake n = s := by simp [Session.overtake, hw, Task.place]
    rw [hkept]
    exact .waits hr hw hts hs
  | runs hr hts hat hs hq =>
    have hall : s.waiting.all (·.place != 0) = true := by simpa using hts
    have hperm := waiting_overtake_perm n s
    rw [Session.overtake, if_pos hall] at hperm ⊢
    exact .runs hr (fun t ht => hts t (hperm.mem_iff.mp ht)) hat hs hq
  | reads hts he =>
    refine .reads (fun t ht => hts t ((tasks_overtake_perm n s).mem_iff.mp ht)) ?_
    unfold Session.overtake
    split <;> exact he

theorem Stands.take (h : s.Stands q) : s.take.Stands q := by
  cases h with
  | waits hr hw hts hs =>
    rw [take_of_waiting hr hw]
    exact .runs rfl hts (Execution.at_start ..) hs fun q' h => (Execution.start.inj h).symm
  | runs hr hts hat hs hq =>
    rw [take_of_running hr]
    exact .runs hr hts hat hs hq
  | reads hts he =>
    rw [← tasks_take] at hts
    obtain htake | ⟨t, ts, -, -, htake⟩ := take_cases s
    · rw [htake] at hts ⊢
      exact .reads hts he
    · rw [htake] at hts ⊢
      exact .reads hts he

/-- Whoever has the exchange is the execution or a reading behind it. -/
theorem Stands.running (h : s.Stands q) {r : Running} (hr : s.running = some r) :
    (∀ t ∈ s.waiting, t.place ≠ 0) ∧
      ((∃ x, r.task = .execute x ∧ x.At s.exchange ∧ s.exchange.stage = x.stage ∧
        ∀ q', x = .start q' → q' = q) ∨
      ∃ index size, r.task = .read index size ∧ s.exchange.IsAnswered) := by
  cases h with
  | waits hnone => simp [hr] at hnone
  | runs hr' hts hat hs hq =>
    obtain rfl := Option.some.inj (hr.symm.trans hr')
    exact ⟨hts, .inl ⟨_, rfl, hat, hs, hq⟩⟩
  | reads hts he =>
    rw [tasks_of_running hr] at hts
    refine ⟨fun t ht => hts t (List.mem_cons_of_mem _ ht), .inr ?_⟩
    have hread := hts r.task (List.mem_cons_self ..)
    cases htask : r.task with
    | execute x => exact absurd rfl (htask ▸ hread)
    | read index size => exact ⟨index, size, rfl, he⟩

/-- Whoever is asked, the session stands again. -/
theorem Answers.stands {a : List Notice × Session × Wire} (ha : s.Answers w a)
    (hfires : s.Fires) (he : s.exchange.Sound closes) (h : s.Stands q) :
    a.2.1.Stands q ∧ a.2.1.exchange.Sound closes := by
  cases ha with
  | asleep => exact ⟨h, he⟩
  | @done r n e w' hr _ hpoll =>
    obtain ⟨o, hreport, -⟩ := hfires.report hr hpoll
    obtain ⟨hts, ⟨x, htask, hat, hs, -⟩ | ⟨index, size, htask, hanswered⟩⟩ := h.running hr
    all_goals
      rw [hreport]
      rw [htask] at hpoll
    · obtain ⟨t, hx, ht⟩ := Task.poll_execute hpoll
      obtain ⟨result, rfl, -⟩ := Turn.eq_done_of_map ht.symm
      have hleaves := Execution.leaves_poll hs w
      have hsound := Execution.sound_poll he hat w
      rw [hx] at hleaves hsound
      exact ⟨.reads hts hleaves, hsound.1⟩
    · obtain ⟨t, hread, -⟩ := Task.poll_read hpoll
      have hleaves := Exchange.isAnswered_pollRead hanswered size w
      have hsound := Exchange.sound_pollRead he size w
      rw [hread] at hleaves hsound
      exact ⟨.reads hts hleaves, hsound⟩
  | @waits r again t' e w' hr _ hpoll =>
    obtain ⟨hts, ⟨x, htask, hat, hs, -⟩ | ⟨index, size, htask, hanswered⟩⟩ := h.running hr
    all_goals rw [htask] at hpoll
    · obtain ⟨t, hx, ht⟩ := Task.poll_execute hpoll
      have hleaves := Execution.leaves_poll hs w
      have hsound := Execution.sound_poll he hat w
      rw [hx] at hleaves hsound
      cases t with
      | done result => cases ht
      | wait again' x' =>
        cases ht
        refine ⟨.runs rfl hts hsound.2 hleaves.1 fun q' hx' => ?_, hsound.1⟩
        rw [hx'] at hleaves
        exact absurd rfl hleaves.2
    · obtain ⟨t, hread, ht⟩ := Task.poll_read hpoll
      have hleaves := Exchange.isAnswered_pollRead hanswered size w
      have hsound := Exchange.sound_pollRead he size w
      rw [hread] at hleaves hsound
      cases t with
      | done result => cases ht
      | wait again' u =>
        cases ht
        refine ⟨.reads ?_ hleaves, hsound⟩
        rw [tasks_of_running (r := ⟨.read index size, again⟩) rfl]
        intro t ht
        rcases List.mem_cons.mp ht with rfl | ht
        · exact Nat.succ_ne_zero _
        · exact hts t ht

theorem Stands.cancel (h : s.Stands q) (w : Wire) : (s.cancel w).1.Stands q := by
  cases h with
  | waits hr hw hts hs =>
    simp only [Session.cancel, hr, Exchange.abort_of_idle hs]
    exact .waits rfl hw hts hs
  | runs hr hts hat hs hq =>
    simp only [Session.cancel, hr]
    exact .runs rfl hts hat.cancel hs hq
  | reads hts he =>
    unfold Session.cancel
    split
    · exact .reads hts (he.of_stage rfl)
    · exact .reads hts (Exchange.isAnswered_abort he w)

/-- A session that has no work left stands behind its execution. -/
theorem Stands.of_free (h : s.Stands q) (hfree : s.isFree = true) : s.exchange.IsAnswered := by
  rw [isFree, Bool.and_eq_true, Option.isNone_iff_eq_none, List.isEmpty_iff] at hfree
  cases h with
  | waits _ hw => simp [hfree.2] at hw
  | runs hr => simp [hfree.1] at hr
  | reads _ he => exact he

end Session

/-! ### Services -/

namespace Service

/-- The session stands with its execution, and its exchange holds what it may. -/
structure Standing (q : Request) (v : Service) : Prop where
  accounted : v.Accounted
  stands : v.session.Stands q
  sound : v.session.exchange.Sound True

variable {q : Request} {v v' : Service} {event : Background.Event}

theorem standing_start (settings : Settings) (wire : Wire) (q : Request) :
    (start settings wire q).Standing q :=
  ⟨accounted_start settings wire q, Session.stands_start settings q,
    ⟨.nothing rfl rfl rfl rfl, rfl⟩⟩

theorem Standing.take (h : v.Standing q) : { v with session := v.session.take }.Standing q := by
  refine ⟨h.accounted.take, h.stands.take, ?_⟩
  obtain htake | ⟨t, ts, -, -, htake⟩ := v.session.take_cases
  all_goals
    dsimp only
    rw [htake]
    exact h.sound

theorem Standing.ask (h : v.Standing q) : (v.tell (v.session.ask v.wire)).Standing q := by
  have hanswers := v.session.answers_ask v.wire
  obtain ⟨hstands, hsound⟩ := hanswers.stands h.accounted.fires h.sound h.stands
  exact ⟨h.accounted.ask, hstands, hsound⟩

theorem Standing.cancel (h : v.Standing q) : Standing q
    { v with
      session := (v.session.cancel v.wire).1
      wire := (v.session.cancel v.wire).2 } := by
  refine ⟨h.accounted.cancel, h.stands.cancel v.wire, ?_⟩
  dsimp only [Session.cancel]
  split
  · exact h.sound.cancel
  · exact Exchange.sound_abort h.sound v.wire

/-- Every event leaves the session standing. -/
theorem Standing.step (h : v.Standing q) (hstep : v.Step event v') : v'.Standing q := by
  have haccounted := h.accounted.step hstep
  cases hstep with
  | gone => exact h
  | reads size => exact ⟨haccounted, h.stands.read .., h.sound⟩
  | overtakes n =>
    refine ⟨haccounted, h.stands.overtake n, ?_⟩
    dsimp only [Session.overtake]
    split <;> exact h.sound
  | takes => exact h.take
  | asks => exact h.ask
  | settles hworks =>
    exact hworks.induct
      (P := fun told s w => Standing q { v with session := s, wire := w, told })
      (fun h => h.take) (fun h => h.ask) h
  | cancels => exact h.cancel
  | closes _ hfree =>
    obtain ⟨he, -⟩ := v.session.exchange.carryOut_close v.wire
    have hanswered := Exchange.isAnswered_interrupt (h.stands.of_free hfree)
    have hsound := h.sound.interrupt trivial
    rw [← he] at hanswered hsound
    rw [Session.isFree, Bool.and_eq_true, Option.isNone_iff_eq_none, List.isEmpty_iff] at hfree
    exact ⟨haccounted, .reads (by simp [Session.tasks, hfree.1, hfree.2]) hanswered, hsound⟩
  | busy => exact h
  | releases => exact ⟨haccounted, h.stands, h.sound⟩

end Service
end Http1Client
