/-
# The steps of a session

A session works in small steps: the task that waits first takes the exchange,
or the one that has it is asked for progress. All that a session does on its
own is made of these two (`Session.works_turn`), so what both keep, `turn`
keeps (`Session.Works.induct`).

A task has a place, the execution the first one and the readings the ones
behind it in the order of their start, and so has the report of its result.
Working neither loses a place nor makes one (`Session.Answers.places`). And the
work comes to an end: behind `Session.turn` a task that is worth asking again
has used up an event of the wire (`Session.rests_turn`).

Key definitions: `Task.place`, `Notice.place`, `Session.take`, `Session.ask`,
`Session.Answers`, `Session.Works`, `Session.IsStill`, `Session.Fires`.
Key theorems: `Session.answers_ask`, `Session.Answers.places`,
`Session.works_turn`, `Session.rests_turn`.
-/
import Http1Client.Client
import Http1Client.Proofs.Course
import Http1Client.Proofs.Patience

namespace Http1Client

/-! ### Tasks and reports -/

namespace Notice

/-- The task that is reported of: the execution is at place zero, and the
readings follow. -/
def place : Notice → Nat
  | completed _ => 0
  | read index _ => index + 1

/-- The result that is reported. -/
def reply : Notice → Reply
  | completed r => .executed r
  | read _ r => .delivered r

end Notice

namespace Task

/-- Where the task stands among those of its session, in the order of their
start. -/
def place : Task → Nat
  | execute _ => 0
  | read index _ => index + 1

/-- What the task does with the exchange. -/
def op : Task → Op
  | execute x => .execute x
  | read _ size => .read size

variable {t t' : Task} {n : Notice} {again : Bool} {e e' : Exchange} {w w' : Wire}

/-- A task is asked as its operation is. -/
theorem op_poll (t : Task) (e : Exchange) (w : Wire) :
    t.op.poll e w = ((t.poll e w).1.map Notice.reply op, (t.poll e w).2) := by
  cases t with
  | execute x =>
    rcases hx : x.poll e w with ⟨result | ⟨again, x'⟩, e', w'⟩ <;>
      simp [op, Op.poll, poll, hx, Turn.map, Notice.reply]
  | read index size =>
    rcases hr : e.pollRead size w with ⟨result | ⟨again, u⟩, e', w'⟩ <;>
      simp [op, Op.poll, poll, hr, Turn.map, Notice.reply]

theorem spends_poll (t : Task) (e : Exchange) (w : Wire) :
    (t.poll e w).2.2.events + (t.poll e w).1.cost ≤ w.events := by
  have hspends := t.op.spends_poll e w
  rwa [op_poll, Turn.cost_map] at hspends

theorem poll_execute {x : Execution} {turn : Turn Notice Task}
    (h : (execute x).poll e w = (turn, e', w')) : ∃ left,
    x.poll e w = (left, e', w') ∧ turn = left.map .completed .execute := by
  rcases hx : x.poll e w with ⟨left, e₁, w₁⟩
  simp only [poll, hx, Prod.mk.injEq] at h
  obtain ⟨rfl, rfl, rfl⟩ := h
  exact ⟨left, rfl, rfl⟩

theorem poll_read {index size : Nat} {turn : Turn Notice Task}
    (h : (read index size).poll e w = (turn, e', w')) : ∃ left,
    e.pollRead size w = (left, e', w') ∧
      turn = left.map (.read index) fun _ => .read index size := by
  rcases hr : e.pollRead size w with ⟨left, e₁, w₁⟩
  simp only [poll, hr, Prod.mk.injEq] at h
  obtain ⟨rfl, rfl, rfl⟩ := h
  exact ⟨left, rfl, rfl⟩

theorem place_of_done (h : t.poll e w = (.done n, e', w')) : n.place = t.place := by
  cases t with
  | execute x =>
    obtain ⟨left, -, hleft⟩ := poll_execute h
    obtain ⟨result, -, rfl⟩ := Turn.eq_done_of_map hleft.symm
    rfl
  | read index size =>
    obtain ⟨left, -, hleft⟩ := poll_read h
    obtain ⟨result, -, rfl⟩ := Turn.eq_done_of_map hleft.symm
    rfl

theorem place_of_wait (h : t.poll e w = (.wait again t', e', w')) : t'.place = t.place := by
  cases t with
  | execute x =>
    obtain ⟨_ | ⟨again, x'⟩, -, hleft⟩ := poll_execute h
    all_goals cases hleft
    rfl
  | read index size =>
    obtain ⟨_ | ⟨again, u⟩, -, hleft⟩ := poll_read h
    all_goals cases hleft
    rfl

end Task

/-! ### A task that is not worth asking again -/

/-- Who is not to be asked again is not cancelled. -/
def Turn.IsSteady {ρ ω : Type} (t : Turn ρ ω) (cancelled : Bool) : Prop :=
  ∀ left, t = .wait false left → cancelled = false

theorem Turn.IsSteady.map {ρ ρ' ω ω' : Type} {t : Turn ρ ω} {cancelled : Bool}
    (h : t.IsSteady cancelled) (f : ρ → ρ') (g : ω → ω') : (t.map f g).IsSteady cancelled := by
  intro left hleft
  cases t with
  | done result => cases hleft
  | wait again left' =>
    cases hleft
    exact h left' rfl

theorem Turn.isSteady_or {ρ ω : Type} (again cancelled : Bool) (left : ω) :
    (Turn.wait (again || cancelled) left : Turn ρ ω).IsSteady cancelled := by
  intro left' h
  cases cancelled with
  | false => rfl
  | true => simp at h

theorem Execution.isSteady_poll (x : Execution) (e : Exchange) (w : Wire) :
    (x.poll e w).1.IsSteady ((x.poll e w).2.1.isCancelled (x.poll e w).2.2) := by
  refine poll_induct (P := fun _ _ _ => True)
    (Q := fun a => a.1.IsSteady (a.2.1.isCancelled a.2.2)) (fun _ _ => trivial)
    (fun _ hstop => ?_) trivial
  cases hstop with
  | connecting => exact Turn.isSteady_or _ _ _
  | sendingHead => exact Turn.isSteady_or _ _ _
  | sendingBody => exact Turn.isSteady_or _ _ _
  | awaitingHead => exact Turn.isSteady_or _ _ _
  | _ => exact fun left h => by cases h

theorem Exchange.isSteady_pollRead (size : Nat) (e : Exchange) (w : Wire) :
    (e.pollRead size w).1.IsSteady ((e.pollRead size w).2.1.isCancelled (e.pollRead size w).2.2) := by
  unfold pollRead
  split
  · exact fun left h => by cases h
  · split
    · exact fun left h => by cases h
    · split
      · exact fun left h => by cases h
      · exact fun left h => by cases h
      · exact Turn.isSteady_or _ _ _
  · exact fun left h => by cases h
  · exact fun left h => by cases h

theorem Task.isSteady_poll (t : Task) (e : Exchange) (w : Wire) :
    (t.poll e w).1.IsSteady ((t.poll e w).2.1.isCancelled (t.poll e w).2.2) := by
  cases t with
  | execute x => exact (x.isSteady_poll e w).map _ _
  | read index size => exact (e.isSteady_pollRead size w).map _ _

/-! ### Small steps -/

namespace Session

/-- The tasks that are not done, the one that has the exchange first. -/
def tasks (s : Session) : List Task := (s.running.map Running.task).toList ++ s.waiting

/-- The task that waits first takes the exchange, if no task has it. -/
def take (s : Session) : Session :=
  match s.running, s.waiting with
  | none, task :: tasks => { s with running := some ⟨task, true⟩, waiting := tasks }
  | _, _ => s

/-- Asks the task that has the exchange for progress, if it is worth it. A task
that is done gives the exchange away. -/
def ask (s : Session) (w : Wire) : List Notice × Session × Wire :=
  match s.running with
  | none => ([], s, w)
  | some r =>
    if r.again || s.exchange.isCancelled w then
      match r.task.poll s.exchange w with
      | (.done notice, e, w') =>
        match report { s with exchange := e, running := none } notice with
        | (now, s') => (now, s', w')
      | (.wait again task, e, w') =>
        ([], { s with exchange := e, running := some ⟨task, again⟩ }, w')
    else ([], s, w)

/-- The task that has the exchange, if there is one, is not worth asking. -/
def IsAsleep (s : Session) (w : Wire) : Prop :=
  ∀ r, s.running = some r → r.again = false ∧ s.exchange.isCancelled w = false

/-- What a session comes to that asks the task that has its exchange. -/
inductive Answers (s : Session) (w : Wire) : List Notice × Session × Wire → Prop where
  | asleep : s.IsAsleep w → Answers s w ([], s, w)
  | done {r : Running} {n : Notice} {e : Exchange} {w' : Wire} : s.running = some r →
      r.again = true ∨ s.exchange.isCancelled w = true →
      r.task.poll s.exchange w = (.done n, e, w') →
      Answers s w ((report { s with exchange := e, running := none } n).1,
        (report { s with exchange := e, running := none } n).2, w')
  | waits {r : Running} {again : Bool} {t : Task} {e : Exchange} {w' : Wire} :
      s.running = some r → r.again = true ∨ s.exchange.isCancelled w = true →
      r.task.poll s.exchange w = (.wait again t, e, w') →
      Answers s w ([], { s with exchange := e, running := some ⟨t, again⟩ }, w')

variable {s s' : Session} {w w' : Wire} {now : List Notice} {n : Notice}

/-- What to ask the task that has the exchange comes to. -/
theorem answers_ask (s : Session) (w : Wire) : s.Answers w (s.ask w) := by
  unfold ask
  split
  · next hnone => exact .asleep fun r hr => by simp [hnone] at hr
  · next r hr =>
    split
    · next hawake =>
      rw [Bool.or_eq_true] at hawake
      split
      · next hpoll => exact .done hr hawake hpoll
      · next hpoll => exact .waits hr hawake hpoll
    · next hasleep =>
      rw [Bool.or_eq_true, not_or, Bool.not_eq_true, Bool.not_eq_true] at hasleep
      refine .asleep fun r' hr' => ?_
      obtain rfl : r = r' := Option.some.inj (hr.symm.trans hr')
      exact hasleep

theorem take_of_running {r : Running} (h : s.running = some r) : s.take = s := by
  simp [take, h]

theorem take_of_waiting {t : Task} {ts : List Task} (hr : s.running = none)
    (hw : s.waiting = t :: ts) : s.take = { s with running := some ⟨t, true⟩, waiting := ts } := by
  simp [take, hr, hw]

theorem take_of_free (h : s.isFree = true) : s.take = s := by
  rw [isFree, Bool.and_eq_true, Option.isNone_iff_eq_none, List.isEmpty_iff] at h
  simp [take, h.1, h.2]

theorem ask_of_free (h : s.isFree = true) (w : Wire) : s.ask w = ([], s, w) := by
  rw [isFree, Bool.and_eq_true, Option.isNone_iff_eq_none] at h
  simp [ask, h.1]

/-- To take the exchange changes nothing but who has it. -/
theorem take_cases (s : Session) : s.take = s ∨ ∃ t ts, s.running = none ∧ s.waiting = t :: ts ∧
    s.take = { s with running := some ⟨t, true⟩, waiting := ts } := by
  cases hr : s.running with
  | some r => exact .inl (take_of_running hr)
  | none =>
    cases hw : s.waiting with
    | nil => exact .inl (by simp [take, hr, hw])
    | cons t ts => exact .inr ⟨t, ts, rfl, rfl, take_of_waiting hr hw⟩

/-! ### Reports -/

/-- A report that was not made yet is made. -/
theorem report_eq (h : n.place = 0 → s.completion.isFired = false) : ∃ o,
    s.report n = ([n], { s with completion := o }) ∧
      o.isFired = (s.completion.isFired || n.place == 0) := by
  cases n with
  | completed r =>
    have hnone : s.completion.result = none := by
      have hfired := h rfl
      rwa [OneShot.isFired, Option.isSome_eq_false_iff, Option.isNone_iff_eq_none] at hfired
    exact ⟨⟨some r⟩, by simp [report, OneShot.fire, hnone], by simp [OneShot.isFired, Notice.place]⟩
  | read index r => exact ⟨s.completion, rfl, by simp [Notice.place]⟩

theorem tasks_of_running {r : Running} (h : s.running = some r) :
    s.tasks = r.task :: s.waiting := by
  simp [tasks, h]

theorem tasks_of_none (h : s.running = none) : s.tasks = s.waiting := by
  simp [tasks, h]

theorem tasks_take (s : Session) : s.take.tasks = s.tasks := by
  obtain h | ⟨t, ts, hr, hw, h⟩ := take_cases s
  · rw [h]
  · rw [h, tasks_of_none hr, hw]
    rfl

/-- Each task is in the session once, and the execution is still to be done as
long as it is not reported of. -/
structure Fires (s : Session) : Prop where
  nodup : (s.tasks.map Task.place).Nodup
  fired : s.completion.isFired = true ↔ 0 ∉ s.tasks.map Task.place

theorem Fires.take (h : s.Fires) : s.take.Fires := by
  obtain htake | ⟨t, ts, -, -, htake⟩ := take_cases s
  · rwa [htake]
  · have hcompletion : s.take.completion = s.completion := by rw [htake]
    have htasks := tasks_take s
    exact ⟨htasks ▸ h.nodup, by rw [htasks, hcompletion]; exact h.fired⟩

/-- The report of a task that is done is made. -/
theorem Fires.report {r : Running} {e e' : Exchange} (h : s.Fires) (hr : s.running = some r)
    (hpoll : r.task.poll e w = (.done n, e', w')) : ∃ o,
      Session.report { s with exchange := e', running := none } n =
        ([n], { s with exchange := e', running := none, completion := o }) ∧
      o.isFired = (s.completion.isFired || n.place == 0) := by
  have hplace := Task.place_of_done hpoll
  refine report_eq (s := { s with exchange := e', running := none }) fun hzero => ?_
  have hmem : 0 ∈ s.tasks.map Task.place := by
    rw [tasks_of_running hr, List.map_cons, ← hplace, hzero]
    exact List.mem_cons_self ..
  rw [← Bool.not_eq_true]
  exact fun hfired => h.fired.mp hfired hmem

/-- No place is lost: who is asked is reported of or has still to be done. -/
theorem Answers.places {a : List Notice × Session × Wire} (ha : s.Answers w a) (h : s.Fires) :
    a.1.map Notice.place ++ a.2.1.tasks.map Task.place = s.tasks.map Task.place := by
  cases ha with
  | asleep => rfl
  | done hr _ hpoll =>
    obtain ⟨o, hreport, -⟩ := h.report hr hpoll
    rw [hreport, tasks_of_running hr]
    exact congrArg (· :: s.waiting.map Task.place) (Task.place_of_done hpoll)
  | waits hr _ hpoll =>
    rw [tasks_of_running hr, List.map_cons, ← Task.place_of_wait hpoll]
    rfl

theorem Answers.fires {a : List Notice × Session × Wire} (ha : s.Answers w a) (h : s.Fires) :
    a.2.1.Fires := by
  have hall := h.nodup
  refine ⟨?_, ?_⟩
  · rw [← ha.places h] at hall
    exact (List.nodup_append.mp hall).2.1
  · have hfired := h.fired
    cases ha with
    | asleep => exact hfired
    | @done r n e w' hr _ hpoll =>
      obtain ⟨o, hreport, ho⟩ := h.report hr hpoll
      rw [tasks_of_running hr, List.map_cons, ← Task.place_of_done hpoll] at hfired hall
      rw [hreport]
      show o.isFired = true ↔ 0 ∉ s.waiting.map Task.place
      rw [ho, Bool.or_eq_true, beq_iff_eq, hfired, List.mem_cons, not_or]
      by_cases hzero : n.place = 0
      · rw [hzero] at hall
        exact ⟨fun _ => (List.nodup_cons.mp hall).1, fun _ => .inr hzero⟩
      · exact ⟨fun h => h.elim And.right fun h => absurd h hzero,
          fun h => .inl ⟨Ne.symm hzero, h⟩⟩
    | @waits r again t e w' hr _ hpoll =>
      rw [tasks_of_running hr, List.map_cons, ← Task.place_of_wait hpoll] at hfired
      exact hfired

/-! ### Working -/

/-- Any small steps one behind the other, and what they report. -/
inductive Works : Session → Wire → List Notice → Session → Wire → Prop where
  | refl (s : Session) (w : Wire) : Works s w [] s w
  | take {s s' : Session} {w w' : Wire} {now : List Notice} :
      Works s.take w now s' w' → Works s w now s' w'
  | ask {s s' : Session} {w w' : Wire} {later : List Notice} :
      Works (s.ask w).2.1 (s.ask w).2.2 later s' w' → Works s w ((s.ask w).1 ++ later) s' w'

theorem Works.trans {s'' : Session} {w'' : Wire} {later : List Notice} (h : Works s w now s' w')
    (h' : Works s' w' later s'' w'') : Works s w (now ++ later) s'' w'' := by
  induction h with
  | refl => exact h'
  | take _ ih => exact .take (ih h')
  | ask _ ih =>
    rw [List.append_assoc]
    exact .ask (ih h')

/-- What small steps keep, working keeps. -/
theorem Works.induct {P : List Notice → Session → Wire → Prop}
    (htake : ∀ {told s w}, P told s w → P told s.take w)
    (hask : ∀ {told s w}, P told s w → P (told ++ (s.ask w).1) (s.ask w).2.1 (s.ask w).2.2)
    (h : Works s w now s' w') : ∀ {told}, P told s w → P (told ++ now) s' w' := by
  induction h with
  | refl =>
    intro told hP
    rwa [List.append_nil]
  | take _ ih => exact fun hP => ih (htake hP)
  | ask _ ih =>
    intro told hP
    rw [← List.append_assoc]
    exact ih (hask hP)

/-- The session whose first task has the exchange and is worth asking. -/
def waking (t : Task) (ts : List Task) (again : Bool) (s : Session) : Session :=
  { s with running := some ⟨t, again⟩, waiting := ts }

theorem ask_waking {t : Task} {ts : List Task} {again : Bool}
    (h : again = true ∨ s.exchange.isCancelled w = true) :
    (waking t ts again s).ask w =
      match t.poll s.exchange w with
      | (.done notice, e, w') =>
        ((report { s with exchange := e, running := none, waiting := ts } notice).1,
          (report { s with exchange := e, running := none, waiting := ts } notice).2, w')
      | (.wait again task, e, w') =>
        ([], { s with exchange := e, running := some ⟨task, again⟩, waiting := ts }, w') := by
  have hawake : (again || s.exchange.isCancelled w) = true := by simpa using h
  simp only [ask, waking, hawake, if_pos]

/-- What a report changes, it changes whatever tasks there are. -/
theorem report_tasks (s : Session) (n : Notice) : ∃ now o, ∀ running waiting,
    report { s with running, waiting } n =
      (now, { s with running, waiting, completion := o }) := by
  cases n with
  | completed r =>
    rcases hfire : s.completion.fire r with ⟨_ | r', o⟩
    · exact ⟨[], o, fun _ _ => by simp only [report, hfire]⟩
    · exact ⟨[.completed r'], o, fun _ _ => by simp only [report, hfire]⟩
  | read index r => exact ⟨[.read index r], s.completion, fun _ _ => rfl⟩

theorem works_of_ask {s₁ : Session} {w₁ : Wire} {later : List Notice}
    (hask : s.ask w = (now, s₁, w₁)) (h : Works s₁ w₁ later s' w') :
    Works s w (now ++ later) s' w' := by
  have hworks : Works s w ((s.ask w).1 ++ later) s' w' := .ask (by rw [hask]; exact h)
  rwa [hask] at hworks

/-- The first task works in small steps if those behind it do. -/
theorem works_waking {t : Task} {ts : List Task} {again : Bool}
    (hrest : ∀ s w, Works { s with running := none, waiting := ts } w (work ts s w).1
      (work ts s w).2.1 (work ts s w).2.2)
    (h : again = true ∨ s.exchange.isCancelled w = true) :
    Works (waking t ts again s) w (work (t :: ts) s w).1 (work (t :: ts) s w).2.1
      (work (t :: ts) s w).2.2 := by
  have hask : (waking t ts again s).ask w = _ := ask_waking h
  rcases hpoll : t.poll s.exchange w with ⟨n | ⟨again', t'⟩, e, w'⟩
  · obtain ⟨now, o, hreport⟩ := report_tasks { s with exchange := e } n
    simp only [hpoll, hreport] at hask
    simp only [work, hpoll, hreport s.running s.waiting]
    exact works_of_ask hask (hrest { s with exchange := e, completion := o } w')
  · simp only [hpoll] at hask
    simp only [work, hpoll]
    exact works_of_ask hask (.refl _ _)

/-- Tasks that work one behind the other work in small steps. -/
theorem works_work : ∀ (ts : List Task) (s : Session) (w : Wire),
    Works { s with running := none, waiting := ts } w (work ts s w).1 (work ts s w).2.1
      (work ts s w).2.2
  | [], _, _ => .refl _ _
  | _ :: ts, s, _ => .take (works_waking (s := s) (works_work ts) (.inl rfl))

/-- All that a session does on its own is done in small steps. -/
theorem works_turn (s : Session) (w : Wire) :
    Works s w (s.turn w).1 (s.turn w).2.1 (s.turn w).2.2 := by
  cases hr : s.running with
  | none =>
    have hturn : s.turn w = work s.waiting s w := by simp [turn, hr]
    have hs : { s with running := none, waiting := s.waiting } = s := by rw [← hr]
    have hworks := works_work s.waiting s w
    rwa [hs, ← hturn] at hworks
  | some r =>
    by_cases hawake : r.again = true ∨ s.exchange.isCancelled w = true
    · have hturn : s.turn w = work (r.task :: s.waiting) s w := by simp [turn, hr, hawake]
      have hs : waking r.task s.waiting r.again s = s := by
        rw [waking, ← hr]
      have hworks := works_waking (t := r.task) (works_work s.waiting) hawake
      rwa [hs, ← hturn] at hworks
    · have hturn : s.turn w = ([], s, w) := by simp [turn, hr, hawake]
      rw [hturn]
      exact .refl s w

/-! ### The end of the work -/

/-- The session has come to rest: a task that has the exchange is not worth
asking, and no task waits for an exchange that nobody has. -/
structure IsStill (s : Session) (w : Wire) : Prop where
  asleep : s.IsAsleep w
  waiting : s.running = none → s.waiting = []

/-- Behind the work of a session nothing waits for an exchange that nobody has.
A task that still has it used up one of the events there were, and if it is not
worth asking again, then not for a token that is cancelled either. -/
structure Rests (events : Nat) (s : Session) (w : Wire) : Prop where
  waiting : s.running = none → s.waiting = []
  spent : ∀ r, s.running = some r → w.events < events ∧
    (r.again = false → s.exchange.isCancelled w = false)

theorem rests_work : ∀ (ts : List Task) (s : Session) (w : Wire),
    Rests (w.events) (work ts s w).2.1 (work ts s w).2.2
  | [], s, w => ⟨fun _ => rfl, fun r hr => by cases hr⟩
  | t :: ts, s, w => by
    have hspends := t.spends_poll s.exchange w
    have hsteady := t.isSteady_poll s.exchange w
    rcases hpoll : t.poll s.exchange w with ⟨n | ⟨again, t'⟩, e, w'⟩
    all_goals rw [hpoll] at hspends hsteady
    · obtain ⟨hwaiting, hspent⟩ := rests_work ts (report { s with exchange := e } n).2 w'
      simp only [work, hpoll]
      refine ⟨hwaiting, fun r hr => ?_⟩
      obtain ⟨hlt, hcancelled⟩ := hspent r hr
      exact ⟨Nat.lt_of_lt_of_le hlt hspends, hcancelled⟩
    · simp only [work, hpoll]
      refine ⟨fun h => (by cases h), fun r hr => ?_⟩
      cases hr
      exact ⟨hspends, fun hagain => hsteady t' (by rw [show again = false from hagain])⟩

/-- A turn ends: what is to be asked again has used up an event. -/
theorem rests_turn (s : Session) (w : Wire) :
    (s.turn w).2.1.IsStill (s.turn w).2.2 ∨
      (s.turn w).2.1.isAwake = true ∧ (s.turn w).2.2.events < w.events := by
  have hrests : ∀ {s' w'}, Rests w.events s' w' →
      s'.IsStill w' ∨ s'.isAwake = true ∧ w'.events < w.events := by
    intro s' w' ⟨hwaiting, hspent⟩
    cases hr : s'.running with
    | none => exact .inl ⟨fun r hr' => by simp [hr] at hr', fun _ => hwaiting hr⟩
    | some r =>
      obtain ⟨hlt, hcancelled⟩ := hspent r hr
      cases hagain : r.again with
      | false =>
        refine .inl ⟨fun r' hr' => ?_, hwaiting⟩
        obtain rfl : r = r' := Option.some.inj (hr.symm.trans hr')
        exact ⟨hagain, hcancelled hagain⟩
      | true => exact .inr ⟨by simp [isAwake, hr, hagain], hlt⟩
  unfold turn
  split
  · exact hrests (rests_work ..)
  · next r hr =>
    split
    · exact hrests (rests_work ..)
    · next hasleep =>
      rw [Bool.or_eq_true, not_or, Bool.not_eq_true, Bool.not_eq_true] at hasleep
      refine .inl ⟨fun r' hr' => ?_, fun hnone => by simp [hr] at hnone⟩
      obtain rfl : r = r' := Option.some.inj (hr.symm.trans hr')
      exact hasleep

/-- A session that is still is not worth asking again. -/
theorem IsStill.isAwake (h : s.IsStill w) : s.isAwake = false := by
  unfold Session.isAwake
  cases hr : s.running with
  | none => rfl
  | some r => exact (h.asleep r hr).1

end Session
end Http1Client
