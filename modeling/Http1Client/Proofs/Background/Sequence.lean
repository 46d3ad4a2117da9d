/-
# Work in the background is work in order

What is asked of an exchange may be carried out operation by operation, each to
its result before the next one (`Exchange.carryAll`). A session comes to the
same: its tasks wait while another one has the exchange, they may be asked
whenever they are worth it, and readings may be started at any point. What was
reported, and what the tasks that are left come to (`Session.ahead`), are the
results of carrying out everything in order (`Service.InOrder.step`).

So the reports of a session are the results of its execution and its readings,
in the order of their start, up to one that never comes; letting go of the
session changes none of it (`Background.reports_run`).

Key definitions: `Exchange.carryAll`, `Session.ahead`, `Service.InOrder`.
Key theorems: `Exchange.carryAll_append`, `Session.Answers.ahead`,
`Service.InOrder.step`, `Background.reports_run`.
-/
import Http1Client.Proofs.Background.Service

namespace Http1Client

/-! ### One operation behind the other -/

namespace Exchange

/-- Carries out operations one behind the other, up to one that never is ready.
Also gives the exchange and the wire behind the last one, if there is none. -/
def carryAll : List Op → Exchange → Wire → List Reply × Option (Exchange × Wire)
  | [], e, w => ([], some (e, w))
  | op :: ops, e, w =>
    match e.carryOut op w with
    | (none, _, _) => ([], none)
    | (some reply, e', w') =>
      match carryAll ops e' w' with
      | (replies, last) => (reply :: replies, last)

variable {op op' : Op} {e e' : Exchange} {w w' : Wire} {reply : Reply}

theorem carryAll_of_done (h : op.poll e w = (.done reply, e', w')) (ops : List Op) :
    carryAll (op :: ops) e w = (reply :: (carryAll ops e' w').1, (carryAll ops e' w').2) := by
  simp [carryAll, carryOut_eq, h]

theorem carryAll_of_again (h : op.poll e w = (.wait true op', e', w')) (ops : List Op) :
    carryAll (op :: ops) e w = carryAll (op' :: ops) e' w' := by
  have hcarry : carryOut op e w = carryOut op' e' w' := by simp [carryOut_eq op, h]
  simp [carryAll, hcarry]

theorem carryAll_of_wait (h : op.poll e w = (.wait false op', e', w')) (ops : List Op) :
    carryAll (op :: ops) e w = ([], none) := by
  simp [carryAll, carryOut_eq, h]

/-- Where all operations come to a result, more of them go on from there. -/
theorem carryAll_append (more : List Op) : ∀ (ops : List Op) (e : Exchange) (w : Wire),
    carryAll (ops ++ more) e w =
      match carryAll ops e w with
      | (replies, none) => (replies, none)
      | (replies, some (e', w')) => (replies ++ (carryAll more e' w').1, (carryAll more e' w').2)
  | [], e, w => rfl
  | op :: ops, e, w => by
    rcases hcarry : carryOut op e w with ⟨_ | reply, e', w'⟩
    · simp [carryAll, hcarry]
    · have ih := carryAll_append more ops e' w'
      rcases hrest : carryAll ops e' w' with ⟨replies, _ | ⟨e'', w''⟩⟩ <;>
        simp [carryAll, hcarry, ih, hrest]

end Exchange

/-! ### What is ahead -/

namespace Session

/-- What the tasks that are left come to: nothing more if one has the exchange
that is not worth asking. -/
def ahead (s : Session) (w : Wire) : List Reply × Option (Exchange × Wire) :=
  if s.running.any (!·.again) then ([], none)
  else s.exchange.carryAll (s.tasks.map Task.op) w

variable {s : Session} {w : Wire}

theorem ahead_of_none (h : s.running = none) :
    s.ahead w = s.exchange.carryAll (s.waiting.map Task.op) w := by
  simp [ahead, h, tasks]

theorem ahead_of_again {r : Running} (h : s.running = some r) (hagain : r.again = true) :
    s.ahead w = s.exchange.carryAll (r.task.op :: s.waiting.map Task.op) w := by
  simp [ahead, h, hagain, tasks]

theorem ahead_of_wait {r : Running} (h : s.running = some r) (hagain : r.again = false) :
    s.ahead w = ([], none) := by
  simp [ahead, h, hagain]

theorem ahead_take (s : Session) (w : Wire) : s.take.ahead w = s.ahead w := by
  obtain h | ⟨t, ts, hr, hw, h⟩ := take_cases s
  · rw [h]
  · rw [h, ahead_of_none hr, ahead_of_again (r := ⟨t, true⟩) rfl rfl, hw]
    rfl

/-- Where no task can go on, nothing is ahead. -/
theorem IsStill.ahead (h : s.IsStill w) :
    s.ahead w = ([], if s.isFree then some (s.exchange, w) else none) := by
  cases hr : s.running with
  | none =>
    have hw := h.waiting hr
    rw [ahead_of_none hr, hw]
    simp [isFree, hr, hw, Exchange.carryAll]
  | some r =>
    rw [ahead_of_wait hr (h.asleep r hr).1]
    simp [isFree, hr]

/-- A reading that is started goes on from what is ahead. -/
theorem ahead_read (s : Session) (index size : Nat) (w : Wire) :
    (s.read index size).ahead w =
      match s.ahead w with
      | (replies, none) => (replies, none)
      | (replies, some (e', w')) =>
        (replies ++ (Exchange.carryAll [.read size] e' w').1,
          (Exchange.carryAll [.read size] e' w').2) := by
  have htasks : (s.read index size).tasks.map Task.op = s.tasks.map Task.op ++ [.read size] := by
    simp [tasks, Session.read, Task.op]
  unfold ahead
  rw [htasks, Exchange.carryAll_append]
  show (if s.running.any _ then _ else _) = _
  split <;> rfl

/-- A task that is not worth asking again was not cancelled. -/
def IsSteady (s : Session) (w : Wire) : Prop :=
  ∀ r, s.running = some r → r.again = false → s.exchange.isCancelled w = false

theorem IsSteady.take (h : s.IsSteady w) : s.take.IsSteady w := by
  obtain htake | ⟨t, ts, -, -, htake⟩ := take_cases s
  · rwa [htake]
  · rw [htake]
    intro r hr hagain
    cases hr
    simp at hagain

theorem Answers.isSteady {a : List Notice × Session × Wire} (ha : s.Answers w a)
    (h : s.IsSteady w) (hfires : s.Fires) : a.2.1.IsSteady a.2.2 := by
  cases ha with
  | asleep => exact h
  | done hr _ hpoll =>
    obtain ⟨o, hreport, -⟩ := hfires.report hr hpoll
    rw [hreport]
    exact fun r hr => by cases hr
  | @waits r again t e w' hr _ hpoll =>
    intro r' hr' hagain
    cases hr'
    have hsteady := r.task.isSteady_poll s.exchange w
    rw [hpoll] at hsteady
    exact hsteady t (by rw [show again = false from hagain])

/-- What is reported was ahead, and what is ahead then is the rest. -/
theorem Answers.ahead {a : List Notice × Session × Wire} (ha : s.Answers w a)
    (h : s.IsSteady w) (hfires : s.Fires) :
    (a.1.map Notice.reply ++ (a.2.1.ahead a.2.2).1, (a.2.1.ahead a.2.2).2) = s.ahead w := by
  have hawake : ∀ {r}, s.running = some r → r.again = true ∨ s.exchange.isCancelled w = true →
      r.again = true := by
    intro r hr hor
    cases hagain : r.again with
    | true => rfl
    | false =>
      rw [hagain, h r hr hagain] at hor
      exact hor.elim id id
  cases ha with
  | asleep => rfl
  | @done r n e w' hr hor hpoll =>
    obtain ⟨o, hreport, -⟩ := hfires.report hr hpoll
    have hop : r.task.op.poll s.exchange w = (.done n.reply, e, w') := by
      rw [Task.op_poll, hpoll]
      rfl
    rw [hreport, ahead_of_again hr (hawake hr hor), Exchange.carryAll_of_done hop,
      ahead_of_none rfl]
    rfl
  | @waits r again t e w' hr hor hpoll =>
    have hop : r.task.op.poll s.exchange w = (.wait again t.op, e, w') := by
      rw [Task.op_poll, hpoll]
      rfl
    rw [ahead_of_again hr (hawake hr hor)]
    cases again with
    | false =>
      rw [Exchange.carryAll_of_wait hop, ahead_of_wait (r := ⟨t, false⟩) rfl rfl]
      rfl
    | true =>
      rw [Exchange.carryAll_of_again hop, ahead_of_again (r := ⟨t, true⟩) rfl rfl]
      rfl

end Session

/-! ### In order -/

/-- What is asked of the exchange: to execute a request, and readings. -/
def calls (q : Request) (sizes : List Nat) : List Op := .execute (.start q) :: sizes.map .read

namespace Service

variable {settings : Settings} {wire : Wire} {q : Request} {v v' : Service}
  {event : Background.Event}

/-- What was reported and what is ahead is what the calls come to in order. -/
structure InOrder (settings : Settings) (wire : Wire) (q : Request) (v : Service) : Prop where
  accounted : v.Accounted
  places : v.told.map Notice.place ++ v.session.tasks.map Task.place =
    List.range (v.sizes.length + 1)
  steady : v.session.IsSteady v.wire
  replies : (v.told.map Notice.reply ++ (v.session.ahead v.wire).1,
      (v.session.ahead v.wire).2) =
    Exchange.carryAll (calls q v.sizes) { settings } wire

theorem inOrder_start (settings : Settings) (wire : Wire) (q : Request) :
    (start settings wire q).InOrder settings wire q :=
  ⟨accounted_start settings wire q, rfl, fun r hr => (by cases hr), rfl⟩

theorem InOrder.read (h : v.InOrder settings wire q) (size : Nat) :
    InOrder settings wire q
      { v with
        session := v.session.read v.sizes.length size
        sizes := v.sizes ++ [size] } := by
  refine ⟨h.accounted.read size, ?_, h.steady, ?_⟩
  · have hplaces := h.places
    rw [List.length_append, List.length_singleton, List.range_succ, ← hplaces]
    simp [Session.tasks, Session.read, Task.place]
  · have hcalls : calls q (v.sizes ++ [size]) = calls q v.sizes ++ [.read size] := by simp [calls]
    rw [hcalls, Exchange.carryAll_append, ← h.replies, Session.ahead_read]
    rcases v.session.ahead v.wire with ⟨replies, _ | ⟨e, w⟩⟩
    · rfl
    · simp

theorem InOrder.take (h : v.InOrder settings wire q) :
    { v with session := v.session.take }.InOrder settings wire q := by
  refine ⟨h.accounted.take, ?_, h.steady.take, ?_⟩
  · have hplaces := h.places
    rwa [← Session.tasks_take] at hplaces
  · have hreplies := h.replies
    rwa [← Session.ahead_take] at hreplies

theorem InOrder.ask (h : v.InOrder settings wire q) :
    (v.tell (v.session.ask v.wire)).InOrder settings wire q := by
  have hanswers := v.session.answers_ask v.wire
  have hfires := h.accounted.fires
  refine ⟨h.accounted.ask, ?_, hanswers.isSteady h.steady hfires, ?_⟩
  · have hplaces := hanswers.places hfires
    simp only [tell, List.map_append, List.append_assoc, hplaces]
    exact h.places
  · have hahead := hanswers.ahead h.steady hfires
    have hreplies := h.replies
    rw [← hahead] at hreplies
    simpa [tell] using hreplies

theorem InOrder.works {now : List Notice} {s : Session} {w : Wire}
    (h : v.InOrder settings wire q) (hworks : v.session.Works v.wire now s w) :
    (v.tell (now, s, w)).InOrder settings wire q :=
  hworks.induct
    (P := fun told s w => InOrder settings wire q { v with session := s, wire := w, told })
    (fun h => h.take) (fun h => h.ask) h

/-- Every plain event keeps the order. -/
theorem InOrder.step (h : v.InOrder settings wire q) (hplain : event.IsPlain)
    (hstep : v.Step event v') : v'.InOrder settings wire q := by
  cases hstep with
  | gone => exact h
  | reads size => exact h.read size
  | overtakes => exact hplain.elim
  | takes => exact h.take
  | asks => exact h.ask
  | settles hworks => exact h.works hworks
  | cancels => exact hplain.elim
  | closes => exact hplain.elim
  | busy => exact hplain.elim
  | releases =>
    exact ⟨h.accounted.of_tasks rfl rfl (.refl _) rfl, h.places, h.steady, h.replies⟩

theorem InOrder.places_told (h : v.InOrder settings wire q) :
    v.told.map Notice.place = List.range v.told.length := by
  have htold : v.told.map Notice.place <+: List.range (v.sizes.length + 1) := by
    rw [← h.places]
    exact List.prefix_append ..
  have hlength := htold.length_le
  rw [List.length_map, List.length_range] at hlength
  rw [List.prefix_iff_eq_take.mp htold, List.length_map, List.take_range, Nat.min_eq_left hlength]

/-- Where no task can go on, everything is reported that was to be. -/
theorem InOrder.of_still (h : v.InOrder settings wire q) (hstill : v.session.IsStill v.wire) :
    Exchange.carryAll (calls q v.sizes) { settings } wire = (v.told.map Notice.reply,
      if v.session.isFree then some (v.session.exchange, v.wire) else none) := by
  rw [← h.replies, hstill.ahead, List.append_nil]

/-- A session that has nothing to do is still. -/
theorem isStill_of_isFree {s : Session} (h : s.isFree = true) (w : Wire) : s.IsStill w := by
  rw [Session.isFree, Bool.and_eq_true, Option.isNone_iff_eq_none, List.isEmpty_iff] at h
  exact ⟨fun r hr => by simp [h.1] at hr, fun _ => h.2⟩

end Service

namespace Background

theorem told_step (b : Background) (event : Event) : b.told <+: (b.step event).told := by
  cases event with
  | reads size =>
    rw [step]
    split <;> exact List.prefix_rfl
  | overtakes => exact List.prefix_append ..
  | takes => exact List.prefix_append ..
  | asks => exact List.prefix_append ..
  | settles => exact List.prefix_append ..
  | cancels => exact List.prefix_rfl
  | closes => exact List.prefix_rfl
  | releases => exact List.prefix_rfl

theorem told_run : ∀ (events : List Event) (b : Background), b.told <+: (b.run events).told
  | [], _ => List.prefix_rfl
  | event :: events, b => (b.told_step event).trans (told_run events (b.step event))

/-- **A session reports what its calls come to in order.** Its execution is
reported first and once, its readings behind it, once each, in the order of their
start. The results are those of carrying out the calls one behind the other, as
far as they were asked for; and once the tasks have worked until none can go on,
they are all of these. The completion has been fired if and only if it was
reported, the state that the owner can see then is the state behind the last
call, and an exchange that is let go of gives its connection away behind it. -/
theorem reports_run (settings : Settings) (wire : Wire) (q : Request) (events : List Event)
    (hplain : ∀ event ∈ events, event.IsPlain) :
    let b := (start settings wire q).run events
    let settled := b.step .settles
    let inOrder := Exchange.carryAll (calls q b.sizes) { settings } wire
    b.told.map Notice.place = List.range b.told.length ∧
      b.told.map Notice.reply <+: inOrder.1 ∧
      (∀ more, b.told <+: (b.run more).told) ∧
      (∀ s, b.client.current = some s →
        (s.completion.isFired = true ↔ ∃ r, Notice.completed r ∈ b.told)) ∧
      (∀ e, b.client.exchange? = some e →
        b.told.map Notice.reply = inOrder.1 ∧ inOrder.2 = some (e, b.client.wire)) ∧
      settled.told.map Notice.reply = inOrder.1 ∧
      (b.client.current.isSome = true →
        settled.client.exchange? = inOrder.2.map Prod.fst) ∧
      (b.client.current = none → ∀ e w, inOrder.2 = some (e, w) →
        settled.client = { settings, wire := e.release w }) := by
  intro b settled inOrder
  obtain ⟨v, h, hrun⟩ := Service.run_background settings events
    (fun event hmem _ _ h hstep => h.step (hplain event hmem) hstep)
    (Service.inOrder_start settings wire q)
  have hb : b = v.background settings := hrun
  obtain ⟨v', hstep, hsettled⟩ := Service.step_background settings v .settles
  rw [← hb] at hsettled
  have h' := h.step (show Event.IsPlain .settles from trivial) hstep
  obtain ⟨hstill, hheld, hsizes⟩ := hstep.of_settles
  have hinOrder : inOrder = Exchange.carryAll (calls q v.sizes) { settings } wire := by
    simp only [inOrder, hb, Service.background]
  have hall := h'.of_still hstill
  rw [hsizes, ← hinOrder] at hall
  have hclient : b.client = v.client settings := by rw [hb]; rfl
  have hclient' : settled.client = v'.client settings := congrArg client hsettled
  refine ⟨?_, ?_, fun more => told_run more b, fun s hs => ?_, fun e he => ?_, ?_, fun hs => ?_,
    fun hnone e w hlast => ?_⟩
  · rw [hb]
    exact h.places_told
  · rw [hinOrder, ← h.replies, hb]
    exact List.prefix_append ..
  · rw [hclient, Service.current_client] at hs
    obtain ⟨-, rfl⟩ := hs
    rw [hb]
    exact h.accounted.fired
  · rw [hclient, Service.exchange?_client] at he
    obtain ⟨hown, he⟩ := Option.ite_none_right_eq_some.mp he
    cases he
    rw [Bool.and_eq_true] at hown
    have hall := h.of_still (Service.isStill_of_isFree hown.2 v.wire)
    rw [if_pos hown.2, ← hinOrder] at hall
    rw [hall, hclient, Service.client_of_held settings hown.1, hb]
    exact ⟨rfl, rfl⟩
  · rw [hall, show settled = _ from hsettled]
    rfl
  · have hown : v'.held = true := by
      rwa [hheld, ← Service.isSome_current settings, ← hclient]
    rw [hclient', Service.exchange?_client, hown, hall]
    cases v'.session.isFree <;> rfl
  · have hgone : v'.held = false := by
      rw [hheld, ← Service.isSome_current settings, ← hclient, hnone]
      rfl
    rw [hall] at hlast
    obtain ⟨hfree, hlast⟩ := Option.ite_none_right_eq_some.mp hlast
    cases hlast
    rw [hclient', Service.client_of_free settings hgone hfree]
    rfl

/-- A request that names no host. -/
def hostlessRequest : Request where
  head := { plainRequest.head with uri := {} }

theorem reports_run_hostless : ∃ reason,
    let b := (start {} {} hostlessRequest).run [.reads 4, .takes, .releases, .settles]
    b.told.map Notice.place = [0, 1] ∧ b.told.map Notice.reply =
      [.executed (.error ⟨.invalidRequest reason, {}⟩),
        .delivered (.error (.stage .readBody .failed))] := by
  obtain ⟨-, -, -, -, -, hreplies, -, -⟩ :=
    reports_run {} {} hostlessRequest [.reads 4, .takes, .releases] (by simp [Event.IsPlain])
  obtain ⟨hplaces, -⟩ :=
    reports_run {} {} hostlessRequest [.reads 4, .takes, .releases, .settles]
      (by simp [Event.IsPlain])
  obtain ⟨e, reason, hexecute, hread⟩ : ∃ e reason,
      (Op.execute (.start hostlessRequest)).poll {} {} =
        (.done (.executed (.error ⟨.invalidRequest reason, {}⟩)), e, {}) ∧
      (Op.read 4).poll e {} = (.done (.delivered (.error (.stage .readBody .failed))), e, {}) :=
    ⟨_, _, rfl, rfl⟩
  have hinOrder := Exchange.carryAll_of_done hexecute [.read 4]
  rw [Exchange.carryAll_of_done hread] at hinOrder
  replace hreplies : _ = (Exchange.carryAll [.execute (.start hostlessRequest), .read 4] {} {}).1 :=
    hreplies
  rw [hinOrder] at hreplies
  refine ⟨reason, ?_, hreplies⟩
  have hlength := congrArg List.length hreplies
  rw [List.length_map] at hlength
  replace hplaces := hplaces.trans (congrArg List.range hlength)
  exact hplaces

end Background
end Http1Client
