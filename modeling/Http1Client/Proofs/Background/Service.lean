/-
# A client with one exchange

A `Background` is a client that has started to execute a request, as its owner
and the runtime deal with it: readings are started, tasks take the exchange and
are asked, the exchange is cancelled or closed, and the client is let go of, in
any order. What is reported is kept.

Inside there is one session, which the client keeps hold of or has let go of
(`Service`). `Service.Step` lists what an event does with it, and every event
does one of these (`Service.step_background`). So what every step keeps holds
behind every run (`Service.run_background`). To settle comes to a session that
is still (`Service.settle_client`).

Key definitions: `Background`, `Background.Event`, `Service`, `Service.Step`.
Key theorems: `Service.each_client`, `Service.settle_client`,
`Service.step_background`, `Service.run_background`.
-/
import Mathlib.Data.List.Perm.Basic
import Http1Client.Proofs.Background.Working

namespace Http1Client

namespace Session

/-- Lets the reading that waits at this place go ahead of the tasks that wait
before it, unless one of them is the execution. -/
def overtake (n : Nat) (s : Session) : Session :=
  if s.waiting.all (·.place != 0) then
    { s with waiting := s.waiting[n]?.toList ++ s.waiting.eraseIdx n }
  else s

theorem waiting_overtake_perm (n : Nat) (s : Session) :
    (s.overtake n).waiting.Perm s.waiting := by
  unfold overtake
  split
  · by_cases hn : n < s.waiting.length
    · rw [List.getElem?_eq_getElem hn]
      exact List.getElem_cons_eraseIdx_perm hn
    · rw [Nat.not_lt] at hn
      rw [List.getElem?_eq_none hn, List.eraseIdx_of_length_le hn]
      exact .refl _
  · exact .refl _

theorem overtake_of_free {s : Session} (h : s.isFree = true) (n : Nat) : s.overtake n = s := by
  obtain ⟨exchange, running, waiting, completion⟩ := s
  rw [isFree, Bool.and_eq_true, List.isEmpty_iff] at h
  obtain rfl : waiting = [] := h.2
  rfl

theorem turn_of_free {s : Session} (h : s.isFree = true) (w : Wire) : s.turn w = ([], s, w) := by
  obtain ⟨exchange, running, waiting, completion⟩ := s
  rw [isFree, Bool.and_eq_true, Option.isNone_iff_eq_none, List.isEmpty_iff] at h
  obtain ⟨rfl, rfl⟩ : running = none ∧ waiting = [] := h
  rfl

end Session

/-! ### Backgrounds -/

/-- A client that has started an exchange, the readings that were started, and
what was reported. -/
structure Background where
  client : Client
  /-- The sizes that the readings were started with, in order. -/
  sizes : List Nat := []
  /-- What was reported, in order. -/
  told : List Notice := []

namespace Background

/-- What happens to an exchange in the background. -/
inductive Event where
  /-- The owner starts a reading. -/
  | reads (size : Nat)
  /-- A reading goes ahead of those before it. -/
  | overtakes (n : Nat)
  /-- The task that waits first takes the exchange. -/
  | takes
  /-- The task that has the exchange is asked. -/
  | asks
  /-- The tasks work until none can go on. -/
  | settles
  | cancels
  | closes
  /-- The owner lets go of the exchange. -/
  | releases

/-- Nothing is cancelled or closed, and the tasks take the exchange in the
order of their start. -/
def Event.IsPlain : Event → Prop
  | overtakes _ => False
  | cancels => False
  | closes => False
  | _ => True

/-- Only the owner of the exchange can do that. -/
def Event.IsOwners : Event → Prop
  | reads _ => True
  | cancels => True
  | closes => True
  | _ => False

/-- A client that starts to execute a request over a wire. -/
def start (settings : Settings) (wire : Wire) (q : Request) : Background :=
  { client := { settings, wire : Client }.start q }

/-- Takes in what a client has reported. -/
def tell (b : Background) (r : List Notice × Client) : Background :=
  { b with client := r.2, told := b.told ++ r.1 }

/-- One event. -/
def step (b : Background) : Event → Background
  | .reads size =>
    if b.client.current.isSome then
      { b with client := b.client.read b.sizes.length size, sizes := b.sizes ++ [size] }
    else b
  | .overtakes n => b.tell (b.client.each fun s w => ([], s.overtake n, w))
  | .takes => b.tell (b.client.each fun s w => ([], s.take, w))
  | .asks => b.tell (b.client.each Session.ask)
  | .settles => b.tell b.client.settle
  | .cancels => { b with client := b.client.cancel }
  | .closes => { b with client := b.client.close.2 }
  | .releases => { b with client := b.client.release }

/-- Events one after the other. -/
def run (b : Background) (events : List Event) : Background := events.foldl step b

end Background

/-! ### The session inside -/

/-- The session of a background, and whether the client keeps hold of it. -/
structure Service where
  held : Bool := true
  session : Session
  wire : Wire
  sizes : List Nat := []
  told : List Notice := []

namespace Service

/-- The client, which lets go of the session only when it has no work left. -/
def client (settings : Settings) (v : Service) : Client :=
  if v.held then { settings, wire := v.wire, current := some v.session }
  else Client.sweep { settings, wire := v.wire, released := [v.session] }

def background (settings : Settings) (v : Service) : Background :=
  ⟨v.client settings, v.sizes, v.told⟩

/-- The session is worked on, and reports. -/
def tell (v : Service) (a : List Notice × Session × Wire) : Service :=
  { v with session := a.2.1, wire := a.2.2, told := v.told ++ a.1 }

/-- What an event does with the session. -/
inductive Step (v : Service) : Background.Event → Service → Prop where
  /-- The client has let go of the session. -/
  | gone {event : Background.Event} : v.held = false → event.IsOwners → Step v event v
  | reads (size : Nat) : v.held = true → Step v (.reads size)
      { v with
        session := v.session.read v.sizes.length size
        sizes := v.sizes ++ [size] }
  | overtakes (n : Nat) : Step v (.overtakes n) { v with session := v.session.overtake n }
  | takes : Step v .takes { v with session := v.session.take }
  | asks : Step v .asks (v.tell (v.session.ask v.wire))
  | settles {now : List Notice} {s : Session} {w : Wire} : v.session.Works v.wire now s w →
      s.IsStill w → Step v .settles (v.tell (now, s, w))
  | cancels : v.held = true → Step v .cancels
      { v with
        session := (v.session.cancel v.wire).1
        wire := (v.session.cancel v.wire).2 }
  | closes : v.held = true → v.session.isFree = true → Step v .closes
      { v with
        session := { v.session with exchange := (v.session.exchange.carryOut .close v.wire).2.1 }
        wire := (v.session.exchange.carryOut .close v.wire).2.2 }
  | busy : v.held = true → v.session.isFree = false → Step v .closes v
  | releases : Step v .releases { v with held := false }

section Client

variable (settings : Settings) {v : Service}

theorem client_of_held (h : v.held = true) :
    v.client settings = { settings, wire := v.wire, current := some v.session } := by
  rw [client, if_pos h]

theorem client_of_free (h : v.held = false) (hfree : v.session.isFree = true) :
    v.client settings = { settings, wire := v.session.drop v.wire } := by
  simp [client, h, Client.sweep, hfree]

theorem client_of_busy (h : v.held = false) (hbusy : v.session.isFree = false) :
    v.client settings = { settings, wire := v.wire, released := [v.session] } := by
  simp [client, h, Client.sweep, hbusy]

/-- The client keeps hold of the session, or has let go of it: then the session
is gone, or has work left. -/
theorem client_cases {P : Client → Prop} (v : Service)
    (held : v.held = true → P { settings, wire := v.wire, current := some v.session })
    (free : v.held = false → v.session.isFree = true →
      P { settings, wire := v.session.drop v.wire })
    (busy : v.held = false → v.session.isFree = false →
      P { settings, wire := v.wire, released := [v.session] }) : P (v.client settings) := by
  cases hheld : v.held with
  | true =>
    rw [client_of_held settings hheld]
    exact held hheld
  | false =>
    cases hbusy : v.session.isFree with
    | true =>
      rw [client_of_free settings hheld hbusy]
      exact free hheld hbusy
    | false =>
      rw [client_of_busy settings hheld hbusy]
      exact busy hheld hbusy

/-- Work on every session is work on this one. -/
theorem each_client (work : Session → Wire → List Notice × Session × Wire)
    (hfree : ∀ s w, s.isFree = true → work s w = ([], s, w)) (v : Service) :
    (v.client settings).each work =
      ((work v.session v.wire).1, (v.tell (work v.session v.wire)).client settings) := by
  rcases hwork : work v.session v.wire with ⟨now, s, w⟩
  cases hheld : v.held with
  | true =>
    have hafter := client_of_held settings (v := v.tell (now, s, w)) hheld
    rw [client_of_held settings hheld, hafter]
    simp [Client.each, Client.turns, hwork, Client.sweep, tell]
  | false =>
    cases hbusy : v.session.isFree with
    | true =>
      rw [hfree _ _ hbusy] at hwork
      cases hwork
      have hafter := client_of_free settings (v := v.tell ([], v.session, v.wire)) hheld hbusy
      rw [client_of_free settings hheld hbusy, hafter]
      simp [Client.each, Client.turns, Client.sweep, tell]
    | false =>
      rw [client_of_busy settings hheld hbusy]
      simp [Client.each, Client.turns, hwork, client, tell, hheld]

theorem isAwake_client (v : Service) (h : v.session.isAwake = false) :
    (v.client settings).isAwake = false := by
  refine client_cases (P := fun c => c.isAwake = false) settings v
    (fun _ => ?held) (fun _ _ => rfl) (fun _ _ => ?busy)
  case held => simp [Client.isAwake, h]
  case busy => simp [Client.isAwake, h]

theorem isAwake_client_of_awake (v : Service) (h : v.session.isAwake = true) :
    (v.client settings).isAwake = true := by
  have hbusy : v.session.isFree = false := by
    unfold Session.isAwake at h
    cases hr : v.session.running with
    | none => simp [hr] at h
    | some r => simp [Session.isFree, hr]
  refine client_cases (P := fun c => c.isAwake = true) settings v
    (fun _ => ?held) (fun _ hfree => ?free) (fun _ _ => ?busy)
  case held => simp [Client.isAwake, h]
  case free => simp [hbusy] at hfree
  case busy => simp [Client.isAwake, h]

theorem exchange?_client (v : Service) : (v.client settings).exchange? =
    if v.held && v.session.isFree then some v.session.exchange else none := by
  refine client_cases (P := fun c => c.exchange? = _) settings v
    (fun hheld => ?held) (fun hgone hfree => ?free) (fun hgone hbusy => ?busy)
  case held => simp only [hheld, Bool.true_and]; rfl
  case free => simp only [hgone, Bool.false_and]; rfl
  case busy => simp only [hgone, Bool.false_and]; rfl

/-! ### Settling -/

/-- Enough rounds come to a session that is still. -/
theorem rounds_client : ∀ (n : Nat) (v : Service), v.wire.events ≤ n → ∃ now s w,
    v.session.Works v.wire now s w ∧ s.IsStill w ∧
      (v.client settings).rounds n = (now, (v.tell (now, s, w)).client settings) := by
  intro n
  induction n with
  | zero =>
    intro v hn
    have hround := each_client settings _ (fun _ w h => Session.turn_of_free h w) v
    refine ⟨_, _, _, v.session.works_turn v.wire, ?_, hround⟩
    rcases v.session.rests_turn v.wire with hstill | ⟨-, hlt⟩
    · exact hstill
    · omega
  | succ n ih =>
    intro v hn
    have hround := each_client settings _ (fun _ w h => Session.turn_of_free h w) v
    have hworks := v.session.works_turn v.wire
    have hrests := v.session.rests_turn v.wire
    revert hround hworks hrests
    rcases v.session.turn v.wire with ⟨now, s, w⟩
    intro hround hworks hrests
    rcases hrests with hstill | ⟨hawake, hlt⟩
    · refine ⟨now, s, w, hworks, hstill, ?_⟩
      have hasleep := isAwake_client settings (v.tell (now, s, w)) hstill.isAwake
      rw [Client.rounds, show (v.client settings).round = _ from hround]
      simp [hasleep]
    · have hstep := isAwake_client_of_awake settings (v.tell (now, s, w)) hawake
      obtain ⟨later, s', w', hworks', hstill, hrounds⟩ :=
        ih (v.tell (now, s, w)) (Nat.le_of_lt_succ (Nat.lt_of_lt_of_le hlt hn))
      refine ⟨now ++ later, s', w', hworks.trans hworks', hstill, ?_⟩
      rw [Client.rounds, show (v.client settings).round = _ from hround]
      simp only [hstep, if_pos, hrounds]
      rfl

/-- The wire of the client is that of the session, or the session has let go of
its connection. -/
theorem wire_client (v : Service) : (v.client settings).wire = v.wire ∨
    (v.client settings).wire = v.session.drop v.wire :=
  client_cases (P := fun c => c.wire = v.wire ∨ c.wire = v.session.drop v.wire) settings v
    (fun _ => .inl rfl) (fun _ _ => .inr rfl) (fun _ _ => .inl rfl)

theorem client_frame {α : Type} (f : Wire → α) {v : Service} (hf : f v.wire.drop = f v.wire) :
    f (v.client settings).wire = f v.wire := by
  rcases wire_client settings v with h | h
  · exact congrArg f h
  · exact (congrArg f h).trans (v.session.exchange.release_frame f hf)

/-- To settle comes to a session that is still. -/
theorem settle_client (v : Service) : ∃ now s w,
    v.session.Works v.wire now s w ∧ s.IsStill w ∧
      (v.client settings).settle = (now, (v.tell (now, s, w)).client settings) := by
  rw [Client.settle, client_frame settings Wire.events rfl]
  exact rounds_client settings _ v (Nat.le_succ _)

end Client

/-! ### Events -/

/-- The background that starts to execute a request. -/
def start (settings : Settings) (wire : Wire) (q : Request) : Service :=
  { session := .start settings q, wire }

variable (settings : Settings)

theorem current_of_gone {v : Service} (h : v.held = false) :
    (v.client settings).current = none :=
  client_cases (P := fun c => c.current = none) settings v
    (fun hheld => by simp [h] at hheld) (fun _ _ => rfl) (fun _ _ => rfl)

theorem isSome_current (v : Service) : (v.client settings).current.isSome = v.held := by
  cases hheld : v.held with
  | true => rw [client_of_held settings hheld]; rfl
  | false => rw [current_of_gone settings hheld]; rfl

/-- What the client keeps hold of is the session. -/
theorem current_client (v : Service) (s : Session) :
    (v.client settings).current = some s ↔ v.held = true ∧ v.session = s := by
  cases hheld : v.held with
  | true => simp [client_of_held settings hheld]
  | false => simp [current_of_gone settings hheld]

/-- A client that has let go of its session keeps hold of no other. -/
theorem release_client (v : Service) :
    (v.client settings).release = { v with held := false }.client settings := by
  cases hheld : v.held with
  | true =>
    rw [client_of_held settings hheld]
    rfl
  | false =>
    cases hbusy : v.session.isFree with
    | true =>
      rw [client_of_free settings hheld hbusy,
        client_of_free settings (v := { v with held := false }) rfl hbusy]
      rfl
    | false =>
      rw [client_of_busy settings hheld hbusy,
        client_of_busy settings (v := { v with held := false }) rfl hbusy]
      simp [Client.release, Client.sweep, hbusy]

/-- An owner that has let go of the session can do nothing more with it. -/
theorem step_gone {v : Service} {event : Background.Event} (h : v.held = false)
    (howners : event.IsOwners) :
    (v.background settings).step event = v.background settings := by
  have hnone : (v.background settings).client.current = none := current_of_gone settings h
  cases event with
  | reads => simp [Background.step, hnone]
  | cancels => simp [Background.step, Client.cancel, hnone]
  | closes => simp [Background.step, Client.close, hnone]
  | _ => exact howners.elim

/-- Behind its work the session is still. -/
theorem Step.of_settles {v v' : Service} (h : v.Step .settles v') :
    v'.session.IsStill v'.wire ∧ v'.held = v.held ∧ v'.sizes = v.sizes := by
  cases h with
  | gone _ howners => exact howners.elim
  | settles _ hstill => exact ⟨hstill, rfl, rfl⟩

/-- What an event does. -/
theorem step_background (v : Service) (event : Background.Event) : ∃ v', v.Step event v' ∧
    (v.background settings).step event = v'.background settings := by
  have htell : ∀ {r a}, r = (a.1, (v.tell a).client settings) →
      (v.background settings).tell r = (v.tell a).background settings := by
    rintro r a rfl
    rfl
  have hquiet : ∀ s, v.tell ([], s, v.wire) = { v with session := s } := by
    intro s
    rw [tell, List.append_nil]
  cases event with
  | overtakes n =>
    have heach := each_client settings (fun s w => ([], s.overtake n, w))
      (fun s w h => by rw [Session.overtake_of_free h]) v
    exact ⟨_, .overtakes n, (htell heach).trans (congrArg _ (hquiet _))⟩
  | takes =>
    have heach := each_client settings (fun s w => ([], s.take, w))
      (fun s w h => by rw [Session.take_of_free h]) v
    exact ⟨_, .takes, (htell heach).trans (congrArg _ (hquiet _))⟩
  | asks => exact ⟨_, .asks, htell (each_client settings _ (fun _ w h => Session.ask_of_free h w) v)⟩
  | settles =>
    obtain ⟨now, s, w, hworks, hstill, hsettle⟩ := settle_client settings v
    exact ⟨_, .settles hworks hstill, htell hsettle⟩
  | reads size =>
    cases hheld : v.held with
    | true =>
      refine ⟨_, .reads size hheld, ?_⟩
      simp [Background.step, background, client, hheld, Client.read]
    | false => exact ⟨v, .gone hheld trivial, step_gone settings hheld trivial⟩
  | cancels =>
    cases hheld : v.held with
    | true =>
      refine ⟨_, .cancels hheld, ?_⟩
      simp [Background.step, background, client, hheld, Client.cancel]
    | false => exact ⟨v, .gone hheld trivial, step_gone settings hheld trivial⟩
  | closes =>
    cases hheld : v.held with
    | true =>
      cases hbusy : v.session.isFree with
      | true =>
        refine ⟨_, .closes hheld hbusy, ?_⟩
        rcases hclose : v.session.exchange.carryOut .close v.wire with ⟨_ | _ | _ | _, e, w⟩ <;>
          simp [Background.step, background, client, hheld, Client.close, hbusy, hclose]
      | false =>
        refine ⟨_, .busy hheld hbusy, ?_⟩
        simp [Background.step, background, client, hheld, Client.close, hbusy]
    | false => exact ⟨v, .gone hheld trivial, step_gone settings hheld trivial⟩
  | releases =>
    refine ⟨_, .releases, ?_⟩
    simp only [Background.step, background, release_client]

/-- What every step keeps holds behind every run. -/
theorem run_background {P : Service → Prop} : ∀ (events : List Background.Event) {v : Service},
    (∀ event ∈ events, ∀ {v v'}, P v → v.Step event v' → P v') → P v → ∃ v', P v' ∧
      (v.background settings).run events = v'.background settings
  | [], v, _, h => ⟨v, h, rfl⟩
  | event :: events, v, hstep, h => by
    obtain ⟨v₁, hstep₁, hv₁⟩ := step_background settings v event
    have h₁ := hstep event (List.mem_cons_self ..) h hstep₁
    obtain ⟨v', h', hv'⟩ :=
      run_background events (fun event hmem => hstep event (List.mem_cons_of_mem _ hmem)) h₁
    refine ⟨v', h', ?_⟩
    rw [Background.run, List.foldl_cons, hv₁]
    exact hv'

/-! ### Places -/

end Service

namespace Session

variable {s s' : Session}

/-- The order in which tasks wait does not count. -/
theorem Fires.of_perm (h : s.Fires)
    (hperm : (s'.tasks.map Task.place).Perm (s.tasks.map Task.place))
    (hcompletion : s'.completion = s.completion) : s'.Fires :=
  ⟨hperm.nodup_iff.mpr h.nodup, by rw [hcompletion, hperm.mem_iff]; exact h.fired⟩

theorem Fires.read (h : s.Fires) {index : Nat} (hnew : index + 1 ∉ s.tasks.map Task.place)
    (size : Nat) : (s.read index size).Fires := by
  have htasks : (s.read index size).tasks.map Task.place =
      s.tasks.map Task.place ++ [index + 1] := by
    simp [tasks, Session.read, Task.place]
  refine ⟨?_, ?_⟩
  · rw [htasks]
    exact List.nodup_append.mpr ⟨h.nodup, List.pairwise_singleton .., fun place hmem new hnew' heq =>
      hnew (List.mem_singleton.mp hnew' ▸ heq ▸ hmem)⟩
  · have hfired := h.fired
    rw [htasks]
    simpa [Session.read] using hfired

theorem tasks_overtake_perm (n : Nat) (s : Session) : (s.overtake n).tasks.Perm s.tasks := by
  have hrunning : (s.overtake n).running = s.running := by
    unfold overtake
    split <;> rfl
  rw [tasks, tasks, hrunning]
  exact (waiting_overtake_perm n s).append_left _

theorem completion_overtake (n : Nat) (s : Session) :
    (s.overtake n).completion = s.completion := by
  unfold overtake
  split <;> rfl

/-- To cancel leaves the tasks as they are. -/
theorem cancel_eq (s : Session) (w : Wire) :
    (s.cancel w).1 = { s with exchange := (s.cancel w).1.exchange } := by
  unfold Session.cancel
  split <;> rfl

end Session

namespace Service

/-- Each task has been reported of, or has still to be done. -/
structure Accounted (v : Service) : Prop where
  places : (v.told.map Notice.place ++ v.session.tasks.map Task.place).Perm
    (List.range (v.sizes.length + 1))
  fires : v.session.Fires

theorem accounted_start (settings : Settings) (wire : Wire) (q : Request) : (start settings wire q).Accounted :=
  ⟨.refl _, ⟨List.pairwise_singleton .., by simp [start, Session.start, Session.tasks, Task.place,
    OneShot.isFired]⟩⟩

variable {v v' : Service} {event : Background.Event}

/-- The completion is reported once it was fired, and not before. -/
theorem Accounted.fired (h : v.Accounted) :
    v.session.completion.isFired = true ↔ ∃ r, Notice.completed r ∈ v.told := by
  have hmem : 0 ∈ v.told.map Notice.place ++ v.session.tasks.map Task.place :=
    h.places.mem_iff.mpr (List.mem_range.mpr (Nat.succ_pos _))
  have hnodup := h.places.nodup_iff.mpr List.nodup_range
  rw [h.fires.fired]
  constructor
  · intro hleft
    obtain ⟨n, hn, hzero⟩ := List.mem_map.mp ((List.mem_append.mp hmem).resolve_right hleft)
    cases n with
    | completed r => exact ⟨r, hn⟩
    | read index r => cases hzero
  · rintro ⟨r, hr⟩ hleft
    exact (List.nodup_append.mp hnodup).2.2 0 (List.mem_map_of_mem hr) 0 hleft rfl

/-- Another task is one that is not there yet. -/
theorem Accounted.not_mem (h : v.Accounted) :
    v.sizes.length + 1 ∉ v.session.tasks.map Task.place := by
  intro hmem
  have hrange := h.places.mem_iff.mp (List.mem_append_right _ hmem)
  exact Nat.lt_irrefl _ (List.mem_range.mp hrange)

theorem Accounted.of_tasks (h : v.Accounted) (hsizes : v'.sizes = v.sizes)
    (htold : v'.told = v.told)
    (htasks : (v'.session.tasks.map Task.place).Perm (v.session.tasks.map Task.place))
    (hcompletion : v'.session.completion = v.session.completion) : v'.Accounted := by
  refine ⟨?_, h.fires.of_perm htasks hcompletion⟩
  rw [hsizes, htold]
  exact (htasks.append_left _).trans h.places

theorem Accounted.take (h : v.Accounted) : { v with session := v.session.take }.Accounted := by
  have htasks := Session.tasks_take v.session
  refine ⟨?_, h.fires.take⟩
  show (_ ++ v.session.take.tasks.map Task.place).Perm _
  rw [htasks]
  exact h.places

theorem Accounted.ask (h : v.Accounted) : (v.tell (v.session.ask v.wire)).Accounted := by
  have hanswers := v.session.answers_ask v.wire
  refine ⟨?_, hanswers.fires h.fires⟩
  have hplaces := hanswers.places h.fires
  simp only [tell, List.map_append, List.append_assoc, hplaces]
  exact h.places

theorem Accounted.works {now : List Notice} {s : Session} {w : Wire} (h : v.Accounted)
    (hworks : v.session.Works v.wire now s w) : (v.tell (now, s, w)).Accounted :=
  hworks.induct (P := fun told s w => Accounted { v with session := s, wire := w, told })
    (fun h => h.take) (fun h => h.ask) h

theorem Accounted.read (h : v.Accounted) (size : Nat) : Accounted
    { v with
      session := v.session.read v.sizes.length size
      sizes := v.sizes ++ [size] } := by
  refine ⟨?_, h.fires.read h.not_mem size⟩
  have htasks : (v.session.read v.sizes.length size).tasks.map Task.place =
      v.session.tasks.map Task.place ++ [v.sizes.length + 1] := by
    simp [Session.tasks, Session.read, Task.place]
  rw [htasks, List.length_append, ← List.append_assoc]
  exact (List.range_succ (n := v.sizes.length + 1)) ▸ h.places.append_right _

theorem Accounted.cancel (h : v.Accounted) : Accounted
    { v with
      session := (v.session.cancel v.wire).1
      wire := (v.session.cancel v.wire).2 } := by
  have hcancel := v.session.cancel_eq v.wire
  refine h.of_tasks rfl rfl ?_ ?_
  all_goals
    dsimp only
    rw [hcancel]
  exact .refl _

/-- No event loses a task. -/
theorem Accounted.step (h : v.Accounted) (hstep : v.Step event v') : v'.Accounted := by
  cases hstep with
  | gone => exact h
  | reads size => exact h.read size
  | overtakes n =>
    exact h.of_tasks rfl rfl ((v.session.tasks_overtake_perm n).map _)
      (v.session.completion_overtake n)
  | takes => exact h.take
  | asks => exact h.ask
  | settles hworks => exact h.works hworks
  | cancels => exact h.cancel
  | closes => exact h.of_tasks rfl rfl (.refl _) rfl
  | busy => exact h
  | releases => exact h.of_tasks rfl rfl (.refl _) rfl

end Service
end Http1Client
