/-
# A cancellation between the steps of a task

To cancel is two steps: the token is set, and then the exchange is aborted if
nobody has it. Both may come between any two steps of the task that has the
exchange: it looks at the token, asks the wire and goes on to its next look, or
it is done and gives the exchange away a little later (`Shared.Step`). A question
to a task is a run of such steps (`Shared.reaches_answered`). What a task does
between two looks is one step: it does not see a token that is set meanwhile, and
it has the exchange all the time, so that nothing is aborted.

A task that looks at the token behind the first step fails. One that was done
before may still have the exchange when it is to be aborted, and then nobody ever
aborts it: it stays inside the body, with its connection, until it is read again
(`Shared.cancel_keeps`). This is the one case in which a cancelled exchange that
nobody works on has neither come to its end nor failed and let go of its
connection (`Shared.cancel_lets_go`).

Key definitions: `Shared`, `Shared.Step`, `Exchange.Keeps`, `Shared.Sound`,
`Shared.Fails`.
Key theorems: `Shared.reaches_answered`, `Shared.Sound.step`,
`Shared.Fails.step`, `Shared.cancel_lets_go`, `Shared.cancel_keeps`.
-/
import Mathlib.Logic.Relation
import Http1Client.Proofs.Background.Cancelling

namespace Http1Client

/-- Who has the exchange. -/
inductive Holder where
  /-- A task that is to look at the token next. -/
  | task (t : Task)
  /-- A task that is done, and has not given the exchange away yet. -/
  | done

/-- An exchange that tasks share: who has it, and who waits for it. -/
structure Shared where
  exchange : Exchange
  wire : Wire
  holder : Option Holder := none
  waiting : List Task := []

namespace Shared

/-- An exchange that is to execute a request. -/
def start (settings : Settings) (wire : Wire) (q : Request) : Shared :=
  { exchange := { settings }, wire, waiting := [.execute (.start q)] }

/-- Nobody has the exchange, and nobody waits for it. -/
def IsFree (c : Shared) : Prop := c.holder = none ∧ c.waiting = []

/-- What was asked is answered: the task is done, or it has to look again. -/
def answered (c : Shared) : Turn Notice Task × Exchange × Wire → Shared
  | (.done _, exchange, wire) => { c with exchange, wire, holder := some .done }
  | (.wait _ t, exchange, wire) => { c with exchange, wire, holder := some (.task t) }

/-- The first half of a cancellation: the token is set. -/
def setToken (c : Shared) : Shared := { c with exchange := c.exchange.cancel }

/-- The second half of a cancellation: the exchange is aborted if nobody has it. -/
def tryAbort (c : Shared) : Shared :=
  match c.holder with
  | some _ => c
  | none => { c with exchange := (c.exchange.abort c.wire).1, wire := (c.exchange.abort c.wire).2 }

/-- Is the task answered before it looks again? -/
def Stops (c : Shared) : Task → Prop
  | .execute x => x.Stops c.exchange c.wire (x.poll c.exchange c.wire)
  | .read _ _ => True

/-- One step of a task, or of its owner. -/
inductive Step (c : Shared) : Shared → Prop where
  /-- A reading is started. -/
  | reads (index size : Nat) : Step c { c with waiting := c.waiting ++ [.read index size] }
  /-- A task that waits takes the exchange. -/
  | takes {t : Task} {ts : List Task} : c.holder = none → c.waiting.Perm (t :: ts) →
      Step c { c with holder := some (.task t), waiting := ts }
  /-- The execution goes on to its next look at the token. -/
  | strides {x x' : Execution} {e : Exchange} {w : Wire} :
      c.holder = some (.task (.execute x)) → x.Strides c.exchange c.wire x' e w →
      Step c { c with exchange := e, wire := w, holder := some (.task (.execute x')) }
  | answers {t : Task} : c.holder = some (.task t) → c.Stops t →
      Step c (c.answered (t.poll c.exchange c.wire))
  /-- A task that is done gives the exchange away. -/
  | gives : c.holder = some .done → Step c { c with holder := none }
  | sets : Step c c.setToken
  | tries : Step c c.tryAbort

/-- Steps one after the other. -/
abbrev Reaches : Shared → Shared → Prop := Relation.ReflTransGen Step

variable {c c' : Shared}

/-- The exchange when the execution has come to this point. -/
def atPoint (c : Shared) (x : Execution) (e : Exchange) (w : Wire) : Shared :=
  { c with exchange := e, wire := w, holder := some (.task (.execute x)) }

/-- An execution that is asked comes to its answer step by step. -/
theorem reaches_execute (c : Shared) (x : Execution) (e : Exchange) (w : Wire) :
    Reaches (c.atPoint x e w) (c.answered ((Task.execute x).poll e w)) := by
  rcases x.proceeds e w with hstop | ⟨x', e', w', hstride, hpoll⟩
  · exact .single (.answers (c := c.atPoint x e w) (t := .execute x) rfl hstop)
  · have hrest := reaches_execute c x' e' w'
    rw [Task.poll, ← hpoll] at hrest
    exact .head (.strides (c := c.atPoint x e w) rfl hstride) hrest
termination_by Stage.rank .awaitingHead - x.stage.rank
decreasing_by
  have := hstride.rank_lt
  have := x'.rank_stage_le
  omega

/-- A question to a task is a run of steps. -/
theorem reaches_answered {t : Task} (h : c.holder = some (.task t)) :
    Reaches c (c.answered (t.poll c.exchange c.wire)) := by
  cases t with
  | execute x =>
    have hc : c.atPoint x c.exchange c.wire = c := by rw [atPoint, ← h]
    have hreaches := c.reaches_execute x c.exchange c.wire
    rwa [hc] at hreaches
  | read index size => exact .single (.answers h trivial)

end Shared

/-! ### Where the connection is -/

/-- A connection that was made is let go of, or held by the exchange, or owned
by the task that has it. -/
def Exchange.Keeps (e : Exchange) (w : Wire) (owned : Bool) : Prop :=
  w.connected = true → w.dropped = true ∨ e.connected = true ∨ owned = true

namespace Exchange

variable {e e' : Exchange} {w w' : Wire} {owned : Bool}

theorem keeps_of_dropped (h : w.dropped = true) : e.Keeps w owned := fun _ => .inl h

theorem keeps_of_owned (h : owned = true) : e.Keeps w owned := fun _ => .inr (.inr h)

theorem Keeps.of_asked {α : Type} {answer : Poll α} (h : e.Keeps w owned)
    (hw : w.Asked answer w') (he : e'.connected = e.connected) : e'.Keeps w' owned := by
  intro hconnected
  rw [hw.dropped, he]
  exact h (hw.connected ▸ hconnected)

/-- An exchange that fails holds no connection, and leaves none behind. -/
theorem Keeps.fail (h : e.Keeps w false) : (e.fail w).1.Keeps (e.fail w).2 false := by
  intro hconnected
  show (e.release w).dropped = true ∨ _
  unfold release
  split
  · exact .inl rfl
  · next hnone =>
    have hkept : (e.fail w).2 = w := by
      show e.release w = w
      rw [release, if_neg hnone]
    rw [hkept] at hconnected
    exact .inl ((h hconnected).resolve_right (by simp [hnone]))

theorem keeps_fail_drop (e : Exchange) (w : Wire) : (e.fail w.drop).1.Keeps (e.fail w.drop).2 owned := by
  refine keeps_of_dropped ?_
  exact e.fail_frame Wire.dropped (w := w.drop) rfl

theorem Keeps.abort (h : e.Keeps w false) : (e.abort w).1.Keeps (e.abort w).2 false := by
  unfold Exchange.abort
  split
  · exact Keeps.fail (e := e.cancel) h
  · exact h

theorem keeps_pollRead (h : e.Keeps w false) (size : Nat) :
    (e.pollRead size w).2.1.Keeps (e.pollRead size w).2.2 false := by
  unfold pollRead
  split
  · exact h
  · next r _ _ =>
    have hasked := r.asked_pollBody size w
    split
    · exact h.fail
    · split
      · next hpoll =>
        rw [hpoll] at hasked
        exact h.of_asked hasked rfl
      · next r' w' hpoll =>
        rw [hpoll] at hasked
        have hreceived : Keeps { e with receiver := some r' } w' false := h.of_asked hasked rfl
        exact hreceived.fail
      · next hpoll =>
        rw [hpoll] at hasked
        exact h.of_asked hasked rfl
  · exact h
  · exact h

end Exchange

namespace Execution

variable {x x' : Execution} {e e' : Exchange} {w w' : Wire}

/-- From its first stride behind the connection on, an execution owns it. -/
theorem Strides.keeps (h : Strides e w x x' e' w') (hkeeps : e.Keeps w x.ownsConnection) :
    e'.Keeps w' x'.ownsConnection := by
  cases h with
  | starts => exact hkeeps
  | _ => exact Exchange.keeps_of_owned rfl

/-- What is left of an execution keeps what it owns. -/
def LeftOwned : Turn (Except FailedExecution Response) Execution → Bool
  | .done _ => false
  | .wait _ x => x.ownsConnection

theorem Stops.keeps {a : Answer} (h : Stops e w x a) (hkeeps : e.Keeps w x.ownsConnection) :
    a.2.1.Keeps a.2.2 (LeftOwned a.1) := by
  cases h with
  | busy => exact hkeeps
  | hostless => exact hkeeps.fail
  | cancelledFirst => exact Exchange.Keeps.fail (e := e.advance .connecting) hkeeps
  | @cancelled _ response =>
    cases howned : x.ownsConnection with
    | true =>
      have hdrop : (Op.execute x).abandon w = w.drop := if_pos howned
      rw [hdrop]
      exact Exchange.keeps_fail_drop _ _
    | false =>
      have hkept : (Op.execute x).abandon w = w := if_neg (Bool.eq_false_iff.mp howned)
      rw [howned] at hkeeps
      rw [hkept]
      exact Exchange.Keeps.fail (e := { e with response }) hkeeps
  | notConnected _ hw =>
    exact (Exchange.Keeps.of_asked hkeeps (Wire.asked_connect hw (by simp)) rfl).fail
  | connecting _ hw => exact hkeeps.of_asked (Wire.asked_connect hw (by simp)) rfl
  | headRefused => exact Exchange.keeps_fail_drop _ _
  | headUnsent => exact Exchange.keeps_fail_drop _ _
  | sendingHead => exact Exchange.keeps_of_owned rfl
  | bodyRefused => exact Exchange.keeps_fail_drop _ _
  | bodyUnsent => exact Exchange.keeps_fail_drop _ _
  | sendingBody => exact Exchange.keeps_of_owned rfl
  | headUnread => exact Exchange.keeps_fail_drop _ _
  | awaitingHead => exact Exchange.keeps_of_owned rfl
  | head => exact fun _ => .inr (.inl rfl)

theorem keeps_poll (h : e.Keeps w x.ownsConnection) :
    (x.poll e w).2.1.Keeps (x.poll e w).2.2 (LeftOwned (x.poll e w).1) :=
  poll_induct (P := fun x e w => e.Keeps w x.ownsConnection)
    (Q := fun a => a.2.1.Keeps a.2.2 (LeftOwned a.1)) (fun h hstride => hstride.keeps h)
    (fun h hstop => hstop.keeps h) h

end Execution

namespace Shared

variable {c c' : Shared}

/-! ### Where the exchange stands -/

/-- Who has the exchange is no execution. -/
def NoExecution (c : Shared) : Prop := ∀ x, c.holder ≠ some (.task (.execute x))

/-- Where the exchange stands with its execution. -/
inductive Stands (c : Shared) : Prop where
  | waits {q : Request} {ts : List Task} : c.waiting.Perm (.execute (.start q) :: ts) →
      (∀ t ∈ ts, t.place ≠ 0) → c.NoExecution → c.exchange.stage = .idle → Stands c
  | runs {x : Execution} : c.holder = some (.task (.execute x)) →
      (∀ t ∈ c.waiting, t.place ≠ 0) → x.At c.exchange → c.exchange.stage = x.stage → Stands c
  | reads : (∀ t ∈ c.waiting, t.place ≠ 0) → c.NoExecution → c.exchange.IsAnswered → Stands c

theorem noExecution_of_none (h : c.holder = none) : c.NoExecution := fun x hx => by simp [h] at hx

theorem noExecution_of_done (h : c.holder = some .done) : c.NoExecution := fun x hx => by
  simp [h] at hx

theorem stands_start (settings : Settings) (wire : Wire) (q : Request) :
    (start settings wire q).Stands :=
  .waits (.refl _) (by simp) (noExecution_of_none rfl) rfl

/-- A task that waits takes the exchange. -/
theorem Stands.take {t : Task} {ts : List Task} (h : c.Stands) (hnone : c.holder = none)
    (hperm : c.waiting.Perm (t :: ts)) :
    Stands { c with holder := some (.task t), waiting := ts } := by
  cases h with
  | @waits q ts' hperm' hts _ hs =>
    have htasks := hperm.symm.trans hperm'
    by_cases ht : t = .execute (.start q)
    · subst ht
      have hrest := htasks.cons_inv
      exact .runs rfl (fun t ht => hts t (hrest.mem_iff.mp ht)) (Execution.at_start ..) hs
    · -- A reading is ahead of the execution, which goes on waiting.
      have hmem : t ∈ ts' := by
        have hmem := htasks.mem_iff.mp (List.mem_cons_self ..)
        exact (List.mem_cons.mp hmem).resolve_left ht
      have hrest : ts.Perm (.execute (.start q) :: ts'.erase t) := by
        refine (List.Perm.cons_inv (a := t) ?_)
        exact htasks.trans (((List.perm_cons_erase hmem).cons _).trans (.swap ..))
      refine .waits hrest (fun t' ht' => hts t' (List.mem_of_mem_erase ht')) (fun x hx => ?_) hs
      cases hx
      exact hts _ hmem rfl
  | runs hr => simp [hnone] at hr
  | reads hts _ he =>
    refine .reads (fun t' ht' => hts t' (hperm.mem_iff.mpr (List.mem_cons_of_mem _ ht')))
      (fun x hx => ?_) he
    cases hx
    exact hts _ (hperm.mem_iff.mpr (List.mem_cons_self ..)) rfl

/-- The exchange when the task that has it is done. -/
def atEnd (c : Shared) (e : Exchange) (w : Wire) : Shared :=
  { c with exchange := e, wire := w, holder := some .done }

/-- What the task that has the exchange comes to. -/
inductive Answers (c : Shared) : Task → Shared → Prop where
  | executed {x : Execution} {result : Except FailedExecution Response} {e : Exchange} {w : Wire} :
      x.poll c.exchange c.wire = (.done result, e, w) → Answers c (.execute x) (c.atEnd e w)
  | executes {x x' : Execution} {again : Bool} {e : Exchange} {w : Wire} :
      x.poll c.exchange c.wire = (.wait again x', e, w) → Answers c (.execute x) (c.atPoint x' e w)
  | delivered {index size : Nat} {result : Except Failure Delivery} {e : Exchange} {w : Wire} :
      c.exchange.pollRead size c.wire = (.done result, e, w) →
      Answers c (.read index size) (c.atEnd e w)
  | reads {index size : Nat} {again : Bool} {e : Exchange} {w : Wire} :
      c.exchange.pollRead size c.wire = (.wait again (), e, w) →
      Answers c (.read index size)
        { c with exchange := e, wire := w, holder := some (.task (.read index size)) }

theorem answers_answered (c : Shared) (t : Task) :
    c.Answers t (c.answered (t.poll c.exchange c.wire)) := by
  cases t with
  | execute x =>
    rcases hx : x.poll c.exchange c.wire with ⟨result | ⟨again, x'⟩, e, w⟩
    all_goals rw [Task.poll, hx]
    · exact .executed hx
    · exact .executes hx
  | read index size =>
    rcases hr : c.exchange.pollRead size c.wire with ⟨result | ⟨again, u⟩, e, w⟩
    all_goals rw [Task.poll, hr]
    · exact .delivered hr
    · exact .reads hr

/-- A task that has the exchange is the execution at its stage, or a reading. -/
theorem Stands.runs_execute {x : Execution} (h : c.Stands)
    (hx : c.holder = some (.task (.execute x))) :
    (∀ t ∈ c.waiting, t.place ≠ 0) ∧ x.At c.exchange ∧ c.exchange.stage = x.stage := by
  cases h with
  | waits _ _ hno => exact absurd hx (hno x)
  | runs hx' hts hat hs =>
    rw [hx] at hx'
    cases hx'
    exact ⟨hts, hat, hs⟩
  | reads _ hno => exact absurd hx (hno x)

/-- What a reading leaves the exchange at does not count, as long as it does not
leave its stage behind. -/
theorem Stands.of_read {index size : Nat} {e : Exchange} {c' : Shared} (h : c.Stands)
    (hread : c.holder = some (.task (.read index size)))
    (hidle : c.exchange.stage = .idle → e.stage = .idle)
    (hanswered : c.exchange.IsAnswered → e.IsAnswered) (hwaiting : c'.waiting = c.waiting)
    (he : c'.exchange = e) (hno : c'.NoExecution) : c'.Stands := by
  cases h with
  | waits hperm hts _ hs => exact .waits (hwaiting ▸ hperm) hts hno (he ▸ hidle hs)
  | runs hx => simp [hread] at hx
  | reads hts _ hanswers => exact .reads (hwaiting ▸ hts) hno (he ▸ hanswered hanswers)

/-- A task that answers leaves the exchange standing. -/
theorem Answers.stands {t : Task} {closes : Prop} (ha : c.Answers t c') (h : c.Stands)
    (hsound : c.exchange.Sound closes) (ht : c.holder = some (.task t)) :
    c'.Stands ∧ c'.exchange.Sound closes := by
  have hreading : ∀ size, (c.exchange.stage = .idle →
        (c.exchange.pollRead size c.wire).2.1.stage = .idle) ∧
      (c.exchange.IsAnswered → (c.exchange.pollRead size c.wire).2.1.IsAnswered) ∧
      (c.exchange.pollRead size c.wire).2.1.Sound closes := by
    intro size
    refine ⟨fun hidle => ?_, fun he => Exchange.isAnswered_pollRead he size c.wire,
      Exchange.sound_pollRead hsound size c.wire⟩
    obtain ⟨r, hr, -⟩ := Course.pollRead_of_ne c.exchange c.wire size (by simp [hidle])
    rw [hr]
    exact hidle
  cases ha with
  | @executed x result e w hx =>
    obtain ⟨hts, hat, hs⟩ := h.runs_execute ht
    have hleaves := Execution.leaves_poll hs c.wire
    have hsound := Execution.sound_poll hsound hat c.wire
    rw [hx] at hleaves hsound
    exact ⟨.reads hts (noExecution_of_done rfl) hleaves, hsound.1⟩
  | @executes x x' again e w hx =>
    obtain ⟨hts, hat, hs⟩ := h.runs_execute ht
    have hleaves := Execution.leaves_poll hs c.wire
    have hsound := Execution.sound_poll hsound hat c.wire
    rw [hx] at hleaves hsound
    exact ⟨.runs rfl hts hsound.2 hleaves.1, hsound.1⟩
  | @delivered index size result e w hr =>
    obtain ⟨hidle, hanswered, hsound⟩ := hreading size
    rw [hr] at hidle hanswered hsound
    exact ⟨h.of_read ht hidle hanswered rfl rfl (noExecution_of_done rfl), hsound⟩
  | @reads index size again e w hr =>
    obtain ⟨hidle, hanswered, hsound⟩ := hreading size
    rw [hr] at hidle hanswered hsound
    exact ⟨h.of_read ht hidle hanswered rfl rfl fun x hx => (by cases hx), hsound⟩

/-! ### Every step -/

/-- Does the task that has the exchange own the connection? -/
def owns (c : Shared) : Bool :=
  match c.holder with
  | some (.task (.execute x)) => x.ownsConnection
  | _ => false

/-- The exchange stands with its execution, holds what its stage says, and no
connection is left behind. -/
structure Sound (c : Shared) : Prop where
  stands : c.Stands
  exchange : c.exchange.Sound False
  keeps : c.exchange.Keeps c.wire c.owns

theorem sound_start (settings : Settings) {wire : Wire} (q : Request)
    (hfresh : wire.connected = false) : (start settings wire q).Sound :=
  ⟨stands_start settings wire q, ⟨.nothing rfl rfl rfl rfl, rfl⟩, fun h => by
    rw [show wire.connected = true from h] at hfresh
    cases hfresh⟩

theorem owns_of_noExecution (h : c.NoExecution) : c.owns = false := by
  unfold owns
  split
  · next x hx => exact absurd hx (h x)
  · rfl

theorem Answers.keeps {t : Task} (ha : c.Answers t c') (h : c.exchange.Keeps c.wire c.owns)
    (ht : c.holder = some (.task t)) : c'.exchange.Keeps c'.wire c'.owns := by
  cases ha with
  | @executed x result e w hx =>
    have hkeeps := Execution.keeps_poll (x := x) (by simpa [owns, ht] using h)
    rw [hx] at hkeeps
    exact hkeeps
  | @executes x x' again e w hx =>
    have hkeeps := Execution.keeps_poll (x := x) (by simpa [owns, ht] using h)
    rw [hx] at hkeeps
    exact hkeeps
  | @delivered index size result e w hr =>
    have hkeeps := Exchange.keeps_pollRead (by simpa [owns, ht] using h) size
    rw [hr] at hkeeps
    exact hkeeps
  | @reads index size again e w hr =>
    have hkeeps := Exchange.keeps_pollRead (by simpa [owns, ht] using h) size
    rw [hr] at hkeeps
    exact hkeeps

/-- An execution that waits has not gone on. -/
theorem Stands.fresh {x : Execution} (h : c.Stands) (hx : .execute x ∈ c.waiting) :
    ∃ q, x = .start q := by
  cases h with
  | @waits q ts hperm hts =>
    rcases List.mem_cons.mp (hperm.mem_iff.mp hx) with heq | hmem
    · exact ⟨q, Task.execute.inj heq⟩
    · exact absurd rfl (hts _ hmem)
  | runs _ hts => exact absurd rfl (hts _ hx)
  | reads hts => exact absurd rfl (hts _ hx)

theorem Stands.read (h : c.Stands) (index size : Nat) :
    Stands { c with waiting := c.waiting ++ [.read index size] } := by
  have hmore : ∀ {ts : List Task}, (∀ t ∈ ts, t.place ≠ 0) →
      ∀ t ∈ ts ++ [.read index size], t.place ≠ 0 := by
    intro ts hts t ht
    rcases List.mem_append.mp ht with ht | ht
    · exact hts t ht
    · rw [List.mem_singleton.mp ht]
      exact Nat.succ_ne_zero _
  cases h with
  | waits hperm hts hno hs => exact .waits (hperm.append_right _) (hmore hts) hno hs
  | runs hx hts hat hs => exact .runs hx (hmore hts) hat hs
  | reads hts hno he => exact .reads (hmore hts) hno he

theorem Stands.give (h : c.Stands) (hdone : c.holder = some .done) :
    Stands { c with holder := none } := by
  cases h with
  | waits hperm hts _ hs => exact .waits hperm hts (noExecution_of_none rfl) hs
  | runs hx => simp [hdone] at hx
  | reads hts _ he => exact .reads hts (noExecution_of_none rfl) he

theorem Stands.setToken (h : c.Stands) : c.setToken.Stands := by
  cases h with
  | waits hperm hts hno hs => exact .waits hperm hts hno hs
  | runs hx hts hat hs => exact .runs hx hts hat.cancel hs
  | reads hts hno he => exact .reads hts hno (he.of_stage rfl)

theorem tryAbort_of_some {holder : Holder} (h : c.holder = some holder) : c.tryAbort = c := by
  simp [tryAbort, h]

theorem tryAbort_of_none (h : c.holder = none) : c.tryAbort =
    { c with exchange := (c.exchange.abort c.wire).1, wire := (c.exchange.abort c.wire).2 } := by
  simp only [tryAbort, h]

theorem Stands.abort (h : c.Stands) (hnone : c.holder = none) : Stands
    { c with exchange := (c.exchange.abort c.wire).1, wire := (c.exchange.abort c.wire).2 } := by
  cases h with
  | waits hperm hts hno hs =>
    have hkept := Exchange.abort_of_idle hs c.wire
    exact .waits hperm hts hno (by rw [hkept]; exact hs)
  | runs hx => simp [hnone] at hx
  | reads hts hno he => exact .reads hts hno (Exchange.isAnswered_abort he c.wire)

/-- Every step keeps the exchange sound. -/
theorem Sound.step (h : c.Sound) (hstep : c.Step c') : c'.Sound := by
  obtain ⟨hstands, hsound, hkeeps⟩ := h
  cases hstep with
  | reads index size => exact ⟨hstands.read index size, hsound, hkeeps⟩
  | @takes t ts hnone hperm =>
    refine ⟨hstands.take hnone hperm, hsound, ?_⟩
    have hbefore := owns_of_noExecution (noExecution_of_none hnone)
    have hafter : owns { c with holder := some (.task t), waiting := ts } = false := by
      cases t with
      | execute x =>
        obtain ⟨q, rfl⟩ := hstands.fresh (hperm.mem_iff.mpr (List.mem_cons_self ..))
        rfl
      | read index size => rfl
    rw [hafter, ← hbefore]
    exact hkeeps
  | @strides x x' e w hx hstride =>
    obtain ⟨hts, hat, -⟩ := hstands.runs_execute hx
    obtain ⟨hsound', hat'⟩ := hstride.sound hsound hat
    refine ⟨.runs rfl hts hat' hstride.stage_next, hsound', ?_⟩
    exact hstride.keeps (by simpa [owns, hx] using hkeeps)
  | @answers t ht _ =>
    have hanswers := c.answers_answered t
    obtain ⟨hstands', hsound'⟩ := hanswers.stands hstands hsound ht
    exact ⟨hstands', hsound', hanswers.keeps hkeeps ht⟩
  | gives hdone =>
    have hbefore := owns_of_noExecution (noExecution_of_done hdone)
    rw [hbefore] at hkeeps
    exact ⟨hstands.give hdone, hsound, hkeeps⟩
  | sets => exact ⟨hstands.setToken, hsound.cancel, hkeeps⟩
  | tries =>
    cases hholder : c.holder with
    | some holder =>
      rw [tryAbort_of_some hholder]
      exact ⟨hstands, hsound, hkeeps⟩
    | none =>
      have hnobody := owns_of_noExecution (noExecution_of_none hholder)
      rw [hnobody] at hkeeps
      rw [tryAbort_of_none hholder]
      refine ⟨hstands.abort hholder, Exchange.sound_abort hsound c.wire, ?_⟩
      have hafter : owns { c with
          exchange := (c.exchange.abort c.wire).1, wire := (c.exchange.abort c.wire).2 } = false :=
        hnobody
      rw [hafter]
      exact hkeeps.abort

theorem Sound.reaches (h : c.Sound) (hreaches : Reaches c c') : c'.Sound := by
  induction hreaches with
  | refl => exact h
  | tail _ hstep ih => exact ih.step hstep

/-! ### Behind a cancellation -/

/-- Once the token is set, the exchange is inside the body only where its holder
is as said. -/
structure Fails (P : Option Holder → Prop) (c : Shared) : Prop where
  cancelled : c.exchange.cancelled = true
  inside : c.exchange.stage = .readingBody → P c.holder

/-- Who looks at the token that is set leaves the exchange outside the body. -/
theorem Answers.fails {t : Task} (ha : c.Answers t c') (h : c.Sound)
    (ht : c.holder = some (.task t)) (hcancelled : c.exchange.cancelled = true) :
    c'.exchange.cancelled = true ∧ c'.exchange.stage ≠ .readingBody := by
  have hreading : ∀ size, (c.exchange.pollRead size c.wire).2.1.cancelled = true ∧
      (c.exchange.pollRead size c.wire).2.1.stage ≠ .readingBody := by
    intro size
    by_cases hs : c.exchange.stage = .readingBody
    · have hcomplete : c.exchange.stage ≠ .complete := by simp [hs]
      obtain ⟨e, w, hr, he, -⟩ := Exchange.pollRead_of_cancelled hcancelled (.inl hs) h.exchange
        hcomplete size c.wire
      rw [hr]
      exact ⟨he.cancelled, by simp [he.stage]⟩
    · obtain ⟨r, hr, -⟩ := Course.pollRead_of_ne c.exchange c.wire size hs
      rw [hr]
      exact ⟨hcancelled, hs⟩
  have hexecution : ∀ {x}, c.holder = some (.task (.execute x)) → ∃ f e w,
      x.poll c.exchange c.wire = (.done (.error f), e, w) ∧ e.IsGivenUp := by
    intro x hx
    obtain ⟨-, -, hs⟩ := h.stands.runs_execute hx
    obtain ⟨q, hq⟩ : ∃ q, ∀ q', x = .start q' → q' = q := by
      cases x with
      | start q => exact ⟨q, fun q' h => (Execution.start.inj h).symm⟩
      | _ => exact ⟨plainRequest, fun q' h => by cases h⟩
    obtain ⟨f, e, w, hpoll, -, he, -⟩ := Execution.poll_of_cancelled hcancelled hs hq c.wire
    exact ⟨f, e, w, hpoll, he⟩
  cases ha with
  | executed hx =>
    obtain ⟨f, e', w', hx', he⟩ := hexecution ht
    rw [hx] at hx'
    cases hx'
    exact ⟨he.cancelled, by simp [atEnd, he.stage]⟩
  | executes hx =>
    obtain ⟨f, e', w', hx', he⟩ := hexecution ht
    rw [hx] at hx'
    cases hx'
  | @delivered index size result e w hr =>
    have hfails := hreading size
    rwa [hr] at hfails
  | @reads index size again e w hr =>
    have hfails := hreading size
    rwa [hr] at hfails

/-- An exchange that nobody has is aborted. -/
theorem fails_tryAbort_of_none {P : Option Holder → Prop} (h : c.holder = none) :
    c.tryAbort.Fails P := by
  obtain ⟨hcancelled, hs, -⟩ := c.exchange.abort_gives c.wire
  rw [tryAbort_of_none h]
  exact ⟨hcancelled, fun hs' => absurd hs' hs⟩

/-- Behind a cancellation every step fails, but for the task that was done
before it and gives the exchange away. -/
theorem Fails.step {P : Option Holder → Prop} (htask : ∀ t, P (some (.task t)))
    (hgive : P (some .done) → P none) (h : c.Fails P) (hsound : c.Sound) (hstep : c.Step c') :
    c'.Fails P := by
  obtain ⟨hcancelled, hinside⟩ := h
  cases hstep with
  | reads => exact ⟨hcancelled, hinside⟩
  | takes => exact ⟨hcancelled, fun _ => htask _⟩
  | strides hx hstride =>
    have hlook := Exchange.isCancelled_of_cancelled hcancelled c.wire
    cases hstride <;> simp_all
  | @answers t ht _ =>
    obtain ⟨hcancelled', hs⟩ := (c.answers_answered t).fails hsound ht hcancelled
    exact ⟨hcancelled', fun hs' => absurd hs' hs⟩
  | gives hdone => exact ⟨hcancelled, fun hs => hgive (hdone ▸ hinside hs)⟩
  | sets => exact ⟨rfl, hinside⟩
  | tries =>
    cases hholder : c.holder with
    | some holder =>
      rw [tryAbort_of_some hholder]
      exact ⟨hcancelled, hinside⟩
    | none => exact fails_tryAbort_of_none hholder

theorem Fails.reaches {P : Option Holder → Prop} (htask : ∀ t, P (some (.task t)))
    (hgive : P (some .done) → P none) (h : c.Fails P) (hsound : c.Sound)
    (hreaches : Reaches c c') : c'.Fails P := by
  induction hreaches with
  | refl => exact h
  | tail hreaches hstep ih => exact ih.step htask hgive (hsound.reaches hreaches) hstep

/-- An exchange that has failed holds no connection. -/
theorem connected_of_failed {e : Exchange} (h : e.Sound False) (hs : e.stage = .failed) :
    e.connected = false := by
  cases h.holds with
  | nothing _ hc => exact hc
  | reading hs' => simp [hs] at hs'
  | complete hs' => simp [hs] at hs'
  | closed hcloses => exact hcloses.elim

/-- Where an exchange has failed and no task owns it, its connection is let go
of. -/
theorem dropped_of_failed {e : Exchange} {w : Wire} (h : e.Sound False) (hkeeps : e.Keeps w false)
    (hs : e.stage = .failed) (hconnected : w.connected = true) : w.dropped = true := by
  have hnone := connected_of_failed h hs
  exact (hkeeps hconnected).resolve_right (by simp [hnone])

/-- Between the two halves of a cancellation, a task that is done and leaves the
exchange inside the body was done before. -/
theorem Sound.fails_set (h : c.Sound) (hbetween : Reaches c.setToken c') :
    c'.Fails fun holder => holder = some .done → c.holder = some .done :=
  have hset : c.setToken.Fails fun holder => holder = some .done → c.holder = some .done :=
    ⟨rfl, fun _ hdone => hdone⟩
  hset.reaches (fun t ht => by cases ht) (fun _ hnone => by cases hnone) (h.step .sets) hbetween

/-- Behind both halves, nobody leaves the exchange inside the body but a task
that the second half has met when it was done. -/
theorem Fails.tryAbort {P : Prop} (h : c.Fails fun holder => holder = some .done → P) :
    c.tryAbort.Fails fun holder =>
      (∃ t, holder = some (.task t)) ∨ P ∧ c.holder = some .done := by
  cases hholder : c.holder with
  | none => exact fails_tryAbort_of_none hholder
  | some holder =>
    rw [tryAbort_of_some hholder]
    refine ⟨h.cancelled, fun hs => ?_⟩
    rw [hholder]
    cases holder with
    | task t => exact .inl ⟨t, rfl⟩
    | done => exact .inr ⟨h.inside hs hholder, rfl⟩

/-- **A cancelled exchange lets go of its connection**, wherever its cancellation
falls: once nobody works on it, it is complete, or it has failed and its
connection is let go of. There is one exception. A task that was done when the
token was set, and still had the exchange when it was to be aborted, leaves the
exchange inside the body; the next reading finds it cancelled, and only that
lets go of the connection. -/
theorem cancel_lets_go (settings : Settings) {wire : Wire} (q : Request)
    (hfresh : wire.connected = false) {c₁ c₂ c₃ : Shared}
    (hbefore : Reaches (start settings wire q) c₁) (hbetween : Reaches c₁.setToken c₂)
    (hbehind : Reaches c₂.tryAbort c₃) (hfree : c₃.IsFree) :
    c₃.exchange.stage = .complete ∨
      (c₃.exchange.stage = .failed ∧ c₃.exchange.connected = false ∧
        (c₃.wire.connected = true → c₃.wire.dropped = true)) ∨
      (c₁.holder = some .done ∧ c₂.holder = some .done ∧ c₃.exchange.stage = .readingBody ∧
        ∀ size, ∃ e w, c₃.exchange.pollRead size c₃.wire = (.done (.error .cancelled), e, w) ∧
          e.stage = .failed ∧ (w.connected = true → w.dropped = true)) := by
  have hsound₁ := (sound_start settings q hfresh).reaches hbefore
  have htoken := hsound₁.step .sets
  have hsound₂ := htoken.reaches hbetween
  have haborted := hsound₂.step .tries
  have hsound₃ := haborted.reaches hbehind
  have hmissed := (hsound₁.fails_set hbetween).tryAbort.reaches (fun t => .inl ⟨t, rfl⟩)
    (fun h => h.elim (fun h => by simp at h) .inr) haborted hbehind
  obtain ⟨hnone, hwaiting⟩ := hfree
  have hkeeps := hsound₃.keeps
  rw [owns_of_noExecution (noExecution_of_none hnone)] at hkeeps
  cases hsound₃.stands with
  | waits hperm => simp [hwaiting] at hperm
  | runs hx => simp [hnone] at hx
  | reads _ _ hanswered =>
    rcases hanswered with hs | hs | hs
    · right; right
      obtain ⟨hdone₁, hdone₂⟩ := (hmissed.inside hs).resolve_left (by simp [hnone])
      refine ⟨hdone₁, hdone₂, hs, fun size => ?_⟩
      obtain ⟨e, w, hr, he, -⟩ := Exchange.pollRead_of_cancelled hmissed.cancelled (.inl hs)
        hsound₃.exchange (by simp [hs]) size c₃.wire
      have hsound := Exchange.sound_pollRead hsound₃.exchange size c₃.wire
      have hkept := Exchange.keeps_pollRead hkeeps size
      rw [hr] at hsound hkept
      exact ⟨e, w, hr, he.stage, dropped_of_failed hsound hkept he.stage⟩
    · exact .inl hs
    · exact .inr (.inl ⟨hs, connected_of_failed hsound₃.exchange hs,
        dropped_of_failed hsound₃.exchange hkeeps hs⟩)

/-- A transport that hands a head over. -/
def headWire : Wire := { arriving := [.bytes (Bytes.ofText "HTTP/1.1 200 OK\r\n\r\n")] }

/-- The execution is done, and still has the exchange. -/
theorem reaches_head : ∃ c, Reaches (start {} headWire plainRequest) c ∧
    c.holder = some .done ∧ c.waiting = [] ∧ c.exchange.stage = .readingBody ∧
    c.exchange.connected = true ∧ c.wire.connected = true ∧ c.wire.dropped = false := by
  obtain ⟨hs, he, hw, hdropped⟩ :
      ((Execution.start plainRequest).poll {} headWire).2.1.stage = .readingBody ∧
      ((Execution.start plainRequest).poll {} headWire).2.1.connected = true ∧
      ((Execution.start plainRequest).poll {} headWire).2.2.connected = true ∧
      ((Execution.start plainRequest).poll {} headWire).2.2.dropped = false := by
    decide +kernel
  rcases hx : (Execution.start plainRequest).poll {} headWire with ⟨left, e, w⟩
  have hleaves := Execution.leaves_poll (x := .start plainRequest) (e := {}) rfl headWire
  rw [hx] at hs he hw hdropped hleaves
  have htaken : Reaches (start {} headWire plainRequest)
      { exchange := {}, wire := headWire, holder := some (.task (.execute (.start plainRequest))) } :=
    .single (.takes (t := .execute (.start plainRequest)) rfl (.refl _))
  have hasked := htaken.trans (reaches_answered (t := .execute (.start plainRequest)) rfl)
  rw [Task.poll, hx] at hasked
  cases left with
  | done result => exact ⟨_, hasked, rfl, rfl, hs, he, hw, hdropped⟩
  | wait again x =>
    have hstage : x.stage = .readingBody := hleaves.1.symm.trans hs
    cases x <;> cases hstage

/-- Where the token is set when the execution is done, and the abort is tried
before the exchange is given away, the exchange keeps its connection. -/
theorem cancel_keeps : ∃ c₁ c₂ c₃, Reaches (start {} headWire plainRequest) c₁ ∧
    Reaches c₁.setToken c₂ ∧ Reaches c₂.tryAbort c₃ ∧ c₃.IsFree ∧
    c₃.exchange.stage = .readingBody ∧ c₃.exchange.connected = true ∧
    c₃.wire.connected = true ∧ c₃.wire.dropped = false := by
  obtain ⟨c, hreaches, hdone, hwaiting, hs, he, hw, hdropped⟩ := reaches_head
  have hset : c.setToken.holder = some .done := hdone
  have hmissed := tryAbort_of_some hset
  refine ⟨c, c.setToken, { c.setToken with holder := none }, hreaches, .refl, ?_,
    ⟨rfl, hwaiting⟩, hs, he, hw, hdropped⟩
  rw [hmissed]
  exact .single (.gives hset)

theorem cancel_lets_go_given : ∃ c₁ c₂ c₃, Reaches (start {} headWire plainRequest) c₁ ∧
    c₁.holder = some .done ∧ Reaches c₁.setToken c₂ ∧ Reaches c₂.tryAbort c₃ ∧ c₃.IsFree ∧
    c₃.exchange.stage = .failed ∧ c₃.wire.connected = true ∧ c₃.wire.dropped = true := by
  obtain ⟨c, hreaches, hdone, hwaiting, hs, he, hw, hdropped⟩ := reaches_head
  have hset : c.setToken.holder = some .done := hdone
  have hgives : Reaches c.setToken { c.setToken with holder := none } := .single (.gives hset)
  have haborted : tryAbort { c.setToken with holder := none } = _ := tryAbort_of_none rfl
  have hbusy : c.exchange.cancel.abort c.wire = c.exchange.cancel.cancel.fail c.wire :=
    if_pos ⟨by simp [Exchange.cancel, hs], by rw [Exchange.cancel, hs]; rfl⟩
  have hfree : IsFree (tryAbort { c.setToken with holder := none }) := by
    rw [haborted]
    exact ⟨rfl, hwaiting⟩
  have hstage : (tryAbort { c.setToken with holder := none }).exchange.stage = .failed := by
    rw [haborted]
    exact congrArg (·.1.stage) hbusy
  have hconnected : (tryAbort { c.setToken with holder := none }).wire.connected = true := by
    rw [haborted]
    exact (congrArg (·.2.connected) hbusy).trans
      ((Exchange.fail_frame Wire.connected rfl _).trans hw)
  refine ⟨c, _, _, hreaches, hdone, hgives, .refl, hfree, hstage, hconnected, ?_⟩
  rcases cancel_lets_go {} plainRequest rfl hreaches hgives .refl hfree with
    hcomplete | ⟨-, -, hdropped⟩ | ⟨-, hstill, -⟩
  · simp [hstage] at hcomplete
  · exact hdropped hconnected
  · cases hstill

end Shared
end Http1Client
