/-
# What an exchange holds

An exchange holds a connection and a receiver for it inside the body of the
response and behind it, and at no other stage; only closing takes them from an
exchange that is complete. `Exchange.Holds` says so for each stage. Executions
that are under way own their connection themselves: the exchange is as it is
between two operations (`Execution.At`).

Whatever is done with an exchange over whatever wire, it holds at each point
what its stage says, and it has changed its stage only as `Stage.mayAdvance`
allows (`Course.Sound.step`). So it never leaves a last stage, and it carries
out one execution, and readings only inside the body (`Course.holds_run`).

Key definitions: `Exchange.Holds`, `Exchange.Sound`, `Execution.At`,
`Course.Sound`.
Key theorems: `Execution.sound_poll`, `Exchange.sound_pollRead`,
`Course.Sound.step`, `Course.holds_run`.
-/
import Http1Client.Proofs.Course
import Http1Client.Proofs.Strides

namespace Http1Client

/-! ### Exchanges -/

/-- Is the stage one at which the exchange itself holds the connection? -/
def Stage.isLinked : Stage → Bool
  | readingBody => true
  | complete => true
  | _ => false

namespace Exchange

/-- What an exchange holds at its stage. `closes` is whether it may have been
closed. -/
inductive Holds (closes : Prop) (e : Exchange) : Prop where
  | nothing : e.stage.isLinked = false → e.connected = false → e.receiver = none →
      e.keepAlive = false → Holds closes e
  | reading {r : Receiver} {d : BodyDecoder} : e.stage = .readingBody → e.connected = true →
      e.receiver = some r → r.OpenAt d → Holds closes e
  | complete {r : Receiver} : e.stage = .complete → e.connected = true → e.receiver = some r →
      Holds closes e
  | closed : closes → e.stage = .complete → e.connected = false → e.receiver = none →
      Holds closes e

/-- The exchange holds what its stage says, and each of its stages might follow
the one before. -/
structure Sound (closes : Prop) (e : Exchange) : Prop where
  holds : e.Holds closes
  inOrder : e.inOrder = true

section Sound

variable {closes : Prop} {e : Exchange}

theorem inOrder_advance {next : Stage} (he : e.inOrder = true)
    (hnext : e.stage.mayAdvance next = true) : (e.advance next).inOrder = true := by
  rw [advance, he, hnext]
  rfl

/-- An exchange that holds nothing goes on to a stage where it does not. -/
theorem Sound.advance {s next : Stage} (h : e.Sound closes) (hs : e.stage = s)
    (hnext : s.isLinked = false ∧ next.isLinked = false ∧ s.mayAdvance next = true) :
    (e.advance next).Sound closes := by
  subst hs
  obtain ⟨hs, hn, hmay⟩ := hnext
  refine ⟨?_, inOrder_advance h.inOrder hmay⟩
  cases h.holds with
  | nothing _ hc hr hk => exact .nothing hn hc hr hk
  | reading hs' => simp [hs', Stage.isLinked] at hs
  | complete hs' => simp [hs', Stage.isLinked] at hs
  | closed _ hs' => simp [hs', Stage.isLinked] at hs

/-- An exchange that is not over may fail, and holds nothing then. -/
theorem sound_fail (he : e.inOrder = true) (hs : e.stage.isTerminal = false) (w : Wire) :
    (e.fail w).1.Sound closes := by
  have hmay : e.stage.mayAdvance .failed = true := by simp [Stage.mayAdvance, hs]
  exact ⟨.nothing rfl rfl rfl rfl, inOrder_advance he hmay⟩

/-- Nothing that counts changes. -/
theorem Sound.same {e' : Exchange} (h : e.Sound closes) (hs : e'.stage = e.stage)
    (hc : e'.connected = e.connected) (hr : e'.receiver = e.receiver)
    (hk : e'.keepAlive = e.keepAlive) (ho : e'.inOrder = e.inOrder) : e'.Sound closes := by
  refine ⟨?_, ho.trans h.inOrder⟩
  cases h.holds with
  | nothing h1 h2 h3 h4 => exact .nothing (hs ▸ h1) (hc.trans h2) (hr.trans h3) (hk.trans h4)
  | reading h1 h2 h3 h4 => exact .reading (hs.trans h1) (hc.trans h2) (hr.trans h3) h4
  | complete h1 h2 h3 => exact .complete (hs.trans h1) (hc.trans h2) (hr.trans h3)
  | closed h1 h2 h3 h4 => exact .closed h1 (hs.trans h2) (hc.trans h3) (hr.trans h4)

theorem Sound.withResponse (h : e.Sound closes) (response : Response) :
    Sound closes { e with response } :=
  h.same rfl rfl rfl rfl rfl

theorem Sound.cancel (h : e.Sound closes) : e.cancel.Sound closes := h.same rfl rfl rfl rfl rfl

end Sound

end Exchange

/-! ### Executions -/

namespace Execution

/-- An execution under way has brought the exchange to its stage, and does not
wait for a head that was found. -/
structure At (e : Exchange) (x : Execution) : Prop where
  stage : x.stage ≠ .idle → e.stage = x.stage
  before : ∀ r, x = .awaitingHead r → ∃ toHead, r.BeforeHead toHead

variable {closes : Prop} {e e' : Exchange} {w w' : Wire} {x x' : Execution}

/-- Only an execution that waits for a head says more than its stage. -/
theorem at_of_stage (hs : e.stage = x.stage) (hx : x.stage ≠ .awaitingHead) : x.At e :=
  ⟨fun _ => hs, fun _ hr => absurd (congrArg stage hr) hx⟩

theorem at_start (q : Request) (e : Exchange) : (start q).At e :=
  ⟨fun h => absurd rfl h, fun _ hr => by cases hr⟩

/-- An exchange that has gone on with an execution is not over. -/
theorem At.not_isTerminal (h : x.At e) (hx : x.stage ≠ .idle) : e.stage.isTerminal = false := by
  rw [h.stage hx]
  cases x <;> rfl

theorem At.cancel (h : x.At e) : x.At e.cancel := ⟨h.stage, h.before⟩

/-- A stride begins at the stage of the execution. -/
theorem Strides.stage (h : Strides e w x x' e' w') (hx : x.At e) : e.stage = x.stage := by
  cases h with
  | starts hs => exact hs
  | _ => exact hx.stage nofun

/-- Every stride is in order. -/
theorem Strides.sound (h : Strides e w x x' e' w') (he : e.Sound closes) (hx : x.At e) :
    e'.Sound closes ∧ x'.At e' := by
  have hs := h.stage hx
  cases h with
  | starts => exact ⟨he.advance hs ⟨rfl, rfl, rfl⟩, at_of_stage rfl nofun⟩
  | connects => exact ⟨he.advance hs ⟨rfl, rfl, rfl⟩, at_of_stage rfl nofun⟩
  | sendsHead => exact ⟨he.advance hs ⟨rfl, rfl, rfl⟩, at_of_stage rfl nofun⟩
  | sendsBody =>
    refine ⟨he.advance hs ⟨rfl, rfl, rfl⟩, fun _ => rfl, fun r hr => ?_⟩
    cases hr
    exact ⟨_, Receiver.beforeHead_ofRequest ..⟩

/-- What is left of an execution that is not done has brought the exchange to
its stage. -/
def LeftAt (e : Exchange) : Turn (Except FailedExecution Response) Execution → Prop
  | .done _ => True
  | .wait _ x => x.At e

theorem sound_failed {f : Failure} (he : e.inOrder = true) (hs : e.stage.isTerminal = false)
    (w : Wire) : (failed f e w).2.1.Sound closes ∧ LeftAt (failed f e w).2.1 (failed f e w).1 :=
  ⟨Exchange.sound_fail he hs w, trivial⟩

/-- An execution stops in order. -/
theorem Stops.sound {a : Answer} (h : Stops e w x a) (he : e.Sound closes) (hx : x.At e) :
    a.2.1.Sound closes ∧ LeftAt a.2.1 a.1 := by
  have hon : ∀ {s next : Stage}, e.stage = s → s.mayAdvance next = true →
      (e.advance next).inOrder = true := by
    intro s next hs hnext
    exact Exchange.inOrder_advance he.inOrder (hs ▸ hnext)
  cases h with
  | busy => exact ⟨he, trivial⟩
  | hostless hs => exact sound_failed he.inOrder (by rw [hs]; rfl) w
  | cancelledFirst hs => exact sound_failed (hon hs rfl) rfl w
  | @cancelled _ response hs =>
    exact sound_failed (he.withResponse response).inOrder (hx.not_isTerminal hs) _
  | notConnected => exact sound_failed he.inOrder (hx.not_isTerminal nofun) _
  | connecting => exact ⟨he, hx⟩
  | headRefused => exact sound_failed (hon (hx.stage nofun) rfl) rfl _
  | headUnsent => exact sound_failed he.inOrder (hx.not_isTerminal nofun) _
  | sendingHead => exact ⟨he, at_of_stage (hx.stage nofun) nofun⟩
  | bodyRefused => exact sound_failed (hon (hx.stage nofun) rfl) rfl _
  | bodyUnsent => exact sound_failed he.inOrder (hx.not_isTerminal nofun) _
  | sendingBody => exact ⟨he, at_of_stage (hx.stage nofun) nofun⟩
  | @headUnread _ _ _ response =>
    have hs := hx.not_isTerminal nofun
    exact sound_failed (he.withResponse response).inOrder hs _
  | awaitingHead _ hr =>
    obtain ⟨toHead, hbefore⟩ := hx.before _ rfl
    cases Receiver.pollHead_turn hbefore hr with
    | waits =>
      refine ⟨he, fun _ => hx.stage nofun, fun r' hr' => ?_⟩
      cases hr'
      exact ⟨toHead, hbefore.withBuffer _⟩
  | head _ hr =>
    obtain ⟨toHead, hbefore⟩ := hx.before _ rfl
    cases Receiver.pollHead_turn hbefore hr with
    | found _ hn =>
      obtain ⟨_, framing, -, -, rfl⟩ := Incoming.nextHead_item hn
      exact ⟨⟨.reading rfl rfl rfl ⟨rfl, hbefore.unfinished, hbefore.room⟩,
        hon (hx.stage nofun) rfl⟩, trivial⟩

/-- A question to an execution is answered in order. -/
theorem sound_poll (he : e.Sound closes) (hx : x.At e) (w : Wire) :
    (x.poll e w).2.1.Sound closes ∧ LeftAt (x.poll e w).2.1 (x.poll e w).1 :=
  poll_induct (P := fun x e _ => e.Sound closes ∧ x.At e)
    (Q := fun a => a.2.1.Sound closes ∧ LeftAt a.2.1 a.1)
    (fun h hstride => hstride.sound h.1 h.2) (fun h hstop => hstop.sound h.1 h.2) ⟨he, hx⟩

end Execution

/-! ### Reading, closing and aborting -/

namespace Exchange

variable {closes : Prop} {e : Exchange} {w : Wire}

/-- Inside the body the exchange holds a connection, and a receiver that is
inside the body. -/
theorem Sound.of_reading (h : e.Sound closes) (hs : e.stage = .readingBody) :
    e.connected = true ∧ ∃ r d, e.receiver = some r ∧ r.OpenAt d := by
  cases h.holds with
  | nothing hs' => simp [hs, Stage.isLinked] at hs'
  | reading _ hc hr hopen => exact ⟨hc, _, _, hr, hopen⟩
  | complete hs' => simp [hs] at hs'
  | closed _ hs' => simp [hs] at hs'

/-- A question to a reading is answered in order. -/
theorem sound_pollRead (h : e.Sound closes) (size : Nat) (w : Wire) :
    (e.pollRead size w).2.1.Sound closes := by
  unfold pollRead
  split
  · exact h
  · next r hs hl =>
    obtain ⟨hc, r₁, d, hr, hopen⟩ := h.of_reading hs
    obtain rfl : r₁ = r := Option.some.inj (hr.symm.trans (link_eq_some_iff.mp hl).2)
    have hover : e.stage.isTerminal = false := by
      rw [hs]
      rfl
    have hon : ∀ {next : Stage}, Stage.mayAdvance .readingBody next = true →
        (e.advance next).inOrder = true := by
      intro next hnext
      exact inOrder_advance h.inOrder (hs ▸ hnext)
    split
    · exact sound_fail h.inOrder hover w
    · split
      · next given r' w' hpoll =>
        cases Receiver.pollBody_turn hopen hpoll with
        | data hm => exact ⟨.reading rfl hc rfl hm.openAt, hon rfl⟩
        | last => exact ⟨.complete rfl hc rfl, hon rfl⟩
        | closed => exact ⟨.complete rfl hc rfl, hon rfl⟩
      · next error r' w' hpoll =>
        exact sound_fail (e := { e with receiver := some r' }) h.inOrder hover w'
      · next again r' w' hpoll =>
        cases Receiver.pollBody_turn hopen hpoll with
        | waits hm => exact ⟨.reading hs hc rfl hm.openAt, h.inOrder⟩
  · exact h
  · exact h

/-- An exchange that is closed lets go of what it holds, and one under way fails. -/
theorem Sound.interrupt (h : e.Sound closes) (hcloses : closes) :
    e.interrupt.unlink.Sound closes := by
  by_cases hbusy : e.stage ≠ .idle ∧ e.stage.isTerminal = false
  · rw [Exchange.interrupt, if_pos hbusy]
    have hmay : e.stage.mayAdvance .failed = true := by simp [Stage.mayAdvance, hbusy.2]
    exact ⟨.nothing rfl rfl rfl rfl, inOrder_advance h.inOrder hmay⟩
  · rw [Exchange.interrupt, if_neg hbusy]
    refine ⟨?_, h.inOrder⟩
    cases h.holds with
    | nothing hs _ _ hk => exact .nothing hs rfl rfl hk
    | reading hs => exact absurd ⟨by simp [hs], by rw [hs]; rfl⟩ hbusy
    | complete hs => exact .closed hcloses hs rfl rfl
    | closed _ hs => exact .closed hcloses hs rfl rfl

theorem sound_pollClose (h : e.Sound closes) (hcloses : closes) (w : Wire) :
    (e.pollClose w).2.1.Sound closes := by
  unfold pollClose
  split
  · obtain ⟨t, w', ht, -⟩ := Course.pollClosing_eq e.interrupt.unlink w
    rw [ht]
    exact h.interrupt hcloses
  · exact h.interrupt hcloses

theorem sound_abort (h : e.Sound closes) (w : Wire) : (e.abort w).1.Sound closes := by
  unfold abort
  split
  · next hbusy => exact sound_fail h.cancel.inOrder hbusy.2 w
  · exact h.cancel

end Exchange

/-! ### Courses -/

/-- An operation that is under way fits the exchange. -/
def Op.At (closes : Prop) (e : Exchange) : Op → Prop
  | .execute x => x.At e
  | .read _ => True
  | .close => closes
  | .closing => closes

theorem Op.At.cancel {closes : Prop} {e : Exchange} : ∀ {op : Op}, op.At closes e →
    op.At closes e.cancel
  | .execute _, h => Execution.At.cancel h
  | .read _, _ => trivial
  | .close, h => h
  | .closing, h => h

namespace Course

variable {closes : Prop} {c : Course}

/-- The exchange holds what its stage says, and an operation that is under way
fits it. -/
structure Sound (closes : Prop) (c : Course) : Prop where
  exchange : c.exchange.Sound closes
  pending : ∀ op, c.pending = some op → op.At closes c.exchange

theorem sound_settleAs {ρ ω : Type} {reply : ρ → Reply} {left : ω → Op}
    {a : Turn ρ ω × Exchange × Wire} (ha : a.2.1.Sound closes)
    (hleft : ∀ again l, a.1 = .wait again l → (left l).At closes a.2.1) :
    (c.settleAs reply left a).Sound closes := by
  obtain ⟨t, e, w⟩ := a
  cases t with
  | done r => exact ⟨ha, by simp [settleAs, settle, Turn.map]⟩
  | wait again l =>
    refine ⟨ha, fun op hop => ?_⟩
    cases hop
    exact hleft again l rfl

/-- To ask the operation under way. -/
theorem Sound.ask {op : Op} (h : c.Sound closes) (hop : c.pending = some op) :
    (c.settle (op.poll c.exchange c.wire)).Sound closes := by
  have hat := h.pending op hop
  cases op with
  | execute x =>
    show (c.settleAs .executed .execute (x.poll c.exchange c.wire)).Sound closes
    obtain ⟨he, hleft⟩ := Execution.sound_poll h.exchange hat c.wire
    refine sound_settleAs he fun again x' hwait => ?_
    rw [hwait] at hleft
    exact hleft
  | read size =>
    show (c.settleAs .delivered (fun _ => .read size)
      (c.exchange.pollRead size c.wire)).Sound closes
    exact sound_settleAs (Exchange.sound_pollRead h.exchange size c.wire) fun _ _ _ => trivial
  | close =>
    show (c.settleAs .closed (fun _ => .closing) (c.exchange.pollClose c.wire)).Sound closes
    exact sound_settleAs (Exchange.sound_pollClose h.exchange hat c.wire) fun _ _ _ => hat
  | closing =>
    show (c.settleAs .closed (fun _ => .closing) (c.exchange.pollClosing c.wire)).Sound closes
    obtain ⟨t, w, ht, -⟩ := pollClosing_eq c.exchange c.wire
    rw [ht]
    exact sound_settleAs h.exchange fun _ _ _ => hat

/-- Every deed keeps what the exchange holds in order. -/
theorem Sound.step (h : c.Sound closes) (deed : Deed) (hdeed : deed = .begin .close → closes) :
    (c.step deed).Sound closes := by
  cases deed with
  | begin call =>
    rw [Course.step]
    split
    · exact h
    · refine ⟨h.exchange, fun op hop => ?_⟩
      cases hop
      cases call with
      | execute q => exact Execution.at_start q c.exchange
      | read size => trivial
      | close => exact hdeed rfl
  | ask =>
    rw [Course.step]
    split
    · exact h
    · next op hop => exact h.ask hop
  | letGo =>
    rw [Course.step]
    split
    · exact h
    · exact ⟨h.exchange, by simp⟩
  | cancel => exact ⟨h.exchange.cancel, fun op hop => (h.pending op hop).cancel⟩
  | abort =>
    rw [Course.step]
    split
    · exact h
    · next hnone =>
      refine ⟨Exchange.sound_abort h.exchange c.wire, fun op hop => ?_⟩
      exact absurd (Option.isSome_of_mem hop) hnone

theorem sound_start (settings : Settings) (w : Wire) : (start settings w).Sound closes :=
  ⟨⟨.nothing rfl rfl rfl rfl, rfl⟩, by simp [start]⟩

theorem Sound.run : ∀ (deeds : List Deed) {c : Course}, c.Sound closes →
    (.begin .close ∈ deeds → closes) → (c.run deeds).Sound closes
  | [], _, h, _ => h
  | deed :: deeds, c, h, hcloses => by
    rw [run_cons]
    refine Sound.run deeds (h.step deed fun hd => hcloses ?_) fun hmem => hcloses ?_
    · exact List.mem_cons.mpr (.inl hd.symm)
    · exact List.mem_cons_of_mem _ hmem

/-! ### Last stages -/

/-- An operation leaves an exchange that is over as it is, or takes what it holds. -/
theorem Sound.exchange_ask {op : Op} (h : c.Sound closes) (hop : c.pending = some op)
    (hover : c.exchange.stage.isTerminal = true) :
    (op.poll c.exchange c.wire).2.1 = c.exchange ∨
      (op.poll c.exchange c.wire).2.1 = c.exchange.unlink := by
  have hat := h.pending op hop
  cases op with
  | execute x =>
    left
    show (x.poll c.exchange c.wire).2.1 = c.exchange
    obtain ⟨q, rfl⟩ : ∃ q, x = .start q := by
      cases x with
      | start q => exact ⟨q, rfl⟩
      | _ =>
        rw [Execution.At.not_isTerminal hat nofun] at hover
        simp at hover
    have hbusy : c.exchange.stage ≠ .idle := by
      intro hs
      simp [hs, Stage.isTerminal] at hover
    rw [Execution.poll_of_busy hbusy]
  | read size =>
    left
    show (c.exchange.pollRead size c.wire).2.1 = c.exchange
    have hread : c.exchange.stage ≠ .readingBody := by
      intro hs
      simp [hs, Stage.isTerminal] at hover
    obtain ⟨r, hr, -⟩ := pollRead_of_ne c.exchange c.wire size hread
    rw [hr]
  | close =>
    right
    show (c.exchange.pollClose c.wire).2.1 = c.exchange.unlink
    have hkept : c.exchange.interrupt = c.exchange := if_neg (by simp [hover])
    unfold Exchange.pollClose
    split
    · obtain ⟨t, w, ht, -⟩ := pollClosing_eq c.exchange.interrupt.unlink c.wire
      rw [ht, hkept]
    · rw [hkept]
  | closing =>
    left
    show (c.exchange.pollClosing c.wire).2.1 = c.exchange
    obtain ⟨t, w, ht, -⟩ := pollClosing_eq c.exchange c.wire
    rw [ht]

/-- An operation leaves an exchange that is over at its stage. -/
theorem Sound.stage_ask {op : Op} (h : c.Sound closes) (hop : c.pending = some op)
    (hover : c.exchange.stage.isTerminal = true) :
    (op.poll c.exchange c.wire).2.1.stage = c.exchange.stage := by
  rcases h.exchange_ask hop hover with hsame | hsame <;> rw [hsame]
  rfl

theorem exchange_settle (a : Turn Reply Op × Exchange × Wire) : (c.settle a).exchange = a.2.1 := by
  obtain ⟨t, e, w⟩ := a
  cases t <;> rfl

/-- A last stage is not left. -/
theorem Sound.stage_step (h : c.Sound closes) (hover : c.exchange.stage.isTerminal = true)
    (deed : Deed) : (c.step deed).exchange.stage = c.exchange.stage := by
  cases deed with
  | begin call =>
    rw [Course.step]
    split <;> rfl
  | ask =>
    rw [Course.step]
    split
    · rfl
    · next op hop => rw [exchange_settle, h.stage_ask hop hover]
  | letGo =>
    rw [Course.step]
    split <;> rfl
  | cancel => rfl
  | abort =>
    rw [Course.step]
    split
    · rfl
    · have hkept : c.exchange.abort c.wire = (c.exchange.cancel, c.wire) := if_neg (by simp [hover])
      rw [hkept]
      rfl

theorem Sound.stage_run : ∀ (deeds : List Deed) {c : Course}, c.Sound True →
    c.exchange.stage.isTerminal = true → (c.run deeds).exchange.stage = c.exchange.stage
  | [], _, _, _ => rfl
  | deed :: deeds, c, h, hover => by
    have hstage := h.stage_step hover deed
    rw [run_cons, Sound.stage_run deeds (h.step deed fun _ => trivial) (hstage ▸ hover), hstage]

/-! ### All courses -/

/-- **An exchange holds at each point what its stage says**, whatever is done
with it. Its stages follow each other as they may, and the last ones are not left.
Between operations, an execution once one was begun and a reading outside the
body are answered without a question to the wire, and leave everything as it is. -/
theorem holds_run (settings : Settings) (w : Wire) (deeds : List Deed) :
    let c := (start settings w).run deeds
    c.exchange.Holds (.begin .close ∈ deeds) ∧ c.exchange.inOrder = true ∧
      (c.exchange.stage.isTerminal = true →
        ∀ more, (c.run more).exchange.stage = c.exchange.stage) ∧
      (c.pending = none → c.exchange.stage ≠ .idle → ∀ q,
        c.run [.begin (.execute q), .ask] = { c with replies := c.replies ++
          [.executed (.error ⟨.stage .execute c.exchange.stage, c.exchange.response⟩)] }) ∧
      (c.pending = none → c.exchange.stage ≠ .readingBody → ∀ size, ∃ result,
        c.run [.begin (.read size), .ask] =
          { c with replies := c.replies ++ [.delivered result] }) := by
  intro c
  have hsound : c.Sound (.begin .close ∈ deeds) := (sound_start settings w).run deeds id
  have hover : c.Sound True := (sound_start settings w).run deeds fun _ => trivial
  refine ⟨hsound.exchange.holds, hsound.exchange.inOrder, fun h more => hover.stage_run more h,
    fun hnone hbusy q => ?_, fun hnone hread size => ?_⟩
  · have hbegin : c.step (.begin (.execute q)) =
        { c with pending := some (.execute (.start q)) } := by
      rw [step, hnone]
      rfl
    rw [run_cons, hbegin]
    show settle _ (Op.poll (.execute (.start q)) c.exchange c.wire) = _
    simp only [Op.poll, Execution.poll_of_busy hbusy]
    simp [settle, Turn.map, hnone]
  · have hbegin : c.step (.begin (.read size)) = { c with pending := some (.read size) } := by
      rw [step, hnone]
      rfl
    obtain ⟨result, hr, -⟩ := pollRead_of_ne c.exchange c.wire size hread
    refine ⟨result, ?_⟩
    rw [run_cons, hbegin]
    show settle _ (Op.poll (.read size) c.exchange c.wire) = _
    simp only [Op.poll, hr]
    simp [settle, Turn.map, hnone]

end Course
end Http1Client
