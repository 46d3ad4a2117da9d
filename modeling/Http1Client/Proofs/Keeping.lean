/-
# What becomes of a promised connection

Through every course the promise of an exchange to keep its connection is kept
(`Course.Promising`), and one deed only can give up a connection that is
promised: the question to the closing of an exchange that is complete
(`Course.Promising.closing_step`). So at every point of every course the promise
is good, or it was good up to such a closing (`Course.keepAlive_promises`).

Key definitions: `Course.Promising`, `Course.Executes`, `Course.IsGivingUp`.
Key theorems: `Course.Promising.step`, `Course.promising_run`,
`Course.Promising.closing_step`, `Course.closing_run`,
`Course.keepAlive_promises`.
-/
import Mathlib.Data.List.Induction
import Http1Client.Proofs.Promise
import Http1Client.Proofs.Reuse

namespace Http1Client
namespace Course

/-- What every course keeps of the promise: an exchange that was not begun has
not touched its connection, an execution under way may come to promise it, and
failures are followed by no promise but that of an exchange that was closed. -/
structure Promising (asked : Bool → Prop) (base : Wire) (c : Course) : Prop where
  promises : c.exchange.Promises asked base c.wire
  idle : c.exchange.stage = .idle → Wire.Intact base c.wire
  executing : ∀ x, c.pending = some (.execute x) → x.stage ≠ .idle → x.OnWay asked base c.wire
  shut : c.pending = some .closing ∨ (∃ f, .closed (.error f) ∈ c.replies) → c.exchange.IsShut
  failed : ∀ reply ∈ c.replies, reply.isFailed = true →
    c.exchange.stage = .failed ∨ ∃ f, reply = .closed (.error f)

/-- The request is executed: it is the one that is asked for first. -/
def Executes (c : Course) (deeds : List Deed) (q : Request) : Prop :=
  ∃ before after, deeds = before ++ .ask :: after ∧ (c.run before).exchange.stage = .idle ∧
    (c.run before).pending = some (.execute (.start q))

variable {asked : Bool → Prop} {base : Wire} {c : Course}

theorem promising_start (settings : Settings) (w : Wire) :
    (start settings w).Promising asked w where
  promises := Exchange.promises_of_keepAlive rfl w
  idle _ := ⟨rfl, rfl⟩
  executing _ hx := by cases hx
  shut h := by simp [start] at h
  failed _ hmem := by simp [start] at hmem

/-- What an operation that is under way keeps. -/
theorem Promising.keeps {op : Op} (h : c.Promising asked base) (hsound : c.Sound True)
    (hop : c.pending = some op)
    (hasked : ∀ q, op = .execute (.start q) → c.exchange.stage = .idle →
      asked q.head.method.isHead) :
    op.Keeps asked base c.exchange (op.poll c.exchange c.wire) := by
  cases op with
  | execute x =>
    by_cases hidle : x.stage = .idle
    · obtain ⟨q, rfl⟩ : ∃ q, x = .start q := by
        cases x with
        | start q => exact ⟨q, rfl⟩
        | _ => cases hidle
      by_cases hs : c.exchange.stage = .idle
      · refine Op.keeps_execute hs hsound.exchange ?_
        refine Execution.onWay_of_stage (fun q' hq => ?_) (h.idle hs) nofun nofun
        cases hq
        exact hasked q rfl hs
      · exact Op.keeps_busy q hs h.promises
    · have hat : x.At c.exchange := hsound.pending _ hop
      exact Op.keeps_execute (hat.stage hidle) hsound.exchange (h.executing x hop hidle)
  | read size => exact Op.keeps_read size hsound.exchange h.promises h.idle
  | close => exact Op.keeps_close hsound.exchange h.promises h.idle
  | closing => exact Op.keeps_closing (h.shut (.inl hop)) h.promises

/-- To take in the answer of an operation. -/
theorem Promising.settle {op : Op} (h : c.Promising asked base) (hsound : c.Sound True)
    (hop : c.pending = some op)
    (hkeeps : op.Keeps asked base c.exchange (op.poll c.exchange c.wire)) :
    (c.settle (op.poll c.exchange c.wire)).Promising asked base := by
  have hfailed : c.exchange.stage = .failed →
      (op.poll c.exchange c.wire).2.1.stage = .failed := by
    intro hs
    rw [hsound.stage_ask hop (by rw [hs]; rfl), hs]
  have hshut : c.exchange.IsShut → (op.poll c.exchange c.wire).2.1.IsShut := by
    intro hshut
    rcases hsound.exchange_ask hop hshut.isTerminal with hsame | hsame
    · rwa [hsame]
    · rw [hsame]
      exact ⟨hshut.isTerminal, rfl⟩
  rcases hpoll : op.poll c.exchange c.wire with ⟨t, e, w⟩
  rw [hpoll] at hkeeps hfailed hshut
  cases t with
  | done reply =>
    refine ⟨hkeeps.promises, hkeeps.idle, fun _ hx => (by cases hx), ?_, ?_⟩
    · rintro (hclosing | ⟨f, hf⟩)
      · cases hclosing
      · rcases List.mem_append.mp hf with hf | hf
        · exact hshut (h.shut (.inr ⟨f, hf⟩))
        · obtain rfl := List.mem_singleton.mp hf
          exact hkeeps.shut (.inr ⟨f, rfl⟩)
    · intro r hr hrf
      rcases List.mem_append.mp hr with hr | hr
      · exact (h.failed r hr hrf).imp_left hfailed
      · obtain rfl := List.mem_singleton.mp hr
        exact hkeeps.failed r rfl hrf
  | wait again left =>
    refine ⟨hkeeps.promises, hkeeps.idle, fun x hx _ => ?_, ?_, ?_⟩
    · cases hx
      exact hkeeps.executing again x rfl
    · rintro (hclosing | ⟨f, hf⟩)
      · cases hclosing
        exact hkeeps.shut (.inl ⟨again, rfl⟩)
      · exact hshut (h.shut (.inr ⟨f, hf⟩))
    · exact fun r hr hrf => (h.failed r hr hrf).imp_left hfailed

/-- Who lets go of an operation that owns the connection has begun, and does not
hold the connection himself. -/
theorem Promising.of_ownsConnection {op : Op} (h : c.Promising asked base) (hsound : c.Sound True)
    (hop : c.pending = some op) (howns : op.ownsConnection = true) :
    c.exchange.stage ≠ .idle ∧ c.exchange.connected = false := by
  cases op with
  | execute x =>
    have hat : x.At c.exchange := hsound.pending _ hop
    have hplace : x.stage ≠ .idle ∧ x.stage.isLinked = false := by
      cases x with
      | start q => cases howns
      | _ => exact ⟨by simp [Execution.stage], rfl⟩
    rw [← hat.stage hplace.1] at hplace
    exact ⟨hplace.1, (hsound.exchange.of_not_isLinked hplace.2).1⟩
  | read size => cases howns
  | close => cases howns
  | closing =>
    have hshut := h.shut (.inl hop)
    exact ⟨hshut.ne_idle, hshut.unlinked⟩

theorem Promising.letGo {op : Op} (h : c.Promising asked base) (hsound : c.Sound True)
    (hop : c.pending = some op) :
    Promising asked base { c with wire := op.abandon c.wire, pending := none } := by
  have hshut : (∃ f, .closed (.error f) ∈ c.replies) → c.exchange.IsShut :=
    fun hf => h.shut (.inr hf)
  have hpending : ∀ {w : Wire}, c.exchange.Promises asked base w →
      (c.exchange.stage = .idle → Wire.Intact base w) →
      Promising asked base { c with wire := w, pending := none } := by
    intro w hpromises hidle
    refine ⟨hpromises, hidle, fun _ hx => (by cases hx), ?_, h.failed⟩
    rintro (hclosing | hf)
    · cases hclosing
    · exact hshut hf
  unfold Op.abandon
  split
  · next howns =>
    obtain ⟨hbegun, hnone⟩ := h.of_ownsConnection hsound hop howns
    exact hpending (h.promises.unlinked hnone _) fun hidle => absurd hidle hbegun
  · exact hpending h.promises h.idle

theorem Promising.cancel (h : c.Promising asked base) :
    Promising asked base { c with exchange := c.exchange.cancel } :=
  ⟨h.promises.cancel, h.idle, h.executing,
    fun hs => ⟨(h.shut hs).isTerminal, (h.shut hs).unlinked⟩, h.failed⟩

theorem Promising.abort (h : c.Promising asked base) (hnone : c.pending = none) :
    Promising asked base { c with
      exchange := (c.exchange.abort c.wire).1
      wire := (c.exchange.abort c.wire).2 } := by
  by_cases hbusy : c.exchange.stage ≠ .idle ∧ c.exchange.stage.isTerminal = false
  · have habort : c.exchange.abort c.wire = c.exchange.cancel.fail c.wire := if_pos hbusy
    rw [habort]
    refine ⟨Exchange.promises_of_keepAlive rfl _, fun hidle => (by cases hidle), ?_, ?_,
      fun _ _ _ => .inl rfl⟩
    · intro x hx
      rw [show c.pending = _ from hx] at hnone
      cases hnone
    · intro hs
      have hover := (h.shut hs).isTerminal
      rw [hbusy.2] at hover
      cases hover
  · have habort : c.exchange.abort c.wire = (c.exchange.cancel, c.wire) := if_neg hbusy
    rw [habort]
    exact h.cancel

/-- Every deed keeps the promise. -/
theorem Promising.step (h : c.Promising asked base) (hsound : c.Sound True) (deed : Deed)
    (hasked : ∀ q, deed = .ask → c.pending = some (.execute (.start q)) →
      c.exchange.stage = .idle → asked q.head.method.isHead) :
    (c.step deed).Promising asked base := by
  cases deed with
  | begin call =>
    rw [Course.step]
    split
    · exact h
    · refine ⟨h.promises, h.idle, fun x hx hbegun => ?_, ?_, h.failed⟩
      · cases call with
        | execute q =>
          cases hx
          exact absurd rfl hbegun
        | read size => cases hx
        | close => cases hx
      · rintro (hclosing | hf)
        · cases call <;> cases hclosing
        · exact h.shut (.inr hf)
  | ask =>
    rw [Course.step]
    split
    · exact h
    · next op hop =>
      refine h.settle hsound hop (h.keeps hsound hop fun q hq hidle => ?_)
      exact hasked q rfl (hq ▸ hop) hidle
  | letGo =>
    rw [Course.step]
    split
    · exact h
    · next op hop => exact h.letGo hsound hop
  | cancel => exact h.cancel
  | abort =>
    rw [Course.step]
    split
    · exact h
    · next hnone => exact h.abort (by simpa using hnone)

theorem run_concat (c : Course) (deeds : List Deed) (deed : Deed) :
    c.run (deeds ++ [deed]) = (c.run deeds).step deed := by
  simp [run, List.foldl_append]

/-- The promise is kept throughout. -/
theorem promising_run (settings : Settings) (w : Wire) (deeds : List Deed) :
    ∀ before after, deeds = before ++ after → ((start settings w).run before).Promising
      (fun toHead =>
        ∃ q, (start settings w).Executes deeds q ∧ q.head.method.isHead = toHead) w := by
  intro before
  induction before using List.reverseRecOn with
  | nil => exact fun _ _ => promising_start settings w
  | append_singleton before deed ih =>
    intro after hdeeds
    rw [List.append_assoc, List.singleton_append] at hdeeds
    have hsound : ((start settings w).run before).Sound True :=
      (sound_start settings w).run before fun _ => trivial
    rw [run_concat]
    refine (ih _ hdeeds).step hsound deed fun q hask hop hidle => ?_
    subst hask
    exact ⟨q, ⟨before, after, hdeeds, hidle, hop⟩, rfl⟩

/-- A closing is under way that is to give up a connection that is promised. -/
structure IsGivingUp (c : Course) : Prop where
  pending : c.pending = some .close
  complete : c.exchange.stage = .complete
  connected : c.exchange.connected = true
  keepAlive : c.exchange.keepAlive = true

/-- Only one deed gives up a connection that is promised: a question to the
closing of an exchange that is complete. -/
theorem Promising.closing_step (h : c.Promising asked base) (hsound : c.Sound True) (deed : Deed)
    (hasked : ∀ q, deed = .ask → c.pending = some (.execute (.start q)) →
      c.exchange.stage = .idle → asked q.head.method.isHead)
    (hkeep : (c.step deed).exchange.keepAlive = true)
    (hnone : (c.step deed).exchange.connected = false) :
    c.exchange.keepAlive = true ∧ c.exchange.connected = false ∨ deed = .ask ∧ c.IsGivingUp := by
  have hsame : (c.step deed).exchange = c.exchange →
      c.exchange.keepAlive = true ∧ c.exchange.connected = false := by
    intro he
    rw [he] at hkeep hnone
    exact ⟨hkeep, hnone⟩
  cases deed with
  | begin call =>
    refine .inl (hsame ?_)
    rw [Course.step]
    split <;> rfl
  | ask =>
    cases hop : c.pending with
    | none =>
      refine .inl (hsame ?_)
      rw [Course.step, hop]
    | some op =>
      have hkeeps := h.keeps hsound hop fun q hq => hasked q rfl (hq ▸ hop)
      rw [Course.step, hop] at hkeep hnone
      rw [exchange_settle] at hkeep hnone
      obtain ⟨hbefore, hwhere⟩ := hkeeps.closed hkeep hnone
      cases hconnected : c.exchange.connected with
      | false => exact .inl ⟨hbefore, rfl⟩
      | true =>
        rcases hwhere with hgone | ⟨rfl, hs⟩
        · rw [hgone] at hconnected
          cases hconnected
        · exact .inr ⟨rfl, hop, hs, hconnected, hbefore⟩
  | letGo =>
    refine .inl (hsame ?_)
    rw [Course.step]
    split <;> rfl
  | cancel => exact .inl ⟨hkeep, hnone⟩
  | abort =>
    by_cases hpending : c.pending.isSome = true
    · refine .inl (hsame ?_)
      rw [Course.step, if_pos hpending]
    · rw [Course.step, if_neg hpending] at hkeep hnone
      by_cases hbusy : c.exchange.stage ≠ .idle ∧ c.exchange.stage.isTerminal = false
      · rw [Exchange.abort, if_pos hbusy] at hkeep
        cases hkeep
      · rw [Exchange.abort, if_neg hbusy] at hkeep hnone
        exact .inl ⟨hkeep, hnone⟩

/-- A connection that is promised and gone was given up at some deed. -/
theorem closing_run (settings : Settings) (w : Wire) (deeds : List Deed)
    (hkeep : ((start settings w).run deeds).exchange.keepAlive = true)
    (hnone : ((start settings w).run deeds).exchange.connected = false) :
    ∃ before after, deeds = before ++ .ask :: after ∧
      ((start settings w).run before).IsGivingUp := by
  induction deeds using List.reverseRecOn with
  | nil => cases hkeep
  | append_singleton deeds deed ih =>
    have hsound : ((start settings w).run deeds).Sound True :=
      (sound_start settings w).run deeds fun _ => trivial
    have hpromising := promising_run settings w (deeds ++ [deed]) deeds [deed] rfl
    rw [run_concat] at hkeep hnone
    have hstep := hpromising.closing_step hsound deed
      (fun q hask hop hidle => ⟨q, ⟨deeds, [], by rw [hask], hidle, hop⟩, rfl⟩) hkeep hnone
    rcases hstep with ⟨hkeep, hnone⟩ | ⟨rfl, hgives⟩
    · obtain ⟨before, after, hdeeds, hgives⟩ := ih hkeep hnone
      exact ⟨before, after ++ [deed], by simp [hdeeds], hgives⟩
    · exact ⟨deeds, [], rfl, hgives⟩

/-- What is promised with a connection that the exchange has: nothing failed. -/
theorem Promising.held (h : c.Promising asked base) (hsound : c.Sound True)
    (hkeep : c.exchange.keepAlive = true) (hconnected : c.exchange.connected = true) :
    c.exchange.Held base c.wire ∧ ∀ reply ∈ c.replies, reply.isFailed = false := by
  refine ⟨h.promises.held hkeep hconnected, fun reply hreply => ?_⟩
  rw [← Bool.not_eq_true]
  intro hfailed
  rcases h.failed reply hreply hfailed with hs | ⟨f, rfl⟩
  · exact hsound.exchange.ne_failed hkeep hs
  · have hunlinked := (h.shut (.inr ⟨f, hreply⟩)).unlinked
    rw [hunlinked] at hconnected
    cases hconnected

/-- **What is promised of a kept connection.** At whatever point of whatever
course an exchange says that it keeps its connection: no value of the
`connection` field of its response mentions `close`, and the body does not end
with the connection. Either the exchange has the connection, which nobody let go
of or asked to close, threw no bytes away, and nothing has failed; or it is
complete and was closed, and all of this was so when the closing was asked. Only
the closing itself can have failed since. -/
theorem keepAlive_promises (settings : Settings) (w : Wire) (deeds : List Deed)
    (hkeep : ((start settings w).run deeds).exchange.keepAlive = true) :
    let c := (start settings w).run deeds
    c.exchange.response.LeavesOpen
        (fun toHead => ∃ q, (start settings w).Executes deeds q ∧ q.head.method.isHead = toHead) ∧
      (c.exchange.connected = true →
        c.exchange.Held w c.wire ∧ ∀ reply ∈ c.replies, reply.isFailed = false) ∧
      (c.exchange.connected = false →
        (∀ reply ∈ c.replies, reply.isFailed = true → ∃ f, reply = .closed (.error f)) ∧
        ∃ before after, deeds = before ++ .ask :: after ∧
          ((start settings w).run before).IsGivingUp ∧
          ((start settings w).run before).exchange.Held w ((start settings w).run before).wire ∧
          ∀ reply ∈ ((start settings w).run before).replies, reply.isFailed = false) := by
  intro c
  have hsound : ∀ before, ((start settings w).run before).Sound True := fun before =>
    (sound_start settings w).run before fun _ => trivial
  have hpromising := promising_run settings w deeds deeds [] (by simp)
  refine ⟨hpromising.promises.announced hkeep, hpromising.held (hsound deeds) hkeep,
    fun hnone => ⟨fun reply hreply hfailed => ?_, ?_⟩⟩
  · have hkept := (hsound deeds).exchange.ne_failed hkeep
    exact (hpromising.failed reply hreply hfailed).resolve_left hkept
  · obtain ⟨before, after, hdeeds, hgives⟩ := closing_run settings w deeds hkeep hnone
    have hbefore := promising_run settings w deeds before (.ask :: after) hdeeds
    exact ⟨before, after, hdeeds, hgives,
      hbefore.held (hsound before) hgives.keepAlive hgives.connected⟩

theorem keepAlive_promises_followed :
    let c := (start {} followed).run (plainDeeds ++ [.ask])
    c.exchange.keepAlive = true ∧ c.exchange.connected = true ∧ c.wire.dropped = false ∧
      c.wire.closes = 0 ∧ ∀ reply ∈ c.replies, reply.isFailed = false := by
  intro c
  have hkeep : c.exchange.keepAlive = true := by decide +kernel
  have hconnected : c.exchange.connected = true := by decide +kernel
  obtain ⟨-, hheld, -⟩ := keepAlive_promises {} followed (plainDeeds ++ [.ask]) hkeep
  obtain ⟨hheld, hnone⟩ := hheld hconnected
  exact ⟨hkeep, hconnected, hheld.intact.dropped, hheld.intact.closes, hnone⟩

/-- A transport that fails when it is closed. -/
def brokenClose : Wire :=
  { arriving := [.bytes (Bytes.ofText "HTTP/1.1 200 OK\r\nContent-Length: 5\r\n\r\nhello")]
    closing := [.fail ⟨.brokenPipe, none⟩] }

/-- A connection that could not be closed is promised, and gone. -/
theorem closed_keepAlive :
    let c := (start {} brokenClose).run
      [.begin (.execute plainRequest), .ask, .begin (.read 10), .ask, .begin .close, .ask]
    c.exchange.keepAlive = true ∧ c.exchange.connected = false ∧ c.wire.dropped = true ∧
      c.wire.closes = 1 ∧ c.replies.any Reply.isFailed = true := by
  decide +kernel

end Course

end Http1Client
