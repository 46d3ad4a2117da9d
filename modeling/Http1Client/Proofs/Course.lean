/-
# The course of an exchange

A `Course` is an exchange over a wire as its callers see it: they begin
operations, one at a time, ask the one under way for progress, let go of it at
any point, cancel the token or abort. The replies are kept. Any list of such
deeds is a course that an exchange can take.

A server answers with exactly one response (`IsResponse`), maybe with more
bytes behind it, and maybe its stream ends before the response does. `Follows`
is what holds at each point of a course over such a stream: before the head,
inside the body and at the end, the bytes in the buffer, those still on the
wire and those that never come stand where the response says. Every deed keeps
it (`Course.onward_step`), so it holds all along (`Course.follows_run`).

Key definitions: `Course`, `Deed`, `Course.step`, `IsResponse`,
`Course.Follows`.
Key theorems: `Op.poll_done`, `Course.onward_step`, `Course.follows_run`.
-/
import Http1Client.Proofs.Opening
import Http1Client.Proofs.Reception

namespace Http1Client

open Arrival

/-! ### Courses -/

/-- What is asked of an exchange. -/
inductive Call where
  | execute (q : Request)
  | read (size : Nat)
  | close

/-- The operation that a call begins. -/
def Call.op : Call → Op
  | execute q => .execute (.start q)
  | read size => .read size
  | close => .close

/-- What those who hold an exchange can do with it. -/
inductive Deed where
  /-- Begins an operation, if none is under way. -/
  | begin (call : Call)
  /-- Asks the operation under way for progress. -/
  | ask
  /-- Lets go of the operation under way. -/
  | letGo
  | cancel
  /-- Aborts the exchange, if no operation is under way. -/
  | abort

/-- Is a request that the deed executes a `HEAD` or not, as said? -/
def Deed.Fits (toHead : Bool) : Deed → Prop
  | .begin (.execute q) => q.head.method.isHead = toHead
  | _ => True

/-- A request without a body. -/
def plainRequest : Request where
  head :=
    { method := ⟨Bytes.ofText "GET", by decide +kernel, by decide +kernel⟩
      uri := { authority := some ['a'] } }

/-- Executes a request, and asks for data behind the head. -/
def plainDeeds : List Deed := [.begin (.execute plainRequest), .ask, .ask, .begin (.read 4)]

theorem fits_plainDeeds : ∀ deed ∈ plainDeeds, deed.Fits false := by
  have hmethod : plainRequest.head.method.isHead = false := by decide
  simpa [plainDeeds, Deed.Fits] using hmethod

/-- An exchange over a wire, the operation under way, and the replies so far. -/
structure Course where
  exchange : Exchange
  wire : Wire
  pending : Option Op := none
  replies : List Reply := []

namespace Course

/-- A fresh exchange. -/
def start (settings : Settings) (wire : Wire) : Course := { exchange := { settings }, wire }

/-- Takes an answer in. -/
def settle (c : Course) : Turn Reply Op × Exchange × Wire → Course
  | (.done reply, exchange, wire) => { exchange, wire, replies := c.replies ++ [reply] }
  | (.wait _ left, exchange, wire) => { c with exchange, wire, pending := some left }

/-- One deed. -/
def step (c : Course) : Deed → Course
  | .begin call => if c.pending.isSome then c else { c with pending := some call.op }
  | .ask =>
    match c.pending with
    | none => c
    | some op => c.settle (op.poll c.exchange c.wire)
  | .letGo =>
    match c.pending with
    | none => c
    | some op => { c with wire := op.abandon c.wire, pending := none }
  | .cancel => { c with exchange := c.exchange.cancel }
  | .abort =>
    if c.pending.isSome then c
    else
      match c.exchange.abort c.wire with
      | (exchange, wire) => { c with exchange, wire }

/-- Deeds one after the other. -/
def run (c : Course) (deeds : List Deed) : Course := deeds.foldl step c

theorem run_cons (c : Course) (deed : Deed) (deeds : List Deed) :
    c.run (deed :: deeds) = (c.step deed).run deeds := rfl

end Course

/-! ### Replies -/

namespace Reply

/-- Does the reply hand the head of the response over? -/
def isHead : Reply → Bool
  | executed (.ok _) => true
  | _ => false

/-- Does the reply say that the body is complete? -/
def isLast : Reply → Bool
  | delivered (.ok d) => d.last
  | _ => false

/-- The error of the transport that the reply tells of. -/
def readError? : Reply → Option IoError
  | executed (.error f) => f.failure.readError?
  | delivered (.error f) => f.readError?
  | _ => none

/-- The reply says that the stream ended too early. -/
def IsCutShort (reply : Reply) : Prop :=
  ∃ e, reply.readError? = some e ∧ e.kind = .unexpectedEof

/-- If the reply tells of an error of the transport, it is that the stream
ended too early. -/
def OnlyCutShort (reply : Reply) : Prop :=
  ∀ e, reply.readError? = some e → e.kind = .unexpectedEof

end Reply

/-- A turn that is done is done under its map. -/
theorem Turn.eq_done_of_map {ρ ρ' ω ω' : Type} {f : ρ → ρ'} {g : ω → ω'} {t : Turn ρ ω}
    {reply : ρ'} (h : t.map f g = .done reply) : ∃ result, t = .done result ∧ reply = f result := by
  cases t with
  | done result =>
    cases h
    exact ⟨result, rfl, rfl⟩
  | wait again left => simp [Turn.map] at h

theorem Turn.eq_wait_of_map {ρ ρ' ω ω' : Type} {f : ρ → ρ'} {g : ω → ω'} {t : Turn ρ ω}
    {again : Bool} {left : ω'} (h : t.map f g = .wait again left) :
    ∃ l, t = .wait again l ∧ left = g l := by
  cases t with
  | done result => simp [Turn.map] at h
  | wait again' l =>
    cases h
    exact ⟨l, rfl, rfl⟩

/-- Where replies come from. -/
theorem Op.poll_done {op : Op} {e e' : Exchange} {w w' : Wire} {reply : Reply}
    (h : op.poll e w = (.done reply, e', w')) :
    (∃ x result, op = .execute x ∧ reply = .executed result ∧
      x.poll e w = (.done result, e', w')) ∨
    (∃ size result, op = .read size ∧ reply = .delivered result ∧
      e.pollRead size w = (.done result, e', w')) ∨
    ∃ result, reply = .closed result := by
  cases op with
  | execute x =>
    rcases hx : x.poll e w with ⟨t, e₁, w₁⟩
    simp only [Op.poll, hx, Prod.mk.injEq] at h
    obtain ⟨ht, rfl, rfl⟩ := h
    obtain ⟨result, rfl, rfl⟩ := Turn.eq_done_of_map ht
    exact .inl ⟨x, result, rfl, rfl, hx⟩
  | read size =>
    rcases hr : e.pollRead size w with ⟨t, e₁, w₁⟩
    simp only [Op.poll, hr, Prod.mk.injEq] at h
    obtain ⟨ht, rfl, rfl⟩ := h
    obtain ⟨result, rfl, rfl⟩ := Turn.eq_done_of_map ht
    exact .inr (.inl ⟨size, result, rfl, rfl, hr⟩)
  | close =>
    obtain ⟨result, -, rfl⟩ := Turn.eq_done_of_map (congrArg Prod.fst h)
    exact .inr (.inr ⟨result, rfl⟩)
  | closing =>
    obtain ⟨result, -, rfl⟩ := Turn.eq_done_of_map (congrArg Prod.fst h)
    exact .inr (.inr ⟨result, rfl⟩)

/-! ### The response -/

/-- The bytes are exactly one response to a request, which was a `HEAD` or not:
interim heads, the final head and, framed so, its body. -/
structure IsResponse (toHead : Bool) (p : Bytes) (framing : Framing) (body : Bytes) : Prop where
  heads : ∃ response, Heads toHead p response framing body
  isBody : framing.IsBody body

theorem isResponse_short :
    IsResponse false (Incoming.shortHeads ++ Bytes.ofText "hi") (.length 2) (Bytes.ofText "hi") :=
  ⟨⟨_, Incoming.heads_short⟩, rfl⟩

namespace Course

/-- No execution is under way that the exchange has gone on with. -/
def Resting (c : Course) : Prop := ∀ x, c.pending = some (.execute x) → ∃ q, x = .start q

/-- An execution that is under way does not wait for the head yet, and its
request is one that the response fits. -/
def Sending (toHead : Bool) (c : Course) : Prop :=
  ∀ x, c.pending = some (.execute x) →
    ∃ q, x.request? = some q ∧ q.head.method.isHead = toHead

/-- No execution is under way that the exchange has gone on with, and its
request is one that the response fits. -/
def Fresh (toHead : Bool) (c : Course) : Prop :=
  ∀ x, c.pending = some (.execute x) → ∃ q, x = .start q ∧ q.head.method.isHead = toHead

/-- Where a course stands on a stream that holds one response and `rest` behind
it, of which the last bytes, `missing`, never come. -/
inductive Follows (toHead : Bool) (response : Response) (framing : Framing)
    (body rest missing : Bytes) (c : Course) : Prop where
  /-- Nothing is read yet. -/
  | opening : c.exchange.stage.rank < Stage.rank .awaitingHead → c.exchange.link = none →
      c.Sending toHead → Heads toHead (c.wire.unread ++ missing) response framing (body ++ rest) →
      Follows toHead response framing body rest missing c
  | awaiting {r : Receiver} : c.pending = some (.execute (.awaitingHead r)) →
      c.exchange.stage = .awaitingHead → c.exchange.link = none → r.BeforeHead toHead →
      Heads toHead (r.buffer ++ (c.wire.unread ++ missing)) response framing (body ++ rest) →
      Follows toHead response framing body rest missing c
  | reading {r : Receiver} {d : BodyDecoder} : c.Resting → c.exchange.stage = .readingBody →
      c.exchange.link = some r → r.OpenAt d → missing.length ≤ (body ++ rest).length →
      (framing.isUntilClose = true ∧ c.exchange.keepAlive = false ∨
        d.EndsAt (r.buffer ++ (c.wire.unread ++ missing)) rest) →
      Follows toHead response framing body rest missing c
  | complete : c.Resting → c.exchange.stage = .complete →
      (framing.isUntilClose = true ∧ c.exchange.keepAlive = false ∨
        ∃ dropped, rest = dropped ++ (c.wire.unread ++ missing) ∧
          (c.exchange.keepAlive = true → dropped = [])) →
      Follows toHead response framing body rest missing c
  /-- The exchange has failed, or its execution was let go of. -/
  | gone : c.Resting → c.exchange.stage ≠ .idle → c.exchange.stage ≠ .readingBody →
      c.exchange.stage ≠ .complete → c.exchange.link = none →
      Follows toHead response framing body rest missing c

/-- What one deed does on such a stream: the course stands on it again, bytes
are read in order, and where it meets an end of the stream it replies so. -/
structure Onward (toHead : Bool) (response : Response) (framing : Framing)
    (body rest missing : Bytes) (c c' : Course) : Prop where
  follows : Follows toHead response framing body rest missing c'
  reads : ∃ taken, c.wire.unread = taken ++ c'.wire.unread
  cut : c'.wire.ends < c.wire.ends → framing.isUntilClose = false →
    ∃ reply, c'.replies = c.replies ++ [reply] ∧ reply.IsCutShort

section Onward

variable {toHead : Bool} {response : Response} {framing : Framing} {body rest missing : Bytes}
  {c c' : Course}

theorem Onward.of_gives {y : Bytes} {w : Wire}
    (h : Follows toHead response framing body rest missing c')
    (hg : Gives c.wire.arriving y w.arriving) (ha : c'.wire.arriving = w.arriving) :
    Onward toHead response framing body rest missing c c' := by
  rw [← ha] at hg
  exact ⟨h, ⟨y, hg.unread⟩, fun hlt => absurd hg.ends (Nat.ne_of_lt hlt)⟩

theorem Onward.of_arriving (h : Follows toHead response framing body rest missing c')
    (ha : c'.wire.arriving = c.wire.arriving) :
    Onward toHead response framing body rest missing c c' :=
  .of_gives h (Gives.refl _) ha

/-- An end of the stream was met behind bytes that were read. -/
theorem Onward.of_end {y : Bytes} {w w' : Wire}
    (h : Follows toHead response framing body rest missing c')
    (hg : Gives c.wire.arriving y w.arriving) (he : MeetsEnd w.arriving w'.arriving)
    (ha : c'.wire.arriving = w'.arriving) (hcut : framing.isUntilClose = false →
      ∃ reply, c'.replies = c.replies ++ [reply] ∧ reply.IsCutShort) :
    Onward toHead response framing body rest missing c c' := by
  rw [← ha] at he
  exact ⟨h, ⟨y, by rw [he.unread, hg.unread]⟩, fun _ => hcut⟩

/-! ### Questions to an execution -/

/-- Takes the answer of an execution, a reading or a closing in. -/
def settleAs {ρ ω : Type} (c : Course) (reply : ρ → Reply) (left : ω → Op)
    (a : Turn ρ ω × Exchange × Wire) : Course :=
  c.settle (a.1.map reply left, a.2.1, a.2.2)

theorem fresh_of_none (h : c.pending = none) : c.Fresh toHead := by
  intro x hx
  rw [h] at hx
  simp at hx

theorem Fresh.resting (h : c.Fresh toHead) : c.Resting := fun x hx => (h x hx).imp fun _ hq => hq.1

theorem Fresh.sending (h : c.Fresh toHead) : c.Sending toHead := by
  intro x hx
  obtain ⟨q, rfl, hq⟩ := h x hx
  exact ⟨q, rfl, hq⟩

theorem resting_of_none (h : c.pending = none) : c.Resting := by
  intro x hx
  rw [h] at hx
  simp at hx

theorem follows_of_failed (hr : c.Resting) (hs : c.exchange.stage = .failed)
    (hl : c.exchange.link = none) : Follows toHead response framing body rest missing c :=
  .gone hr (by simp [hs]) (by simp [hs]) (by simp [hs]) hl

theorem follows_failed (f : Failure) (e : Exchange) (w : Wire) :
    Follows toHead response framing body rest missing
      (c.settleAs .executed .execute (Execution.failed f e w)) :=
  follows_of_failed (resting_of_none rfl) rfl rfl

theorem follows_failed_read (f : Failure) (size : Nat) (e : Exchange) (w : Wire) :
    Follows toHead response framing body rest missing
      (c.settleAs .delivered (fun _ : Unit => .read size) (.done (.error f), e.fail w)) :=
  follows_of_failed (resting_of_none rfl) rfl rfl

/-- An execution that waits for the head goes on waiting, finds it, or fails. -/
theorem onward_awaitingHead {r : Receiver} {e : Exchange} {w : Wire} (hr : r.BeforeHead toHead)
    (hs : e.stage = .awaitingHead) (hl : e.link = none) (hw : w.arriving = c.wire.arriving)
    (hbody : framing.IsBody body)
    (hheads : Heads toHead (r.buffer ++ (w.unread ++ missing)) response framing (body ++ rest)) :
    Onward toHead response framing body rest missing c
      (c.settleAs .executed .execute (Execution.pollAwaitingHead r e w)) := by
  unfold Execution.pollAwaitingHead
  split
  · exact .of_arriving (follows_failed ..) ((Exchange.fail_frame Wire.arriving rfl _).trans hw)
  · rcases hpoll : r.pollHead w with ⟨p, r', w'⟩
    cases Receiver.pollHead_turn hr hpoll with
    | waits hg hn _ =>
      have hrest := hr.heads_of_need hg hn hheads
      rw [hw] at hg
      exact .of_gives (.awaiting rfl hs hl (hr.withBuffer _) hrest) hg rfl
    | @found response' framing' _ _ _ _ hg hn =>
      obtain ⟨rfl, rfl, htail, hopen⟩ := hr.heads_of_found hg hn hheads
      rw [hw] at hg
      refine .of_gives (.reading (resting_of_none rfl) rfl rfl hopen ?_ ?_) hg rfl
      · rw [htail, List.length_append, List.length_append]
        exact Nat.le_trans (Nat.le_add_left ..) (Nat.le_add_left ..)
      · by_cases hclose : framing' = .untilClose
        · left
          subst hclose
          exact ⟨rfl, Bool.and_false _⟩
        · right
          have hends := BodyDecoder.endsAt_ofFraming hclose hbody r.incoming.chunkLimit rest
          rwa [htail] at hends
    | broken hg hn _ =>
      rw [hw] at hg
      exact .of_gives (follows_failed ..) hg (Exchange.fail_frame Wire.arriving rfl _)
    | cut hg he hn hk =>
      rw [hw] at hg
      refine .of_end (follows_failed ..) hg he (Exchange.fail_frame Wire.arriving rfl _) fun _ => ?_
      exact ⟨_, rfl, _, rfl, hk⟩
    | fault hg hne =>
      rw [hw] at hg
      exact .of_gives (follows_failed ..) hg (Exchange.fail_frame Wire.arriving rfl _)

/-- An execution that has not read yet goes on to wait for the head, waits
before it, or fails. -/
theorem onward_opening {q : Request} {a : Execution.Answer} (hq : q.head.method.isHead = toHead)
    (ha : Execution.Opening q c.wire.arriving a) (hbody : framing.IsBody body)
    (hheads : Heads toHead (c.wire.unread ++ missing) response framing (body ++ rest)) :
    Onward toHead response framing body rest missing c (c.settleAs .executed .execute a) := by
  cases ha with
  | failed _ hs hl hw =>
    exact .of_arriving (follows_of_failed (resting_of_none rfl) hs hl) hw
  | waits hx hs hl hw =>
    rw [← Wire.unread_congr hw] at hheads
    refine .of_arriving (.opening hs hl (fun x h => ?_) hheads) hw
    cases h
    exact ⟨q, hx, hq⟩
  | heads hs hl hw =>
    rw [← Wire.unread_congr hw] at hheads
    exact onward_awaitingHead (hq ▸ Receiver.beforeHead_ofRequest ..) hs hl hw hbody hheads

/-! ### Questions to a reading -/

/-- A reading inside the body goes on inside it, completes it, or fails. -/
theorem onward_read {r : Receiver} {d : BodyDecoder} (size : Nat)
    (hs : c.exchange.stage = .readingBody) (hl : c.exchange.link = some r) (hopen : r.OpenAt d)
    (hmissing : missing.length ≤ (body ++ rest).length)
    (hends : framing.isUntilClose = true ∧ c.exchange.keepAlive = false ∨
      d.EndsAt (r.buffer ++ (c.wire.unread ++ missing)) rest) :
    Onward toHead response framing body rest missing c
      (c.settleAs .delivered (fun _ => .read size) (c.exchange.pollRead size c.wire)) := by
  have hresting : ∀ x, some (Op.read size) = some (.execute x) → ∃ q, x = .start q := by simp
  -- What is inside the body stays inside it.
  have hinside : ∀ {x : Bytes} {d' : BodyDecoder} {r' : Receiver} {w' : Wire} (keep : Bool),
      Receiver.Moves d r c.wire x d' r' w' → (c.exchange.keepAlive = false → keep = false) →
      (framing.isUntilClose = true ∧ keep = false ∨
        d'.EndsAt (r'.buffer ++ (w'.unread ++ missing)) rest) := by
    intro x d' r' w' keep hm hkeep
    exact hends.imp (fun h => ⟨h.1, hkeep h.2⟩) hm.ends
  -- A connection that is not to be kept will not be kept.
  have hoff : ∀ r' : Receiver, c.exchange.keepAlive = false →
      (c.exchange.keepAlive && !r'.discarded) = false := by
    intro r' h
    rw [h, Bool.false_and]
  -- The connection is held all along.
  have hlink : ∀ r' : Receiver, (if c.exchange.connected then some r' else none) = some r' := by
    intro r'
    rw [(Exchange.link_eq_some_iff.mp hl).1]
    rfl
  simp only [Exchange.pollRead, hs, hl]
  split
  · exact .of_arriving (follows_failed_read ..) (Exchange.fail_frame Wire.arriving rfl _)
  · rcases hpoll : r.pollBody size c.wire with ⟨p, r', w'⟩
    cases Receiver.pollBody_turn hopen hpoll with
    | waits hm _ =>
      obtain ⟨y, hg, -⟩ := hm.passes
      exact .of_gives (.reading hresting rfl (hlink r') hm.openAt hmissing (hinside _ hm id)) hg rfl
    | data hm =>
      obtain ⟨y, hg, -⟩ := hm.passes
      have hends' := hinside _ hm (hoff r')
      exact .of_gives
        (.reading (resting_of_none rfl) rfl (hlink r') hm.openAt hmissing hends') hg rfl
    | last hf =>
      obtain ⟨y, _, _, hg, -⟩ := hf.passes
      refine .of_gives (.complete (resting_of_none rfl) rfl ?_) hg rfl
      rcases hends with ⟨h1, h2⟩ | h
      · exact .inl ⟨h1, hoff r' h2⟩
      · right
        obtain ⟨dropped, hrest, hdis⟩ := hf.ends h
        refine ⟨dropped, hrest, fun hkeep => hdis ?_⟩
        have hkeep' : (c.exchange.keepAlive && !r'.discarded) = true := hkeep
        simpa using (Bool.and_eq_true_iff.mp hkeep').2
    | closed hm hb he hf =>
      obtain ⟨y, hg, -⟩ := hm.passes
      rcases hends with ⟨h1, h2⟩ | h
      · refine .of_end (.complete (resting_of_none rfl) rfl (.inl ⟨h1, hoff r' h2⟩)) hg he rfl
          fun hne => ?_
        rw [h1] at hne
        simp at hne
      · exact (hm.ends h).elim
    | broken hm _ =>
      obtain ⟨y, hg, -⟩ := hm.passes
      exact .of_gives (follows_failed_read ..) hg (Exchange.fail_frame Wire.arriving rfl _)
    | cut hm he hk =>
      obtain ⟨y, hg, -⟩ := hm.passes
      refine .of_end (follows_failed_read ..) hg he (Exchange.fail_frame Wire.arriving rfl _) fun _ => ?_
      exact ⟨_, rfl, _, rfl, hk⟩
    | fault hg => exact .of_gives (follows_failed_read ..) hg (Exchange.fail_frame Wire.arriving rfl _)

/-! ### Deeds that do not read -/

/-- Where nothing is read and the exchange stays at its stage, a course stands
where it stood, unless an execution was waiting for the head. -/
theorem Follows.frame (h : Follows toHead response framing body rest missing c)
    (hne : ∀ r, c.pending ≠ some (.execute (.awaitingHead r))) (hp : c'.Fresh toHead)
    (hs : c'.exchange.stage = c.exchange.stage)
    (hl : c'.exchange.link = c.exchange.link ∨
      c'.exchange.link = none ∧ c.exchange.stage ≠ .readingBody)
    (hk : c'.exchange.keepAlive = c.exchange.keepAlive)
    (ha : c'.wire.arriving = c.wire.arriving) :
    Follows toHead response framing body rest missing c' := by
  have hresting := hp.resting
  have hu := Wire.unread_congr ha
  cases h with
  | opening h1 h2 h3 h4 =>
    exact .opening (hs ▸ h1) (hl.elim (·.trans h2) And.left) hp.sending (hu ▸ h4)
  | awaiting h1 => exact absurd h1 (hne _)
  | reading h1 h2 h3 h4 h5 h6 =>
    have hl' := hl.resolve_right fun h => h.2 h2
    refine .reading hresting (hs.trans h2) (hl'.trans h3) h4 h5 ?_
    rw [hk, hu]
    exact h6
  | complete h1 h2 h3 =>
    refine .complete hresting (hs.trans h2) ?_
    rw [hk, hu]
    exact h3
  | gone h1 h2 h3 h4 h5 =>
    refine .gone hresting ?_ ?_ ?_ (hl.elim (·.trans h5) And.left)
    all_goals
      rw [hs]
      assumption

/-- Only the token is cancelled. -/
theorem Follows.cancel (h : Follows toHead response framing body rest missing c) :
    Follows toHead response framing body rest missing
      { c with exchange := c.exchange.cancel } := by
  cases h with
  | opening h1 h2 h3 h4 => exact .opening h1 h2 h3 h4
  | awaiting h1 h2 h3 h4 h5 => exact .awaiting h1 h2 h3 h4 h5
  | reading h1 h2 h3 h4 h5 h6 => exact .reading h1 h2 h3 h4 h5 h6
  | complete h1 h2 h3 => exact .complete h1 h2 h3
  | gone h1 h2 h3 h4 h5 => exact .gone h1 h2 h3 h4 h5

/-- An execution that waits for the head does so before the head. -/
theorem Follows.of_awaiting {r : Receiver}
    (h : Follows toHead response framing body rest missing c)
    (hr : c.pending = some (.execute (.awaitingHead r))) :
    c.exchange.stage = .awaitingHead ∧ c.exchange.link = none ∧ r.BeforeHead toHead := by
  have hrest : ¬ c.Resting := by
    intro hrest
    obtain ⟨q, hq⟩ := hrest _ hr
    simp at hq
  cases h with
  | opening _ _ h3 _ =>
    obtain ⟨q, hq, -⟩ := h3 _ hr
    simp [Execution.request?] at hq
  | awaiting h1 h2 h3 h4 =>
    rw [hr] at h1
    cases h1
    exact ⟨h2, h3, h4⟩
  | reading h1 => exact absurd h1 hrest
  | complete h1 => exact absurd h1 hrest
  | gone h1 => exact absurd h1 hrest

/-- An exchange that reads the body is inside it. -/
theorem Follows.of_reading (h : Follows toHead response framing body rest missing c)
    (hs : c.exchange.stage = .readingBody) : missing.length ≤ (body ++ rest).length ∧
      ∃ r d, c.exchange.link = some r ∧ r.OpenAt d ∧
        (framing.isUntilClose = true ∧ c.exchange.keepAlive = false ∨
          d.EndsAt (r.buffer ++ (c.wire.unread ++ missing)) rest) := by
  cases h with
  | reading h1 h2 h3 h4 h5 h6 => exact ⟨h5, _, _, h3, h4, h6⟩
  | opening h1 => simp [hs, Stage.rank] at h1
  | awaiting _ h2 => simp [hs] at h2
  | complete _ h2 => simp [hs] at h2
  | gone _ _ h3 => exact absurd hs h3

/-- An exchange that is complete is at the end of the response. -/
theorem Follows.of_complete (h : Follows toHead response framing body rest missing c)
    (hs : c.exchange.stage = .complete) :
    framing.isUntilClose = true ∧ c.exchange.keepAlive = false ∨
      ∃ dropped, rest = dropped ++ (c.wire.unread ++ missing) ∧
        (c.exchange.keepAlive = true → dropped = []) := by
  cases h with
  | complete _ _ h3 => exact h3
  | opening h1 => simp [hs, Stage.rank] at h1
  | awaiting _ h2 => simp [hs] at h2
  | reading _ h2 => simp [hs] at h2
  | gone _ _ _ h4 => exact absurd hs h4

/-- An exchange whose connection is let go of before it is over fails. -/
theorem Follows.interrupt (h : Follows toHead response framing body rest missing c)
    (hne : ∀ r, c.pending ≠ some (.execute (.awaitingHead r))) (hp : c'.Fresh toHead)
    (hs : c'.exchange.stage = c.exchange.interrupt.stage) (hl : c'.exchange.link = none)
    (hk : c'.exchange.keepAlive = c.exchange.interrupt.keepAlive)
    (ha : c'.wire.arriving = c.wire.arriving) :
    Follows toHead response framing body rest missing c' := by
  by_cases hbusy : c.exchange.stage ≠ .idle ∧ c.exchange.stage.isTerminal = false
  · rw [Exchange.interrupt, if_pos hbusy] at hs
    exact follows_of_failed hp.resting hs hl
  · rw [Exchange.interrupt, if_neg hbusy] at hs hk
    refine h.frame hne hp hs (.inr ⟨hl, fun hread => hbusy ?_⟩) hk ha
    rw [hread]
    decide

theorem settleAs_exchange {ρ ω : Type} (reply : ρ → Reply) (left : ω → Op) (t : Turn ρ ω)
    (e : Exchange) (w : Wire) : (c.settleAs reply left (t, e, w)).exchange = e ∧
      (c.settleAs reply left (t, e, w)).wire = w := by
  cases t <;> exact ⟨rfl, rfl⟩

theorem fresh_settleAs {ρ ω : Type} (reply : ρ → Reply) {left : ω → Op} (t : Turn ρ ω)
    (e : Exchange) (w : Wire) (hleft : ∀ l x, left l ≠ .execute x) :
    (c.settleAs reply left (t, e, w)).Fresh toHead := by
  cases t with
  | done r => exact fresh_of_none rfl
  | wait again l =>
    intro x hx
    exact absurd (Option.some.inj hx) (hleft l x)

theorem pollClosing_eq (e : Exchange) (w : Wire) :
    ∃ t w', e.pollClosing w = (t, e, w') ∧ w'.arriving = w.arriving := by
  rcases hclose : w.close with ⟨answer, w'⟩
  have ha := Wire.arriving_close hclose
  rw [Exchange.pollClosing, hclose]
  rcases answer with (error | ok) | again
  all_goals exact ⟨_, _, rfl, ha⟩

/-- Closing does not read. -/
theorem onward_close (h : Follows toHead response framing body rest missing c)
    (hne : ∀ r, c.pending ≠ some (.execute (.awaitingHead r))) :
    Onward toHead response framing body rest missing c
      (c.settleAs .closed (fun _ => .closing) (c.exchange.pollClose c.wire)) := by
  unfold Exchange.pollClose
  split
  · obtain ⟨t, w, ht, ha⟩ := pollClosing_eq c.exchange.interrupt.unlink c.wire
    rw [ht]
    obtain ⟨he, hw⟩ := c.settleAs_exchange .closed (fun _ => .closing) t
      c.exchange.interrupt.unlink w
    have ha' := (congrArg Wire.arriving hw).trans ha
    refine .of_arriving (h.interrupt hne (fresh_settleAs _ t _ w (by simp)) ?_ ?_ ?_ ha') ha'
    all_goals
      rw [he]
      rfl
  · exact .of_arriving (h.interrupt hne (fresh_of_none rfl) rfl rfl rfl rfl) rfl

theorem onward_closing (h : Follows toHead response framing body rest missing c)
    (hne : ∀ r, c.pending ≠ some (.execute (.awaitingHead r))) :
    Onward toHead response framing body rest missing c
      (c.settleAs .closed (fun _ => .closing) (c.exchange.pollClosing c.wire)) := by
  obtain ⟨t, w, ht, ha⟩ := pollClosing_eq c.exchange c.wire
  rw [ht]
  obtain ⟨he, hw⟩ := c.settleAs_exchange .closed (fun _ => .closing) t c.exchange w
  have ha' := (congrArg Wire.arriving hw).trans ha
  refine .of_arriving (h.frame hne (fresh_settleAs _ t _ w (by simp)) ?_ (.inl ?_) ?_ ha') ha'
  all_goals rw [he]

theorem pollRead_of_ne (e : Exchange) (w : Wire) (size : Nat) (h : e.stage ≠ .readingBody) :
    ∃ r, e.pollRead size w = (.done r, e, w) ∧ (Reply.delivered r).readError? = none := by
  unfold Exchange.pollRead
  split
  · exact ⟨_, rfl, rfl⟩
  · next hs _ => exact absurd hs h
  · refine ⟨_, rfl, ?_⟩
    split <;> rfl
  · exact ⟨_, rfl, rfl⟩

/-! ### Every deed -/

/-- To ask the operation under way. -/
theorem onward_ask {op : Op} (hop : c.pending = some op) (hbody : framing.IsBody body)
    (h : Follows toHead response framing body rest missing c) :
    Onward toHead response framing body rest missing c
      (c.settle (op.poll c.exchange c.wire)) := by
  cases op with
  | execute x =>
    show Onward toHead response framing body rest missing c
      (c.settleAs .executed .execute (x.poll c.exchange c.wire))
    -- The exchange has executed a request: another one is refused.
    have hbusy : c.Resting → c.exchange.stage ≠ .idle → Onward toHead response framing body rest
        missing c (c.settleAs .executed .execute (x.poll c.exchange c.wire)) := by
      intro hrest hs
      obtain ⟨q, rfl⟩ := hrest x hop
      rw [Execution.poll_of_busy hs]
      refine .of_arriving (h.frame ?_ (fresh_of_none rfl) rfl (.inl rfl) rfl rfl) rfl
      intro r hr
      rw [hop] at hr
      simp at hr
    cases h with
    | opening h1 h2 h3 h4 =>
      obtain ⟨q, hx, hq⟩ := h3 x hop
      rcases Execution.opening_poll hx h1 h2 rfl with ha | ⟨f, -, hf⟩
      · exact onward_opening hq ha hbody h4
      · rw [hf]
        exact .of_arriving (.opening h1 h2 (fresh_of_none rfl).sending h4) rfl
    | awaiting h1 h2 h3 h4 h5 =>
      rw [hop] at h1
      cases h1
      exact onward_awaitingHead h4 h2 h3 rfl hbody h5
    | reading h1 h2 => exact hbusy h1 (by simp [h2])
    | complete h1 h2 => exact hbusy h1 (by simp [h2])
    | gone h1 h2 => exact hbusy h1 h2
  | read size =>
    show Onward toHead response framing body rest missing c
      (c.settleAs .delivered (fun _ => .read size) (c.exchange.pollRead size c.wire))
    by_cases hs : c.exchange.stage = .readingBody
    · obtain ⟨hmissing, r, d, hl, hopen, hends⟩ := h.of_reading hs
      exact onward_read size hs hl hopen hmissing hends
    · obtain ⟨r, hr, -⟩ := pollRead_of_ne c.exchange c.wire size hs
      rw [hr]
      exact .of_arriving (h.frame (by simp [hop]) (fresh_of_none rfl) rfl (.inl rfl) rfl rfl) rfl
  | close => exact onward_close h (by simp [hop])
  | closing => exact onward_closing h (by simp [hop])

/-- To begin an operation. -/
theorem onward_begin {call : Call} (hcall : Deed.Fits toHead (.begin call))
    (hnone : c.pending = none) (h : Follows toHead response framing body rest missing c) :
    Onward toHead response framing body rest missing c { c with pending := some call.op } := by
  have hfresh : Fresh toHead { c with pending := some call.op } := by
    intro x hx
    cases call with
    | execute q =>
      cases hx
      exact ⟨q, rfl, hcall⟩
    | read size => simp [Call.op] at hx
    | close => simp [Call.op] at hx
  exact .of_arriving (h.frame (by simp [hnone]) hfresh rfl (.inl rfl) rfl rfl) rfl

/-- To let go of the operation under way. One that waits for the head takes the
connection with it. -/
theorem onward_letGo (op : Op) (h : Follows toHead response framing body rest missing c) :
    Onward toHead response framing body rest missing c
      { c with wire := op.abandon c.wire, pending := none } := by
  have ha : (op.abandon c.wire).arriving = c.wire.arriving := by
    unfold Op.abandon
    split <;> rfl
  by_cases hwaits : ∃ r, c.pending = some (.execute (.awaitingHead r))
  · obtain ⟨r, hr⟩ := hwaits
    obtain ⟨hs, hl, -⟩ := h.of_awaiting hr
    exact .of_arriving
      (.gone (resting_of_none rfl) (by simp [hs]) (by simp [hs]) (by simp [hs]) hl) ha
  · have hne : ∀ r, c.pending ≠ some (.execute (.awaitingHead r)) := fun r hr => hwaits ⟨r, hr⟩
    exact .of_arriving (h.frame hne (fresh_of_none rfl) rfl (.inl rfl) rfl ha) ha

/-- To abort. An exchange that is under way fails. -/
theorem onward_abort (hnone : c.pending = none)
    (h : Follows toHead response framing body rest missing c) :
    Onward toHead response framing body rest missing c
      { c with exchange := (c.exchange.abort c.wire).1, wire := (c.exchange.abort c.wire).2 } := by
  by_cases hbusy : c.exchange.stage ≠ .idle ∧ c.exchange.stage.isTerminal = false
  · rw [Exchange.abort, if_pos hbusy]
    exact .of_arriving (follows_of_failed (resting_of_none hnone) rfl rfl)
      (Exchange.fail_frame Wire.arriving rfl _)
  · rw [Exchange.abort, if_neg hbusy]
    exact .of_arriving h.cancel rfl

/-- Every deed keeps a course on the stream. -/
theorem onward_step (deed : Deed) (hdeed : deed.Fits toHead) (hbody : framing.IsBody body)
    (h : Follows toHead response framing body rest missing c) :
    Onward toHead response framing body rest missing c (c.step deed) := by
  cases deed with
  | begin call =>
    rw [step]
    split
    · exact .of_arriving h rfl
    · next hnone => exact onward_begin hdeed (by simpa using hnone) h
  | ask =>
    rw [step]
    split
    · exact .of_arriving h rfl
    · next op hop => exact onward_ask hop hbody h
  | letGo =>
    rw [step]
    split
    · exact .of_arriving h rfl
    · next op hop => exact onward_letGo op h
  | cancel => exact .of_arriving h.cancel rfl
  | abort =>
    rw [step]
    split
    · exact .of_arriving h rfl
    · next hnone => exact onward_abort (by simpa using hnone) h

theorem follows_start {settings : Settings} {w : Wire}
    (h : Heads toHead (w.unread ++ missing) response framing (body ++ rest)) :
    Follows toHead response framing body rest missing (start settings w) :=
  .opening (by simp [start, Stage.rank]) rfl (fresh_of_none rfl).sending h

/-- A course stays on the stream, whatever is done. -/
theorem follows_run (hbody : framing.IsBody body) : ∀ (deeds : List Deed) {c : Course},
    (∀ deed ∈ deeds, deed.Fits toHead) → Follows toHead response framing body rest missing c →
    Follows toHead response framing body rest missing (c.run deeds)
  | [], _, _, h => h
  | deed :: deeds, c, hfits, h => by
    have hstep := onward_step deed (hfits deed (List.mem_cons_self ..)) hbody h
    rw [run_cons]
    exact follows_run hbody deeds (fun d hd => hfits d (List.mem_cons_of_mem _ hd)) hstep.follows

/-- The bytes that a course has taken are the front of those that were there. -/
theorem reads_run (hbody : framing.IsBody body) : ∀ (deeds : List Deed) {c : Course},
    (∀ deed ∈ deeds, deed.Fits toHead) → Follows toHead response framing body rest missing c →
    ∃ taken, c.wire.unread = taken ++ (c.run deeds).wire.unread
  | [], _, _, _ => ⟨[], rfl⟩
  | deed :: deeds, c, hfits, h => by
    have hstep := onward_step deed (hfits deed (List.mem_cons_self ..)) hbody h
    obtain ⟨taken, htaken⟩ := hstep.reads
    obtain ⟨taken', htaken'⟩ :=
      reads_run hbody deeds (fun d hd => hfits d (List.mem_cons_of_mem _ hd)) hstep.follows
    refine ⟨taken ++ taken', ?_⟩
    rw [run_cons, htaken, htaken', List.append_assoc]

end Onward

end Course
end Http1Client
