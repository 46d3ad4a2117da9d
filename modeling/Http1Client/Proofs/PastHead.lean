/-
# Past the head

A reading is asked for the head until it has it. On the way the transport may
fail, the stream may seem to end, and a head may turn out faulty; none of this
opens a body (`Reading.Searching`). The answer that brings the head opens the
body that it announces, with nothing handed over yet, and what is ahead then is
what stands behind the head (`Reading.Reached.opened`).

`Reading.Past` says that a reading has come that far, in whatever way, and has
been asked for data any number of times since: every question may have been
answered, failed, or been given up while it was not ready.

A question that is not ready is asked again as long as its caller waits for it.
`Receiver.Call` is such a call as a whole: polls that were not ready, and one
more, whose answer is the last that the caller sees. What `Receiver.body` does is
a call (`Receiver.call_of_body`).

Key definitions: `Reading.Opened`, `Reading.Past`, `Receiver.Waits`,
`Receiver.Call`.
Key theorems: `Receiver.opens_pollHead`, `Reading.Reached.opened`,
`Reading.Past.induct`, `Receiver.call_of_finished`.
-/
import Mathlib.Logic.Relation
import Http1Client.Proofs.Delivery

namespace Http1Client

/-! ### The search for the head -/

namespace Incoming

/-- A final head opens the body that it announces, and nothing else opens one. -/
inductive Opens (toHead : Bool) (s : Incoming) : Progress Event → Prop where
  | head {response : Response} {framing : Framing} {limit : Nat} :
      s.body = some (.ofFraming limit framing) → Opens toHead s (.item (.head response framing))
  | need : s.toHead = toHead → s.body = none → Opens toHead s .need
  | fail {e : DecodeError} : s.toHead = toHead → s.body = none → Opens toHead s (.fail e)

variable {s s' : Incoming} {b rest : Bytes} {p : Progress Event} {toHead : Bool}

theorem opens_nextHead (hs : s.toHead = toHead) (hb : s.body = none)
    (h : s.nextHead b = (p, s', rest)) : s'.Opens toHead p := by
  fun_induction nextHead s b with
  | case1 s b kept rest' ht =>
    cases h
    exact .need hs hb
  | case2 s b e kept rest' ht =>
    cases h
    exact .fail hs hb
  | case3 s b response framing kept rest' ht hi ih => exact ih hs hb h
  | case4 s b response framing kept rest' ht hi =>
    cases h
    exact .head rfl

theorem opens_next (hs : s.toHead = toHead) (hb : s.body = none) (h : s.next b = (p, s', rest)) :
    s'.Opens toHead p :=
  opens_nextHead hs hb ((next_of_no_body hb b).symm.trans h)

theorem opens_nextEnd (hs : s.toHead = toHead) (hb : s.body = none)
    (h : s.nextEnd b = (p, s', rest)) : s'.Opens toHead p := by
  rcases hn : s.nextHead b with ⟨q, t, rest'⟩
  have hopens := opens_nextHead hs hb hn
  rw [nextEnd, hb] at h
  cases hopens with
  | need ht hclosed =>
    simp only [hn] at h
    cases h
    exact .fail ht hclosed
  | head hopen =>
    simp only [hn] at h
    cases h
    exact .head hopen
  | fail ht hclosed =>
    simp only [hn] at h
    cases h
    exact .fail ht hclosed

end Incoming

namespace Receiver

variable {r r' : Receiver} {w w' : Wire} {toHead : Bool}

/-- An answer that brings a head opens the body that the head announces, and
with any other answer the receiver is still before the head. -/
inductive Opens (toHead : Bool) (r : Receiver) :
    Poll (Except DecodeError (Response × Framing)) → Prop where
  | found {response : Response} {framing : Framing} {limit : Nat} :
      r.OpenAt (.ofFraming limit framing) → Opens toHead r (.ready (.ok (response, framing)))
  | waits {again : Bool} : r.BeforeHead toHead → Opens toHead r (.wait again)
  | fails {e : DecodeError} : r.BeforeHead toHead → Opens toHead r (.ready (.error e))

theorem opens_headAtEnd {result : Except DecodeError (Response × Framing)}
    (hr : r.BeforeHead toHead) (h : r.headAtEnd = (result, r')) :
    r'.Opens toHead (.ready result) := by
  rcases hn : r.incoming.nextEnd r.buffer with ⟨p, s, rest⟩
  have hopens := Incoming.opens_nextEnd hr.toHead hr.body hn
  rw [headAtEnd, hn] at h
  cases hopens with
  | head hopen =>
    cases h
    exact .found ⟨hopen, hr.unfinished, hr.room⟩
  | need hs hclosed =>
    cases h
    exact .fails ⟨hs, hclosed, hr.unfinished, hr.room⟩
  | fail hs hclosed =>
    cases h
    exact .fails ⟨hs, hclosed, hr.unfinished, hr.room⟩

/-- The head opens the body, and until it comes nothing is open. -/
theorem opens_pollHead {p : Poll (Except DecodeError (Response × Framing))}
    (hr : r.BeforeHead toHead) (h : r.pollHead w = (p, r', w')) : r'.Opens toHead p := by
  fun_induction pollHead r w with
  | case1 r w response framing s rest hn =>
    cases h
    cases Incoming.opens_next hr.toHead hr.body hn with
    | head hopen => exact .found ⟨hopen, hr.unfinished, hr.room⟩
  | case2 r w piece s rest hn => cases Incoming.opens_next hr.toHead hr.body hn
  | case3 r w e s rest hn =>
    cases h
    cases Incoming.opens_next hr.toHead hr.body hn with
    | fail hs hclosed => exact .fails ⟨hs, hclosed, hr.unfinished, hr.room⟩
  | case4 r w s rest hn again w₁ hread =>
    cases h
    cases Incoming.opens_next hr.toHead hr.body hn with
    | need hs hclosed => exact .waits ⟨hs, hclosed, hr.unfinished, hr.room⟩
  | case5 r w s rest hn e w₁ hread =>
    cases h
    cases Incoming.opens_next hr.toHead hr.body hn with
    | need hs hclosed => exact .fails ⟨hs, hclosed, hr.unfinished, hr.room⟩
  | case6 r w s rest hn w₁ hread result r₁ hend =>
    cases h
    cases Incoming.opens_next hr.toHead hr.body hn with
    | need hs hclosed =>
      have hr' : ({ r with incoming := s, buffer := rest } : Receiver).BeforeHead toHead :=
        ⟨hs, hclosed, hr.unfinished, hr.room⟩
      exact opens_headAtEnd hr' hend
  | case7 r w s rest hn x xs w₁ hread ih =>
    cases Incoming.opens_next hr.toHead hr.body hn with
    | need hs hclosed => exact ih ⟨hs, hclosed, hr.unfinished, hr.room⟩ h

end Receiver

namespace Reading

variable {s : Reading} {framing : Framing} {tail : Bytes}

/-- The reading has not got a head, and nothing else either. -/
structure Searching (s : Reading) : Prop where
  head : s.head = none
  before : ∃ toHead, s.receiver.BeforeHead toHead
  data : s.data = []
  last : s.last = false

/-- The reading has got the head and has not been asked for data yet. -/
structure Opened (framing : Framing) (tail : Bytes) (s : Reading) : Prop where
  head : ∃ response, s.head = some (response, framing)
  openAt : ∃ limit, s.receiver.OpenAt (.ofFraming limit framing)
  data : s.data = []
  last : s.last = false
  ahead : s.ahead = tail

theorem searching_start (toHead : Bool) (room chunkLimit : Nat) (w : Wire) :
    (start toHead room chunkLimit w).Searching :=
  ⟨rfl, ⟨toHead, Receiver.beforeHead_ofRequest toHead room chunkLimit⟩, rfl, rfl⟩

/-- One question more, and the search goes on or the body is open. -/
theorem Searching.ask (h : s.Searching) (size : Nat) :
    (s.ask size).Searching ∨ ∃ framing, (s.ask size).Opened framing (s.ask size).ahead := by
  obtain ⟨toHead, hbefore⟩ := h.before
  rcases hpoll : s.receiver.pollHead s.wire with ⟨p, r, w⟩
  have hopens := Receiver.opens_pollHead hbefore hpoll
  unfold Reading.ask
  rw [h.head]
  simp only [hpoll]
  cases hopens with
  | waits hr => exact .inl ⟨rfl, ⟨toHead, hr⟩, h.data, h.last⟩
  | fails hr => exact .inl ⟨rfl, ⟨toHead, hr⟩, h.data, h.last⟩
  | @found response framing limit hr =>
    exact .inr ⟨framing, ⟨response, rfl⟩, ⟨limit, hr⟩, h.data, h.last, rfl⟩

/-- A head stays. -/
theorem head_ask {head : Response × Framing} (h : s.head = some head) (size : Nat) :
    (s.ask size).head = some head := by
  unfold Reading.ask
  rw [h]
  dsimp only
  split <;> rfl

theorem head_run {head : Response × Framing} : ∀ (sizes : List Nat) {s : Reading},
    s.head = some head → (s.run sizes).head = some head
  | [], _, h => h
  | size :: sizes, _, h => head_run sizes (head_ask h size)

theorem searching_run : ∀ (sizes : List Nat) {s : Reading}, s.Searching →
    (s.run sizes).Searching ∨ ∃ head, (s.run sizes).head = some head
  | [], _, h => .inl h
  | size :: sizes, s, h => by
    rcases h.ask size with hsearching | ⟨framing, hopened⟩
    · exact searching_run sizes hsearching
    · obtain ⟨response, hhead⟩ := hopened.head
      exact .inr ⟨_, head_run sizes hhead⟩

/-! ### Past the head -/

/-- The reading of some response has come to this state. -/
def Reached (s : Reading) : Prop :=
  ∃ toHead room chunkLimit w sizes, s = (start toHead room chunkLimit w).run sizes

/-- The reading has got a head with this framing, and may have been asked for
data since. The bytes are those that stood behind the head. -/
inductive Past (framing : Framing) : Bytes → Reading → Prop where
  | head {s : Reading} {response : Response} (size : Nat) : s.Reached → s.head = none →
      (s.ask size).head = some (response, framing) → Past framing (s.ask size).ahead (s.ask size)
  | ask {tail : Bytes} {s : Reading} (size : Nat) : Past framing tail s →
      Past framing tail (s.ask size)

/-- With the answer that brings the head the body is open. -/
theorem Reached.opened {response : Response} {size : Nat} (h : s.Reached) (hnone : s.head = none)
    (hhead : (s.ask size).head = some (response, framing)) :
    (s.ask size).Opened framing (s.ask size).ahead := by
  obtain ⟨toHead, room, chunkLimit, w, sizes, rfl⟩ := h
  rcases searching_run sizes (searching_start toHead room chunkLimit w) with hs | ⟨head, hs⟩
  · rcases hs.ask size with hsearching | ⟨framing', hopened⟩
    · rw [hsearching.head] at hhead
      cases hhead
    · obtain ⟨response', hhead'⟩ := hopened.head
      rw [hhead'] at hhead
      cases hhead
      exact hopened
  · rw [hnone] at hs
    cases hs

/-- What holds when the head has come, and behind each question if it held
before, holds past the head. -/
theorem Past.induct {P : Reading → Prop} (h : Past framing tail s)
    (opened : ∀ s, Opened framing tail s → P s) (ask : ∀ s size, P s → P (s.ask size)) : P s := by
  induction h with
  | head size hreached hnone hhead => exact opened _ (hreached.opened hnone hhead)
  | ask size _ ih => exact ask _ size (ih opened)

theorem Past.run : ∀ (sizes : List Nat) {s : Reading}, Past framing tail s →
    Past framing tail (s.run sizes)
  | [], _, h => h
  | size :: sizes, _, h => Past.run sizes (h.ask size)

/-- A body of two bytes that comes in two parts, with another byte behind it. -/
def halting : Wire :=
  { arriving := [
      .bytes Incoming.shortHeads, .bytes (Bytes.ofText "h"), .act .pause,
      .bytes (Bytes.ofText "i!")] }

theorem past_halting :
    Past (.length 2) ((start false 16 8 halting).run [4]).ahead
      ((start false 16 8 halting).run [4]) := by
  have hhead : ((start false 16 8 halting).ask 4).head = some (Incoming.shortHead, .length 2) := by
    decide +kernel
  exact .head 4 ⟨false, 16, 8, halting, [], rfl⟩ rfl hhead

end Reading

/-! ### Calls -/

open Relation

/-- To ask as long as it is worth it is to ask again where there was no answer. -/
theorem Poll.exists_of_retry {α σ : Type} {ask : σ → Poll α × σ} {result : Option α}
    {rounds : Nat} {s s' : σ} (h : Poll.retry rounds ask s = (result, s')) :
    ∃ p s₁, ReflTransGen (fun s s' => ∃ again, ask s = (.wait again, s')) s s₁ ∧
      ask s₁ = (p, s') ∧ ∀ a, result = some a → p = .ready a := by
  fun_induction Poll.retry rounds ask s with
  | case1 s rounds s₂ hask ih =>
    obtain ⟨p, s₁, hwaits, hlast, hanswer⟩ := ih h
    exact ⟨p, s₁, .head ⟨true, hask⟩ hwaits, hlast, hanswer⟩
  | case2 rounds s again s₂ hask _ =>
    cases h
    exact ⟨_, s, .refl, hask, fun _ ha => by cases ha⟩
  | case3 rounds s a s₂ hask =>
    cases h
    refine ⟨_, s, .refl, hask, ?_⟩
    rintro _ ⟨⟩
    rfl

namespace Receiver

/-- A poll for data was not ready. -/
def Waits (size : Nat) (m m' : Receiver × Wire) : Prop :=
  ∃ again, m.1.pollBody size m.2 = (.wait again, m')

/-- A call for data, from its first poll to the last one that its caller makes:
the polls before that were not ready. -/
def Call (size : Nat) (m : Receiver × Wire) (p : Poll (Except DecodeError Delivery))
    (m' : Receiver × Wire) : Prop :=
  ∃ m₁, ReflTransGen (Waits size) m m₁ ∧ m₁.1.pollBody size m₁.2 = (p, m')

/-- To receive data as far as the wire lets it is a call. -/
theorem call_of_body {r : Receiver} {w : Wire} {size : Nat} {m' : Receiver × Wire}
    {result : Option (Except DecodeError Delivery)} (h : r.body size w = (result, m')) :
    ∃ p, Call size (r, w) p m' ∧ ∀ given, result = some given → p = .ready given := by
  obtain ⟨p, m₁, hwaits, hlast, hanswer⟩ := Poll.exists_of_retry h
  exact ⟨p, ⟨m₁, hwaits, hlast⟩, hanswer⟩

theorem pollBody_of_finished {r : Receiver} (h : r.finished = true) (size : Nat) (w : Wire) :
    r.pollBody size w = (.ready (.ok .finished), r, w) := by
  rw [pollBody, if_pos h]

/-- Behind the end of the body every poll is ready. -/
theorem waits_of_finished {size : Nat} {m m₁ : Receiver × Wire} (h : m.1.finished = true)
    (hwaits : ReflTransGen (Waits size) m m₁) : m₁ = m := by
  rcases hwaits.cases_head with rfl | ⟨m₂, ⟨again, hwait⟩, -⟩
  · rfl
  · rw [pollBody_of_finished h] at hwait
    cases hwait

/-- Behind the end of the body a call is answered at once, and leaves the
wire alone. -/
theorem call_of_finished {size : Nat} {m m' : Receiver × Wire}
    {p : Poll (Except DecodeError Delivery)} (h : m.1.finished = true) (hcall : Call size m p m') :
    p = .ready (.ok .finished) ∧ m' = m := by
  obtain ⟨m₁, hwaits, hlast⟩ := hcall
  rw [waits_of_finished h hwaits, pollBody_of_finished h] at hlast
  cases hlast
  exact ⟨rfl, rfl⟩

end Receiver
end Http1Client
