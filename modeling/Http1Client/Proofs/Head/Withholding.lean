/-
# Heads that are withheld

A head is complete as soon as its lines are, but none is taken before sixteen
bytes are there. With sixteen bytes a complete head is taken as it is, whatever
stands behind it (`IsWhole.takeHead_eq`). Complete heads of fourteen and fifteen
bytes exist, all with a line feed that has no carriage return
(`IsWhole.leastSize_le`), and such a head waits for bytes behind it. Where the
stream ends right behind it, it is reported as cut short, and every longer one is
given out, however it came (`Receiver.Ahead.pollHead`).

Key definitions: `IsWhole`, `EndsWith`, `headAnswer`, `Receiver.Ahead`,
`Receiver.Stalls`.
Key theorems: `IsWhole.takeHead_eq`, `EndsWith.nextHead`,
`Receiver.Ahead.pollHead`, `withheld`.
-/
import Mathlib.Logic.Relation
import Http1Client.Proofs.PassingOver
import Http1Client.Proofs.Reception

namespace Http1Client

open Head Arrival

/-! ### One head -/

/-- The bytes are one complete head with a code that is one, of at most
`sizeLimit` bytes, and it says this. -/
def IsWhole (p : Bytes) (response : Response) : Prop :=
  ∃ line fields bare, scanHead p = .complete line fields [] ∧ line.response? = some bare ∧
    response = { bare with fields := .ofList fields } ∧ p.length ≤ sizeLimit

section One

variable {toHead : Bool} {salvaged : Option Response} {p q u : Bytes} {response : Response}
  {framing : Framing}

theorem isHead_iff : IsHead toHead p response framing ↔
    IsWhole p response ∧ response.framing toHead = .ok framing := by
  constructor
  · rintro ⟨line, fields, bare, hscan, hbare, hsays, hframing, hsize⟩
    exact ⟨⟨line, fields, bare, hscan, hbare, hsays, hsize⟩, hframing⟩
  · rintro ⟨⟨line, fields, bare, hscan, hbare, hsays, hsize⟩, hframing⟩
    exact ⟨line, fields, bare, hscan, hbare, hsays, hframing, hsize⟩

theorem IsWhole.unique {response' : Response} (h : IsWhole p response)
    (h' : IsWhole p response') : response = response' := by
  obtain ⟨line, fields, bare, hscan, hbare, rfl, -⟩ := h
  obtain ⟨line', fields', bare', hscan', hbare', rfl, -⟩ := h'
  rw [hscan, HeadScan.complete.injEq] at hscan'
  obtain ⟨rfl, rfl, -⟩ := hscan'
  rw [hbare, Option.some.injEq] at hbare'
  rw [hbare']

/-- A complete head in front of bytes is a head by itself. -/
theorem exists_isWhole {b rest : Bytes} {line : StatusLine}
    {fields : List (FieldName × FieldValue)} (hscan : scanHead b = .complete line fields rest)
    (hcode : 100 ≤ line.code ∧ line.code < 1000) (hsize : b.length - rest.length ≤ sizeLimit) :
    ∃ p response, b = p ++ rest ∧ IsWhole p response := by
  have hstatus : StatusCode.ofNat? line.code = some ⟨line.code, hcode.1, hcode.2⟩ :=
    dif_pos hcode
  obtain ⟨bare, hbare⟩ : ∃ bare, line.response? = some bare := by
    rw [StatusLine.response?, hstatus]
    exact ⟨_, rfl⟩
  obtain ⟨p, rfl, hp⟩ := scanHead_complete hscan
  exact ⟨p, _, rfl, line, fields, bare, by simpa using hp [], hbare, rfl, by simpa using hsize⟩

/-- A complete head waits for sixteen bytes, its own and those behind it, and
is taken then. -/
theorem IsWhole.takeHead_eq (h : IsWhole p response) (toHead : Bool) (salvaged : Option Response)
    (rest : Bytes) : takeHead toHead salvaged (p ++ rest) =
      if (p ++ rest).length < leastSize then ⟨.need, salvaged, p ++ rest⟩
      else frameHead toHead salvaged response rest := by
  obtain ⟨line, fields, bare, hscan, hbare, rfl, hsize⟩ := h
  have hbehind : scanHead (p ++ rest) = .complete line fields rest := by
    simpa using scanHead_append_of_complete hscan rest
  have htaken : (p ++ rest).length - rest.length ≤ sizeLimit := by simpa using hsize
  by_cases hshort : (p ++ rest).length < leastSize
  · rw [takeHead, if_pos (Bytes.isShorter_iff.mpr hshort), if_pos hshort]
  · rw [takeHead, if_neg (mt Bytes.isShorter_iff.mp hshort), hbehind, if_neg hshort]
    simp only [hbare, htaken, if_true]

/-- The front of a complete head is no reason to stop. -/
theorem IsWhole.takeHead_front (h : IsWhole (q ++ u) response) (hu : u ≠ []) (toHead : Bool)
    (salvaged : Option Response) : takeHead toHead salvaged q = ⟨.need, salvaged, q⟩ := by
  obtain ⟨line, fields, bare, hscan, -, -, hsize⟩ := h
  exact Http1Client.takeHead_front hscan hu hsize toHead salvaged

/-- The version, the code and two line ends are fourteen bytes. -/
theorem IsWhole.fourteen_le (h : IsWhole p response) : 14 ≤ p.length := by
  obtain ⟨line, fields, bare, hscan, -⟩ := h
  obtain ⟨opening, said, behind, rfl, hopening, hsaid, hfields⟩ := exists_of_complete hscan
  have htwelve := hopening.count_le
  have hlong : opening.countP (fun x => !isLineByte x) ≤ opening.length := List.countP_le_length
  have hsaid := hsaid.count_pos.trans List.count_le_length
  have hempty := (scanFields_count hfields).trans_le List.count_le_length
  rw [List.count_nil] at hempty
  simp only [List.length_append]
  omega

/-- A head whose lines end as they should is never too short. -/
theorem IsWhole.leastSize_le (h : IsWhole p response) (hlines : AreLines p) :
    leastSize ≤ p.length := by
  obtain ⟨line, fields, bare, hscan, -⟩ := h
  exact leastSize_le_of_complete hscan hlines

end One

/-! ### Streams that end right behind a head -/

/-- The bytes are interim heads, any number of them, and one final head `p` that
says this. Nothing is behind it. -/
inductive EndsWith (toHead : Bool) (p : Bytes) (response : Response) : Bytes → Prop where
  | final : IsWhole p response → response.isInterim = false → EndsWith toHead p response p
  | interim {q b : Bytes} {r : Response} {f : Framing} : IsHead toHead q r f →
      r.isInterim = true → EndsWith toHead p response b → EndsWith toHead p response (q ++ b)

/-- What a final head comes to: it is given out with its framing, or its framing
is at fault. -/
def headAnswer (toHead : Bool) (response : Response) : Except DecodeError (Response × Framing) :=
  match response.framing toHead with
  | .error fault => .error (.badLength fault)
  | .ok framing => .ok (response, framing)

/-- The same as an event. -/
def headEvent (toHead : Bool) (response : Response) : Progress Event :=
  match headAnswer toHead response with
  | .error e => .fail e
  | .ok (response, framing) => .item (.head response framing)

section Stream

variable {toHead : Bool} {p b : Bytes} {response : Response} {s : Incoming}

theorem EndsWith.fourteen_le (h : EndsWith toHead p response b) : 14 ≤ b.length := by
  cases h with
  | final hwhole _ => exact hwhole.fourteen_le
  | interim hq _ _ =>
    have hlong := (isHead_iff.mp hq).1.fourteen_le
    rw [List.length_append]
    omega

/-- A final head that is long enough is given out, or its fault is. -/
theorem nextHead_of_isWhole (hs : s.toHead = toHead) (h : IsWhole p response)
    (hfinal : response.isInterim = false) (hlong : leastSize ≤ p.length) : ∃ s' rest,
    s.nextHead p = (headEvent toHead response, s', rest) := by
  have htake := h.takeHead_eq s.toHead s.salvaged []
  rw [List.append_nil, if_neg (Nat.not_lt.mpr hlong)] at htake
  unfold headEvent headAnswer
  cases hframing : response.framing toHead with
  | error fault =>
    refine Incoming.nextHead_of_fail ?_
    rw [htake, frameHead, hs, hframing]
  | ok framing =>
    rw [frameHead, hs, hframing] at htake
    rw [← hs] at htake
    rw [Incoming.nextHead_of_item htake, if_neg (by simp [hfinal])]
    exact ⟨_, _, rfl⟩

/-- The search in the front of such a stream. It has to wait, and at the end
of the stream it does so for a head that is too short; or it comes to what the
final head comes to, and that is at the end. -/
theorem EndsWith.nextHead (hs : s.toHead = toHead) (h : EndsWith toHead p response b) :
    ∀ {x y : Bytes}, b = x ++ y →
      (∃ rest, s.nextHead x = (.need, s, rest) ∧ EndsWith toHead p response (rest ++ y) ∧
        (y = [] → rest = p ∧ p.length < leastSize)) ∨
      (leastSize ≤ p.length ∧ ∃ s' rest, s.nextHead x = (headEvent toHead response, s', rest)) := by
  induction h with
  | final hwhole hfinal =>
    rintro x y rfl
    by_cases hy : y = []
    · subst hy
      rw [List.append_nil] at hwhole ⊢
      rcases Nat.lt_or_ge x.length leastSize with hshort | hlong
      · have htake := hwhole.takeHead_eq s.toHead s.salvaged []
        rw [List.append_nil, if_pos hshort] at htake
        refine .inl ⟨x, Incoming.nextHead_of_need htake, ?_, fun _ => ⟨rfl, hshort⟩⟩
        rw [List.append_nil]
        exact .final hwhole hfinal
      · exact .inr ⟨hlong, nextHead_of_isWhole hs hwhole hfinal hlong⟩
    · have htake := hwhole.takeHead_front hy s.toHead s.salvaged
      exact .inl ⟨x, Incoming.nextHead_of_need htake, .final hwhole hfinal, fun h => absurd h hy⟩
  | @interim q b' r f hq hinterim hrest ih =>
    intro x y hb
    obtain ⟨hwhole, hframing⟩ := isHead_iff.mp hq
    have hx : x <+: q ++ b' := hb ▸ List.prefix_append x y
    -- The stream is cut inside the interim head, or behind it.
    rcases Nat.lt_or_ge x.length q.length with hlt | hge
    · obtain ⟨a, rfl⟩ := List.prefix_of_prefix_length_le hx (List.prefix_append q b') hlt.le
      have ha : a ≠ [] := by
        rintro rfl
        simp at hlt
      rw [List.append_assoc] at hb
      obtain rfl := List.append_cancel_left hb
      have htake := hwhole.takeHead_front ha s.toHead s.salvaged
      refine .inl ⟨x, Incoming.nextHead_of_need htake, ?_, fun hy => ?_⟩
      · rw [← List.append_assoc]
        exact .interim hq hinterim hrest
      · exact absurd (List.append_eq_nil_iff.mp hy).1 ha
    · obtain ⟨a, rfl⟩ := List.prefix_of_prefix_length_le (List.prefix_append q b') hx hge
      rw [List.append_assoc] at hb
      obtain rfl := List.append_cancel_left hb
      have htake := hwhole.takeHead_eq s.toHead s.salvaged a
      by_cases hshort : (q ++ a).length < leastSize
      · rw [if_pos hshort] at htake
        refine .inl ⟨q ++ a, Incoming.nextHead_of_need htake, ?_, fun hy => ?_⟩
        · rw [List.append_assoc]
          exact .interim hq hinterim hrest
        -- Two heads have at least 28 bytes, so this is not the end of the stream.
        · have hfirst := hwhole.fourteen_le
          have hsecond := hrest.fourteen_le
          rw [hy, List.append_nil] at hsecond
          rw [List.length_append, show leastSize = 16 from rfl] at hshort
          omega
      · rw [← hs] at hframing
        rw [if_neg hshort, frameHead, hframing] at htake
        rw [Incoming.nextHead_of_item htake, if_pos hinterim]
        exact ih rfl

end Stream

/-! ### Reading the head -/

/-- An error that is handed over is one of what arrives. -/
theorem Arrival.fail_mem_of_handOver {room : Nat} {e : IoError} : ∀ as : List Arrival,
    (Act.handOver room as).answer = .ready (.error e) → .act (.fail e) ∈ as
  | .act (.fail e') :: as, h => by
    obtain rfl : e' = e := by simpa [Act.handOver] using h
    exact .head _
  | .act .cancelNow :: as, h => .tail _ (fail_mem_of_handOver as h)
  | .bytes b :: as, h => by
    by_cases hb : b = []
    · rw [Act.handOver, if_pos hb] at h
      exact .tail _ (fail_mem_of_handOver as h)
    · rw [Act.handOver, if_neg hb] at h
      cases h

/-- What is left of what arrives has no act that was not there. -/
theorem Arrival.act_mem_of_handOver {room : Nat} {a : Act} : ∀ as : List Arrival,
    .act a ∈ (Act.handOver room as).left → .act a ∈ as
  | [], h => h
  | .bytes b :: as, h => by
    by_cases hb : b = []
    · rw [Act.handOver, if_pos hb] at h
      exact .tail _ (act_mem_of_handOver as h)
    · rw [Act.handOver, if_neg hb, Act.putBack] at h
      split at h
      · exact .tail _ h
      · simpa using h
  | .act (.fail _) :: _, h => .tail _ h
  | .act .zero :: _, h => .tail _ h
  | .act .pause :: _, h => .tail _ h
  | .act .hang :: _, h => .tail _ h
  | .act .cancel :: _, h => .tail _ h
  | .act .cancelNow :: as, h => .tail _ (act_mem_of_handOver as h)

/-- What the head comes to that the stream ends right behind. -/
def lastAnswer (toHead : Bool) (p : Bytes) (response : Response) :
    Except DecodeError (Response × Framing) :=
  if p.length < leastSize then
    .error (.cutShort s!"connection closed with {p.length} bytes of incomplete response head")
  else headAnswer toHead response

namespace Receiver

/-- The receiver is before the head, and what is ahead of it ends with one. -/
structure Ahead (toHead : Bool) (p : Bytes) (response : Response) (r : Receiver) (w : Wire) :
    Prop where
  before : r.BeforeHead toHead
  ahead : EndsWith toHead p response (r.buffer ++ w.unread)
  endsLast : w.EndsLast

/-- What a question for the head can come to. The wire is not ready or fails,
which uses an act up; or the head is answered for. -/
inductive LastTurn (toHead : Bool) (p : Bytes) (response : Response) (w : Wire) :
    Poll (Except DecodeError (Response × Framing)) → Receiver → Wire → Prop where
  | waits {again : Bool} {r' : Receiver} {w' : Wire} : Ahead toHead p response r' w' →
      actsIn w'.arriving < actsIn w.arriving → LastTurn toHead p response w (.wait again) r' w'
  | broken {e : IoError} {r' : Receiver} {w' : Wire} : Ahead toHead p response r' w' →
      actsIn w'.arriving < actsIn w.arriving → .act (.fail e) ∈ w.arriving →
      LastTurn toHead p response w (.ready (.error (.io e))) r' w'
  | answered {r' : Receiver} {w' : Wire} :
      (p.length < leastSize → Ahead toHead p response r' w') →
      LastTurn toHead p response w (.ready (lastAnswer toHead p response)) r' w'

variable {toHead : Bool} {p : Bytes} {response : Response} {r r' : Receiver} {w w' : Wire}

/-- The search has passed interim heads over and goes on over what was read. -/
theorem Ahead.read {rest x : Bytes} (hr : r.BeforeHead toHead)
    (hlast : EndsWith toHead p response (rest ++ w.unread)) (he : w.EndsLast)
    (hg : Gives w.arriving x w'.arriving) :
    Ahead toHead p response { r with buffer := rest ++ x } w' := by
  refine ⟨hr.withBuffer _, ?_, hg.endsLast he⟩
  rw [hg.unread] at hlast
  rwa [List.append_assoc]

theorem headAtEnd_of_short (hb : r.incoming.body = none)
    (hn : r.incoming.nextHead r.buffer = (.need, r.incoming, r.buffer)) : r.headAtEnd =
      (.error (.cutShort
        s!"connection closed with {r.buffer.length} bytes of incomplete response head"), r) := by
  rw [headAtEnd, Incoming.nextEnd, hb]
  simp only [hn]

theorem lastAnswer_of_long (hlong : leastSize ≤ p.length) :
    lastAnswer toHead p response = headAnswer toHead response :=
  if_neg (Nat.not_lt.mpr hlong)

theorem headAnswer_of_item {response' : Response} {framing : Framing}
    (h : headEvent toHead response = .item (.head response' framing)) :
    headAnswer toHead response = .ok (response', framing) := by
  unfold headEvent at h
  split at h
  · cases h
  · next hanswer =>
    cases h
    exact hanswer

theorem headAnswer_of_fail {e : DecodeError} (h : headEvent toHead response = .fail e) :
    headAnswer toHead response = .error e := by
  unfold headEvent at h
  split at h
  · next hanswer =>
    cases h
    exact hanswer
  · cases h

/-- What the search can come to in what was read so far. -/
inductive Searched (toHead : Bool) (p : Bytes) (response : Response) (r : Receiver) (w : Wire) :
    Progress Event → Incoming → Bytes → Prop where
  | need {rest : Bytes} : r.incoming.nextHead rest = (.need, r.incoming, rest) →
      EndsWith toHead p response (rest ++ w.unread) →
      (w.unread = [] → rest = p ∧ p.length < leastSize) →
      Searched toHead p response r w .need r.incoming rest
  | done {q : Progress Event} {s : Incoming} {rest : Bytes} : leastSize ≤ p.length →
      q = headEvent toHead response → Searched toHead p response r w q s rest

theorem Ahead.next {q : Progress Event} {s : Incoming} {rest : Bytes}
    (h : Ahead toHead p response r w) (hn : r.incoming.next r.buffer = (q, s, rest)) :
    Searched toHead p response r w q s rest := by
  rw [Incoming.next_of_no_body h.before.body] at hn
  rcases h.ahead.nextHead h.before.toHead rfl with
    ⟨rest', hneed, hrest, hend⟩ | ⟨hlong, s', rest', hdone⟩
  · rw [hneed] at hn
    cases hn
    exact .need (Incoming.nextHead_append_of_need hneed []).2.2 hrest hend
  · rw [hdone] at hn
    cases hn
    exact .done hlong rfl

theorem headEvent_ne_need (toHead : Bool) (response : Response) :
    headEvent toHead response ≠ .need := by
  unfold headEvent
  split <;> simp

/-- What a question for the head comes to where the stream ends right
behind it. -/
theorem Ahead.pollHead {answer : Poll (Except DecodeError (Response × Framing))}
    (h : Ahead toHead p response r w) (hr : r.pollHead w = (answer, r', w')) :
    LastTurn toHead p response w answer r' w' := by
  fun_induction Receiver.pollHead r w with
  | case1 r w response' framing s rest hn =>
    cases hr
    cases h.next hn with
    | done hlong hevent =>
      rw [← headAnswer_of_item hevent.symm, ← lastAnswer_of_long hlong]
      exact .answered fun hshort => absurd hlong (Nat.not_le.mpr hshort)
  | case2 r w piece s rest hn =>
    rw [Incoming.next_of_no_body h.before.body] at hn
    exact absurd (congrArg Prod.fst hn) (Incoming.nextHead_ne_piece _ _ _)
  | case3 r w e s rest hn =>
    cases hr
    cases h.next hn with
    | done hlong hevent =>
      rw [← headAnswer_of_fail hevent.symm, ← lastAnswer_of_long hlong]
      exact .answered fun hshort => absurd hlong (Nat.not_le.mpr hshort)
  | case4 r w s rest hn again w₁ hread =>
    cases hr
    cases h.next hn with
    | done _ hevent => exact absurd hevent.symm (headEvent_ne_need _ _)
    | need _ hlast _ =>
      cases Wire.handed_read h.before.room hread with
      | waits hg hlt =>
        have hahead := Ahead.read h.before hlast h.endsLast hg
        rw [List.append_nil] at hahead
        exact .waits hahead hlt
  | case5 r w s rest hn e w₁ hread =>
    cases hr
    cases h.next hn with
    | done _ hevent => exact absurd hevent.symm (headEvent_ne_need _ _)
    | need _ hlast _ =>
      cases Wire.handed_read h.before.room hread with
      | failed hg hlt =>
        have hahead := Ahead.read h.before hlast h.endsLast hg
        rw [List.append_nil] at hahead
        exact .broken hahead hlt (fail_mem_of_handOver _ (congrArg Prod.fst hread))
  | case6 r w s rest hn w₁ hread result r₁ hend =>
    cases hr
    cases h.next hn with
    | done _ hevent => exact absurd hevent.symm (headEvent_ne_need _ _)
    | need hneed hlast hatEnd =>
      cases Wire.handed_read h.before.room hread with
      | ended hm =>
        obtain ⟨hnone, hstill⟩ := hm.endsLast h.endsLast
        obtain ⟨rfl, hshort⟩ := hatEnd hnone
        rw [headAtEnd_of_short (r := { r with buffer := rest }) h.before.body hneed] at hend
        cases hend
        have hcut : lastAnswer toHead rest response = .error (.cutShort
            s!"connection closed with {rest.length} bytes of incomplete response head") :=
          if_pos hshort
        rw [← hcut]
        refine .answered fun _ => ⟨h.before.withBuffer _, ?_, hstill⟩
        rwa [hm.unread]
  | case7 r w s rest hn x xs w₁ hread ih =>
    cases h.next hn with
    | done _ hevent => exact absurd hevent.symm (headEvent_ne_need _ _)
    | need _ hlast _ =>
      cases Wire.handed_read h.before.room hread with
      | bytes hg =>
        cases ih (Ahead.read (h.before.withBuffer rest) hlast h.endsLast hg) hr with
        | waits hahead hlt => exact .waits hahead (Nat.lt_of_lt_of_le hlt hg.acts)
        | broken hahead hlt hmem =>
          rw [show w₁.arriving = _ from congrArg (·.2.arriving) hread.symm] at hmem
          exact .broken hahead (Nat.lt_of_lt_of_le hlt hg.acts) (act_mem_of_handOver _ hmem)
        | answered hahead => exact .answered hahead

/-! ### Until the head is answered for -/

open Relation

/-- Asked for the head, the wire was not ready or reported an error of its own. -/
def Stalls (m m' : Receiver × Wire) : Prop :=
  ∃ answer, m.1.pollHead m.2 = (answer, m') ∧ ((∃ again, answer = .wait again) ∨
    ∃ e, .act (.fail e) ∈ m.2.arriving ∧ answer = .ready (.error (.io e)))

variable {m m' : Receiver × Wire}

/-- Only the end of the stream is reported as an error of the transport. -/
theorem short_of_lastAnswer {e : IoError} (h : lastAnswer toHead p response = .error (.io e)) :
    p.length < leastSize := by
  by_contra hlong
  rw [lastAnswer_of_long (Nat.not_lt.mp hlong), headAnswer] at h
  split at h <;> cases h

theorem Ahead.stalls (h : Ahead toHead p response m.1 m.2) (hstalls : Stalls m m') :
    Ahead toHead p response m'.1 m'.2 := by
  obtain ⟨answer, hpoll, hanswer⟩ := hstalls
  cases h.pollHead hpoll with
  | waits hahead _ => exact hahead
  | broken hahead _ _ => exact hahead
  | answered hahead =>
    rcases hanswer with ⟨again, hwait⟩ | ⟨e, -, herror⟩
    · cases hwait
    · exact hahead (short_of_lastAnswer (Poll.ready.inj herror))

theorem Ahead.stalls_all (h : Ahead toHead p response m.1 m.2)
    (hstalls : ReflTransGen Stalls m m') : Ahead toHead p response m'.1 m'.2 := by
  induction hstalls with
  | refl => exact h
  | tail _ hlast ih => exact ih.stalls hlast

/-- The head is answered for if it is asked for often enough. -/
theorem Ahead.exists_answer (h : Ahead toHead p response m.1 m.2) : ∃ m₁ m',
    ReflTransGen Stalls m m₁ ∧
      m₁.1.pollHead m₁.2 = (.ready (lastAnswer toHead p response), m') := by
  induction hn : actsIn m.2.arriving using Nat.strongRecOn generalizing m with
  | ind n ih =>
    rcases hpoll : m.1.pollHead m.2 with ⟨answer, r', w'⟩
    cases h.pollHead hpoll with
    | waits hahead hlt =>
      obtain ⟨m₁, m', hrest, hlast⟩ := @ih _ (hn ▸ hlt) (r', w') hahead rfl
      exact ⟨m₁, m', .head ⟨_, hpoll, .inl ⟨_, rfl⟩⟩ hrest, hlast⟩
    | broken hahead hlt hmem =>
      obtain ⟨m₁, m', hrest, hlast⟩ := @ih _ (hn ▸ hlt) (r', w') hahead rfl
      exact ⟨m₁, m', .head ⟨_, hpoll, .inr ⟨_, hmem, rfl⟩⟩ hrest, hlast⟩
    | answered _ => exact ⟨m, _, .refl, hpoll⟩

/-- A wire that only brings bytes is asked once. -/
theorem Ahead.answer_of_plain (h : Ahead toHead p response r w) (hplain : actsIn w.arriving = 0) :
    (r.pollHead w).1 = .ready (lastAnswer toHead p response) := by
  rcases hpoll : r.pollHead w with ⟨answer, r', w'⟩
  cases h.pollHead hpoll with
  | waits _ hlt => omega
  | broken _ hlt _ => omega
  | answered _ => rfl

end Receiver

open Relation in
/-- **A complete head is withheld just if there are no sixteen bytes.** It is
taken, or its framing is at fault, as it would be without a look at their
number; but with fewer than sixteen bytes the decoder waits. A head whose lines
end as they should has them, and none has fewer than fourteen. Where the stream
ends right behind a final head, cut anywhere and asked for again and again, what
the reader answers is the head or the fault of its framing, unless the head is
too short: then it is reported as incomplete. -/
theorem withheld {b rest : Bytes} {line : StatusLine} {fields : List (FieldName × FieldValue)}
    (hscan : scanHead b = .complete line fields rest)
    (hcode : 100 ≤ line.code ∧ line.code < 1000) (hsize : b.length - rest.length ≤ sizeLimit) :
    ∃ p response, b = p ++ rest ∧ IsWhole p response ∧
      (∀ toHead salvaged, takeHead toHead salvaged b =
        if b.length < leastSize then ⟨.need, salvaged, b⟩
        else frameHead toHead salvaged response rest) ∧
      14 ≤ p.length ∧ (AreLines p → leastSize ≤ p.length) ∧
      ∀ toHead room chunkLimit w, EndsWith toHead p response w.unread → w.EndsLast →
        (∀ m result m',
          ReflTransGen Receiver.Stalls (Receiver.ofRequest toHead room chunkLimit, w) m →
          m.1.pollHead m.2 = (.ready result, m') →
          (∃ e, .act (.fail e) ∈ m.2.arriving ∧ result = .error (.io e)) ∨
            result = lastAnswer toHead p response) ∧
        ∃ m m', ReflTransGen Receiver.Stalls (Receiver.ofRequest toHead room chunkLimit, w) m ∧
          m.1.pollHead m.2 = (.ready (lastAnswer toHead p response), m') := by
  obtain ⟨p, response, rfl, h⟩ := exists_isWhole hscan hcode hsize
  refine ⟨p, response, rfl, h, fun toHead salvaged => h.takeHead_eq toHead salvaged rest,
    h.fourteen_le, h.leastSize_le, ?_⟩
  intro toHead room chunkLimit w hlast hends
  have hahead : Receiver.Ahead toHead p response (Receiver.ofRequest toHead room chunkLimit) w :=
    ⟨Receiver.beforeHead_ofRequest toHead room chunkLimit, hlast, hends⟩
  refine ⟨fun m result m' hstalls hpoll => ?_,
    Receiver.Ahead.exists_answer (m := (Receiver.ofRequest toHead room chunkLimit, w)) hahead⟩
  have hnow := Receiver.Ahead.stalls_all
    (m := (Receiver.ofRequest toHead room chunkLimit, w)) hahead hstalls
  cases hnow.pollHead hpoll with
  | broken _ _ hmem => exact .inl ⟨_, hmem, rfl⟩
  | answered _ => exact .inr rfl

/-- A head of seventeen bytes whose lines end with line feeds alone. -/
def bareHead : Bytes := Bytes.ofText "HTTP/1.1 200 OK\n\n"

/-- A complete head of fourteen bytes. -/
def shortestHead : Bytes := Bytes.ofText "HTTP/1.1 200\n\n"

/-- What the two heads say. -/
def bareResponse (reason : String) : Response := { status := StatusCode.ofNat? 200, reason }

theorem isWhole_bareHead : IsWhole bareHead (bareResponse "OK") :=
  ⟨{ version := .http11, code := 200, reason := Bytes.ofText "OK" }, [], bareResponse "OK",
    by decide +kernel, by decide +kernel, by decide +kernel, by decide +kernel⟩

theorem isWhole_shortestHead : IsWhole shortestHead (bareResponse "") :=
  ⟨{ version := .http11, code := 200, reason := [] }, [], bareResponse "",
    by decide +kernel, by decide +kernel, by decide +kernel, by decide +kernel⟩

/-- A stream that brings a head in two parts, and ends. -/
def haltingHead : Wire :=
  { arriving := [
      .bytes (Bytes.ofText "HTTP/1.1 200 O"), .act .pause, .bytes (Bytes.ofText "K\n\n")] }

theorem withheld_bareHead : ∃ m m',
    Relation.ReflTransGen Receiver.Stalls (Receiver.ofRequest false 16 8, haltingHead) m ∧
      m.1.pollHead m.2 = (.ready (.ok (bareResponse "OK", .untilClose)), m') := by
  have hscan : scanHead bareHead =
      .complete { version := .http11, code := 200, reason := Bytes.ofText "OK" } [] [] := by
    decide +kernel
  obtain ⟨p, response, hp, hwhole, -, -, -, hstream⟩ :=
    withheld hscan (by decide) (by decide +kernel)
  rw [List.append_nil] at hp
  subst hp
  obtain rfl := hwhole.unique isWhole_bareHead
  have hlast : EndsWith false bareHead (bareResponse "OK") haltingHead.unread :=
    .final hwhole (by decide +kernel)
  obtain ⟨-, m, m', hstalls, hpoll⟩ := hstream false 16 8 haltingHead hlast trivial
  have hanswer : lastAnswer false bareHead (bareResponse "OK") =
      .ok (bareResponse "OK", .untilClose) := by
    rw [Receiver.lastAnswer_of_long (by decide +kernel)]
    rfl
  exact ⟨m, m', hstalls, hanswer ▸ hpoll⟩

/-- The decoder waits for bytes behind a head that is complete, and at the end of
the stream the reader reports that it is not. -/
theorem shortest_withheld : ∃ line, scanHead shortestHead = .complete line [] [] ∧
    line.code = 200 ∧ shortestHead.length ≤ sizeLimit ∧
      (takeHead false none shortestHead).progress = .need ∧
      ((Receiver.ofRequest false 16 8).pollHead { arriving := [.bytes shortestHead] }).1 =
        .ready (.error (.cutShort
          "connection closed with 14 bytes of incomplete response head")) := by
  refine ⟨{ version := .http11, code := 200, reason := [] }, by decide +kernel, rfl,
    by decide +kernel, by decide +kernel, ?_⟩
  have hlast : EndsWith false shortestHead (bareResponse "") shortestHead :=
    .final isWhole_shortestHead (by decide +kernel)
  have hahead : Receiver.Ahead false shortestHead (bareResponse "") (.ofRequest false 16 8)
      { arriving := [.bytes shortestHead] } :=
    ⟨Receiver.beforeHead_ofRequest .., hlast, trivial⟩
  rw [hahead.answer_of_plain rfl]
  rfl

end Http1Client
