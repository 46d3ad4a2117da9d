/-
# What one question to a receiver comes to

A receiver that is asked for the head or for data has read some bytes, taken
some events and given something out when it answers, also when it answers that
it is not ready or that the transport failed. `HeadTurn` and `BodyTurn` list
what can have happened, and every question is one of these turns
(`Receiver.pollHead_turn`, `Receiver.pollBody_turn`). All later facts about a
receiver come from the two lists.

What a receiver has read and not given out is in its buffer. `Receiver.Moves`
says so for the body: the bytes in the buffer and those that were read hold the
data that was given out and, behind it, the bytes that are in the buffer now.

Key definitions: `Receiver.OpenAt`, `Receiver.Moves`, `Receiver.Finishes`,
`Receiver.BodyTurn`, `Receiver.HeadTurn`.
Key theorems: `Receiver.pollBody_turn`, `Receiver.pollHead_turn`.
-/
import Http1Client.Receiver
import Http1Client.Proofs.Arrival
import Http1Client.Proofs.Events

namespace Http1Client

open Arrival

/-! ### Taking data out of a buffer -/

namespace Incoming

variable {d : BodyDecoder} {b : Bytes}

/-- What it can come to that data is taken out of bytes. -/
inductive Drained (d : BodyDecoder) (b : Bytes) :
    Except DecodeError (Bytes × Bool) → Incoming → Bytes → Prop where
  | part {x rest : Bytes} {d' : BodyDecoder} {s' : Incoming} : d.Passes b x d' rest →
      s'.body = some d' → Drained d b (.ok (x, false)) s' rest
  | all {x rest : Bytes} {d' : BodyDecoder} {s' : Incoming} : d.Passes b x d' rest →
      d'.isFinished = true → Drained d b (.ok (x, true)) s' rest
  | fault {fault : BodyFault} {s' : Incoming} {rest : Bytes} :
      Drained d b (.error (.badBody fault)) s' rest

/-- What the next event of an open body can be. -/
inductive Given (d : BodyDecoder) (b : Bytes) : Progress Event → Incoming → Bytes → Prop where
  | need {rest : Bytes} {d' : BodyDecoder} {s' : Incoming} : d.Passes b [] d' rest →
      s'.body = some d' → Given d b .need s' rest
  | data {x rest : Bytes} {d' : BodyDecoder} {s' : Incoming} : d.Passes b x d' rest →
      s'.body = some d' → Given d b (.item (.piece (.data x))) s' rest
  | finish {rest : Bytes} {d' : BodyDecoder} {s' : Incoming} : d.Passes b [] d' rest →
      d'.isFinished = true → Given d b (.item (.piece .finish)) s' rest
  | fault {fault : BodyFault} {s' : Incoming} {rest : Bytes} :
      Given d b (.fail (.badBody fault)) s' rest

theorem given_next {s s' : Incoming} {rest : Bytes} {p : Progress Event} (hd : s.body = some d)
    (h : s.next b = (p, s', rest)) : Given d b p s' rest := by
  rw [next_of_body hd, Prod.mk.injEq, Prod.mk.injEq] at h
  obtain ⟨rfl, rfl, rfl⟩ := h
  rcases hdec : d.decode b with ⟨q, d', rest⟩
  cases q with
  | need => exact .need (BodyDecoder.decode_passes hdec (by simp)).1 rfl
  | item piece =>
    obtain ⟨hpass, hfin⟩ := BodyDecoder.decode_passes hdec (by simp)
    cases piece with
    | data x =>
      have hx : (Progress.item (Piece.data x)).given.flatten = x := by simp [Progress.given]
      rw [hx] at hpass
      exact .data hpass rfl
    | finish => exact .finish hpass (hfin rfl)
  | fail e =>
    obtain ⟨fault, rfl⟩ := BodyDecoder.fault_of_decode hdec
    exact .fault

theorem decode_of_next {s : Incoming} (hd : s.body = some d) (h : s.next b = (.need, s, b)) :
    d.decode b = (.need, d, b) := by
  rw [next_of_body hd, Prod.mk.injEq, Prod.mk.injEq] at h
  obtain ⟨hp, hs, hb⟩ := h
  rw [pieceEvent_eq_need] at hp
  rw [hp] at hs
  have hd' : some (d.decode b).2.1 = some d := (congrArg body hs).trans hd
  exact Prod.ext hp (Prod.ext (Option.some.inj hd') hb)

theorem Drained.behind {x rest rest' : Bytes} {d' : BodyDecoder} {data : Bytes} {last : Bool}
    {s' : Incoming} (h : d.Passes b x d' rest) (h' : Drained d' rest (.ok (data, last)) s' rest') :
    Drained d b (.ok (x ++ data, last)) s' rest' := by
  cases h' with
  | part hp hs => exact .part (h.trans hp) hs
  | all hp hf => exact .all (h.trans hp) hf

/-- What is taken out is the data that the bytes hold. -/
theorem drained {s s' : Incoming} {limit : Option Nat} {got : Nat} {rest : Bytes}
    {result : Except DecodeError (Bytes × Bool)} (hd : s.body = some d)
    (h : s.drain limit got b = (result, s', rest)) : Drained d b result s' rest := by
  fun_induction drain limit got s b generalizing d result s' rest with
  | case1 got s b hl x s₁ rest₁ hn data last s₂ rest₂ hrest ih =>
    cases h
    cases given_next hd hn with
    | data hpass hs => exact (ih hs hrest).behind hpass
  | case2 got s b hl x s₁ rest₁ hn e s₂ rest₂ hrest ih =>
    cases h
    cases given_next hd hn with
    | data hpass hs =>
      cases ih hs hrest
      exact .fault
  | case3 got s b hl s₁ rest₁ hn =>
    cases h
    cases given_next hd hn with
    | finish hpass hfin => exact .all hpass hfin
  | case4 got s b hl response framing s₁ rest₁ hn => cases given_next hd hn
  | case5 got s b hl e s₁ rest₁ hn =>
    cases h
    cases given_next hd hn
    exact .fault
  | case6 got s b hl s₁ rest₁ hn =>
    cases h
    cases given_next hd hn with
    | need hpass hs => exact .part hpass hs
  | case7 got s b hl =>
    cases h
    exact .part (.refl ..) hd

/-- Where nothing is taken out, more bytes are needed. -/
theorem next_of_drain_nil {s s' : Incoming} {n got : Nat} {rest : Bytes} (hn : got < n)
    (h : s.drain (some n) got b = (.ok ([], false), s', rest)) :
    s'.next rest = (.need, s', rest) := by
  fun_induction drain (some n) got s b generalizing s' rest with
  | case1 got s b hl x s₁ rest₁ hgiven data last s₂ rest₂ hrest ih =>
    simp only [Prod.mk.injEq, Except.ok.injEq, List.append_eq_nil_iff] at h
    obtain ⟨⟨⟨rfl, rfl⟩, rfl⟩, rfl, rfl⟩ := h
    exact ih hn hrest
  | case6 got s b hl s₁ rest₁ hneed =>
    cases h
    exact next_of_need hneed
  | case7 got s b hl =>
    rw [Option.all_some, decide_eq_true_eq] at hl
    exact absurd hn hl
  | _ => simp at h

/-- As long as there is too little, what comes next decides. -/
theorem drain_of_wanted {s : Incoming} {limit : Option Nat} {got : Nat}
    (hl : limit.all (got < ·) = true) : s.drain limit got b =
      match s.next b with
      | (.item (.piece (.data x)), s', rest) =>
        ((s'.drain limit (got + x.length) rest).1.map fun given => (x ++ given.1, given.2),
          (s'.drain limit (got + x.length) rest).2)
      | (.item (.piece .finish), s', rest) => (.ok ([], true), s', rest)
      | (.item (.head ..), s', rest) => (.error (.badBody .headInsideBody), s', rest)
      | (.fail e, s', rest) => (.error e, s', rest)
      | (.need, s', rest) => (.ok ([], false), s', rest) := by
  conv => lhs; rw [drain]
  rw [if_pos hl]
  split
  · next x s' rest h =>
    rw [h]
    dsimp only
    rcases s'.drain limit (got + x.length) rest with ⟨e | given, s'', rest'⟩ <;> rfl
  all_goals
    rename_i h
    rw [h]

end Incoming

namespace Receiver

/-! ### Turns inside the body -/

/-- The receiver is inside the body, and its decoder is in this state. -/
structure OpenAt (r : Receiver) (d : BodyDecoder) : Prop where
  body : r.incoming.body = some d
  unfinished : r.finished = false
  room : 0 < r.room

/-- The receiver has read bytes and given out this data, and is still inside
the body. -/
structure Moves (d : BodyDecoder) (r : Receiver) (w : Wire) (x : Bytes) (d' : BodyDecoder)
    (r' : Receiver) (w' : Wire) : Prop where
  passes : ∃ y, Gives w.arriving y w'.arriving ∧ d.Passes (r.buffer ++ y) x d' r'.buffer
  openAt : r'.OpenAt d'

/-- The receiver has read bytes and given out this data, the last of the body.
It has seen any byte behind the body that it has read. -/
structure Finishes (d : BodyDecoder) (r : Receiver) (w : Wire) (x : Bytes) (r' : Receiver)
    (w' : Wire) : Prop where
  passes : ∃ y d' dropped, Gives w.arriving y w'.arriving ∧
    d.Passes (r.buffer ++ y) x d' dropped ∧ d'.isFinished = true ∧
      (r'.discarded = false → dropped = [])
  finished : r'.finished = true

/-- What one question for data can come to. One that is not answered, or with
an error of the transport, uses an act up. -/
inductive BodyTurn (d : BodyDecoder) (r : Receiver) (w : Wire) :
    Poll (Except DecodeError Delivery) → Receiver → Wire → Prop where
  | waits {again : Bool} {d' : BodyDecoder} {r' : Receiver} {w' : Wire} :
      Moves d r w [] d' r' w' → actsIn w'.arriving < actsIn w.arriving →
      BodyTurn d r w (.wait again) r' w'
  | data {x : Bytes} {d' : BodyDecoder} {r' : Receiver} {w' : Wire} :
      Moves d r w x d' r' w' → BodyTurn d r w (.ready (.ok ⟨x, false⟩)) r' w'
  | last {x : Bytes} {r' : Receiver} {w' : Wire} :
      Finishes d r w x r' w' → BodyTurn d r w (.ready (.ok ⟨x, true⟩)) r' w'
  /-- The body ends because the stream has ended. -/
  | closed {ended : Bool} {r₁ r' : Receiver} {w₁ w' : Wire} :
      Moves d r w [] (.untilClose ended) r₁ w₁ → r₁.buffer = [] →
      MeetsEnd w₁.arriving w'.arriving → r'.finished = true →
      BodyTurn d r w (.ready (.ok .finished)) r' w'
  | broken {e : IoError} {d' : BodyDecoder} {r' : Receiver} {w' : Wire} :
      Moves d r w [] d' r' w' → actsIn w'.arriving < actsIn w.arriving →
      BodyTurn d r w (.ready (.error (.io e))) r' w'
  /-- The stream ends inside the body. -/
  | cut {e : IoError} {d' : BodyDecoder} {r' : Receiver} {w₁ w' : Wire} :
      Moves d r w [] d' r' w₁ → MeetsEnd w₁.arriving w'.arriving → e.kind = .unexpectedEof →
      BodyTurn d r w (.ready (.error (.io e))) r' w'
  | fault {fault : BodyFault} {y : Bytes} {r' : Receiver} {w' : Wire} :
      Gives w.arriving y w'.arriving → BodyTurn d r w (.ready (.error (.badBody fault))) r' w'

section Body

variable {d d' d'' : BodyDecoder} {r r' r'' : Receiver} {w w' w'' : Wire} {x z : Bytes}
  {result : Except DecodeError Delivery}

/-- A receiver that has read nothing is where it was. -/
theorem Moves.still (h : r.OpenAt d) (hg : Gives w.arriving [] w'.arriving) :
    Moves d r w [] d r w' :=
  ⟨⟨[], hg, by rw [List.append_nil]; exact .refl ..⟩, h⟩

theorem Moves.trans (h : Moves d r w x d' r' w') (h' : Moves d' r' w' z d'' r'' w'') :
    Moves d r w (x ++ z) d'' r'' w'' := by
  obtain ⟨y, hg, hp⟩ := h.passes
  obtain ⟨y', hg', hp'⟩ := h'.passes
  refine ⟨⟨y ++ y', hg.trans hg', ?_⟩, h'.openAt⟩
  rw [← List.append_assoc]
  exact (hp.append y').trans hp'

theorem Moves.finishes (h : Moves d r w [] d' r' w') (h' : Finishes d' r' w' z r'' w'') :
    Finishes d r w z r'' w'' := by
  obtain ⟨y, hg, hp⟩ := h.passes
  obtain ⟨y', d₂, dropped, hg', hp', hf, hd⟩ := h'.passes
  refine ⟨⟨y ++ y', d₂, dropped, hg.trans hg', ?_, hf, hd⟩, h'.finished⟩
  rw [← List.append_assoc]
  exact (hp.append y').trans hp'

/-- Of the bytes ahead, those in the buffer and those on the wire, the data
that was given out came first. -/
theorem Moves.dataIn (h : Moves d r w x d' r' w') :
    d.dataIn (r.buffer ++ w.unread) = x ++ d'.dataIn (r'.buffer ++ w'.unread) := by
  obtain ⟨y, hg, hp⟩ := h.passes
  rw [hg.unread, ← List.append_assoc]
  exact hp.dataIn _

/-- The body ends where it ended. -/
theorem Moves.ends {c e : Bytes} (h : Moves d r w x d' r' w')
    (he : d.EndsAt (r.buffer ++ (w.unread ++ c)) e) :
    d'.EndsAt (r'.buffer ++ (w'.unread ++ c)) e := by
  obtain ⟨y, hg, hp⟩ := h.passes
  rw [hg.unread, List.append_assoc, ← List.append_assoc] at he
  exact hp.ends _ e he

theorem Moves.acts (h : Moves d r w x d' r' w') : actsIn w'.arriving ≤ actsIn w.arriving := by
  obtain ⟨y, hg, -⟩ := h.passes
  exact hg.acts

theorem Moves.endsLast (h : Moves d r w x d' r' w') (he : w.EndsLast) : w'.EndsLast := by
  obtain ⟨y, hg, -⟩ := h.passes
  exact hg.endsLast he

theorem Finishes.dataIn (h : Finishes d r w x r' w') : d.dataIn (r.buffer ++ w.unread) = x := by
  obtain ⟨y, d', dropped, hg, hp, hf, -⟩ := h.passes
  rw [hg.unread, ← List.append_assoc, hp.dataIn,
    BodyDecoder.dataIn_of_isFinished hf, List.append_nil]

/-- Behind the body there are the bytes that were thrown away and those that
were not read. -/
theorem Finishes.ends {c e : Bytes} (h : Finishes d r w x r' w')
    (he : d.EndsAt (r.buffer ++ (w.unread ++ c)) e) : ∃ dropped,
      e = dropped ++ (w'.unread ++ c) ∧ (r'.discarded = false → dropped = []) := by
  obtain ⟨y, d', dropped, hg, hp, hf, hd⟩ := h.passes
  rw [hg.unread, List.append_assoc, ← List.append_assoc] at he
  exact ⟨dropped, ((hp.ends _ e he).eq_of_isFinished hf).symm, hd⟩

theorem Finishes.endsLast (h : Finishes d r w x r' w') (he : w.EndsLast) : w'.EndsLast := by
  obtain ⟨y, _, _, hg, -⟩ := h.passes
  exact hg.endsLast he

/-- A receiver that has read bytes has them in its buffer. -/
theorem Moves.receive (h : r.OpenAt d) (hg : Gives w.arriving x w'.arriving) :
    Moves d r w [] d (r.receive x) w' :=
  ⟨⟨x, hg, .refl ..⟩, ⟨h.body, h.unfinished, h.room⟩⟩

/-- A turn behind a move that gave nothing out is a turn. -/
theorem BodyTurn.behind {p : Poll (Except DecodeError Delivery)} (h : Moves d r w [] d' r' w')
    (h' : BodyTurn d' r' w' p r'' w'') : BodyTurn d r w p r'' w'' := by
  cases h' with
  | waits hm hlt => exact .waits (h.trans hm) (Nat.lt_of_lt_of_le hlt h.acts)
  | data hm => exact .data (h.trans hm)
  | last hf => exact .last (h.finishes hf)
  | closed hm hb he hf => exact .closed (h.trans hm) hb he hf
  | broken hm hlt => exact .broken (h.trans hm) (Nat.lt_of_lt_of_le hlt h.acts)
  | cut hm he hk => exact .cut (h.trans hm) he hk
  | fault hg =>
    obtain ⟨y, hg', -⟩ := h.passes
    exact .fault (hg'.trans hg)

/-! ### The questions -/

/-- To hand data over from the buffer is a turn that leaves the wire alone. -/
theorem drain_turn {limit : Option Nat} (h : r.OpenAt d)
    (hr : r.drain limit = (result, r')) (w : Wire) : BodyTurn d r w (.ready result) r' w := by
  rcases hdrain : r.incoming.drain limit 0 r.buffer with ⟨given, s, rest⟩
  have hd := Incoming.drained h.body hdrain
  rw [drain, hdrain] at hr
  cases hd with
  | part hpass hs =>
    cases hr
    exact .data ⟨⟨[], Gives.refl _, by rwa [List.append_nil]⟩, ⟨hs, h.unfinished, h.room⟩⟩
  | all hpass hf =>
    cases hr
    refine .last ⟨⟨[], _, rest, Gives.refl _, by rwa [List.append_nil], hf, fun hdis => ?_⟩, rfl⟩
    have : r.discarded = false ∧ rest = [] := by simpa [finish] using hdis
    exact this.2
  | fault =>
    cases hr
    exact .fault (Gives.refl _)

/-- Nothing is left to hand over from the buffer: more bytes are needed. -/
theorem next_of_drain {n : Nat} (hn : 0 < n) (h : r.drain (some n) = (.ok ⟨[], false⟩, r')) :
    r'.incoming.next r'.buffer = (.need, r'.incoming, r'.buffer) := by
  rcases hdrain : r.incoming.drain (some n) 0 r.buffer with ⟨given, s, rest⟩
  rw [drain, hdrain] at h
  cases given with
  | error e => simp at h
  | ok given =>
    obtain ⟨data, last⟩ := given
    cases last with
    | true => simp at h
    | false =>
      simp only [Prod.mk.injEq, Except.ok.injEq, Delivery.mk.injEq] at h
      obtain ⟨⟨rfl, -⟩, rfl⟩ := h
      exact Incoming.next_of_drain_nil hn hdrain

theorem moves_of_drain_nil {n : Nat} {given : Delivery} (h : r.OpenAt d) (hn : 0 < n)
    (hr : r.drain (some n) = (.ok given, r')) (hnil : ¬ (given.data ≠ [] ∨ given.last = true))
    (w : Wire) : ∃ d', Moves d r w [] d' r' w ∧
      r'.incoming.next r'.buffer = (.need, r'.incoming, r'.buffer) := by
  obtain ⟨data, last⟩ := given
  obtain ⟨rfl, rfl⟩ : data = [] ∧ last = false := by simpa using hnil
  cases drain_turn h hr w with
  | data hm => exact ⟨_, hm, next_of_drain hn hr⟩

theorem drainAtEnd_of_untilClose {ended : Bool} (h : r.OpenAt (.untilClose ended))
    (hb : r.buffer = []) (hr : r.drainAtEnd = (result, r')) :
    result = .ok .finished ∧ r'.finished = true := by
  rw [drainAtEnd, Incoming.nextEnd, h.body, hb] at hr
  cases hr
  exact ⟨rfl, rfl⟩

/-- A body that does not end with the connection is cut short, when the stream
ends and more bytes are needed. -/
theorem drainAtEnd_of_need (hb : r.incoming.body = some d) (hd : ∀ ended, d ≠ .untilClose ended)
    (hn : r.incoming.next r.buffer = (.need, r.incoming, r.buffer)) :
    ∃ words, r.drainAtEnd = (.error (.cutShort words), r) := by
  obtain ⟨words, hend⟩ := BodyDecoder.decodeEnd_of_need (Incoming.decode_of_next hb hn) hd
  have hsame : r.incoming.afterPiece d (.fail (.cutShort words)) = r.incoming := by
    show { r.incoming with body := some d } = r.incoming
    rw [← hb]
  refine ⟨words, ?_⟩
  rw [drainAtEnd, Incoming.nextEnd, hb]
  simp only [hend, Incoming.pieceEvent, hsame]

/-- At the end of the stream, when more bytes are needed, the body ends with
the connection or it is cut short. -/
theorem drainAtEnd_turn (h : r.OpenAt d)
    (hn : r.incoming.next r.buffer = (.need, r.incoming, r.buffer))
    (hr : r.drainAtEnd = (result, r')) (he : MeetsEnd w.arriving w'.arriving) :
    BodyTurn d r w (.ready result) r' w' := by
  by_cases hd : ∃ ended, d = .untilClose ended
  · obtain ⟨ended, rfl⟩ := hd
    have hneed := Incoming.decode_of_next h.body hn
    have hb : r.buffer = [] := by
      simp only [BodyDecoder.decode] at hneed
      split at hneed
      · simp at hneed
      · split at hneed
        · assumption
        · simp at hneed
    obtain ⟨rfl, hf⟩ := drainAtEnd_of_untilClose h hb hr
    exact .closed (.still h (Gives.refl _)) hb he hf
  · obtain ⟨words, hcut⟩ := drainAtEnd_of_need h.body (fun ended hd' => hd ⟨ended, hd'⟩) hn
    rw [hcut] at hr
    cases hr
    exact .cut (.still h (Gives.refl _)) he rfl

theorem room_pos {target : Nat} (h : r.OpenAt d) (hlt : r.buffer.length < target) :
    0 < min r.room (target - r.buffer.length) := by
  have := h.room
  omega

/-- To read until the buffer holds enough gives nothing out. -/
theorem fill_turn {target : Nat} {p : Poll (Except DecodeError Unit)} (h : r.OpenAt d)
    (hr : fill target r w = (p, r', w')) :
    (p = .ready (.ok ()) ∧ Moves d r w [] d r' w') ∨
    (∃ again, p = .wait again ∧ BodyTurn d r w (.wait again) r' w') ∨
    ∃ e, p = .ready (.error e) ∧ BodyTurn d r w (.ready (.error e)) r' w' := by
  fun_induction fill target r w with
  | case1 r w hlt again w₁ hread =>
    cases hr
    cases Wire.handed_read (room_pos h hlt) hread with
    | waits hg hlt' => exact .inr (.inl ⟨again, rfl, .waits (.still h hg) hlt'⟩)
  | case2 r w hlt e w₁ hread =>
    cases hr
    cases Wire.handed_read (room_pos h hlt) hread with
    | failed hg hlt' => exact .inr (.inr ⟨.io e, rfl, .broken (.still h hg) hlt'⟩)
  | case3 r w hlt w₁ hread =>
    cases hr
    cases Wire.handed_read (room_pos h hlt) hread with
    | ended hm => exact .inr (.inr ⟨_, rfl, .cut (.still h (Gives.refl _)) hm rfl⟩)
  | case4 r w hlt x xs w₁ hread ih =>
    cases Wire.handed_read (room_pos h hlt) hread with
    | bytes hg =>
      have hm := Moves.receive h hg
      rcases ih hm.openAt hr with ⟨hp, hm'⟩ | ⟨again, hp, ht⟩ | ⟨e, hp, ht⟩
      · exact .inl ⟨hp, hm.trans hm'⟩
      · exact .inr (.inl ⟨again, hp, ht.behind hm⟩)
      · exact .inr (.inr ⟨e, hp, ht.behind hm⟩)
  | case5 r w hge =>
    cases hr
    exact .inl ⟨rfl, .still h (Gives.refl _)⟩

theorem pollLength_turn {left size : Nat} {p : Poll (Except DecodeError Delivery)}
    (h : r.OpenAt d) (hr : pollLength left size r w = (p, r', w')) : BodyTurn d r w p r' w' := by
  rcases hfill : fill (r.fillTarget left size) r w with ⟨filled, r₁, w₁⟩
  rw [pollLength, hfill] at hr
  rcases fill_turn h hfill with ⟨rfl, hm⟩ | ⟨again, rfl, ht⟩ | ⟨e, rfl, ht⟩
  · cases hr
    exact (drain_turn hm.openAt rfl _).behind hm
  · cases hr
    exact ht
  · cases hr
    exact ht

theorem pollChunks_turn {size : Nat} {p : Poll (Except DecodeError Delivery)} (h : r.OpenAt d)
    (hr : pollChunks size r w = (p, r', w')) : BodyTurn d r w p r' w' := by
  have hsize : 0 < max size 1 := by omega
  fun_induction pollChunks size r w generalizing d with
  | case1 r w e r₁ hdrain =>
    cases hr
    exact drain_turn h hdrain _
  | case2 r w given r₁ hdrain hgiven =>
    cases hr
    exact drain_turn h hdrain _
  | case3 r w given r₁ hdrain hnil again w₁ hread =>
    cases hr
    obtain ⟨d', hm, -⟩ := moves_of_drain_nil h hsize hdrain hnil w
    cases Wire.handed_read hm.openAt.room hread with
    | waits hg hlt =>
      exact .waits (hm.trans (.still hm.openAt hg)) (Nat.lt_of_lt_of_le hlt hm.acts)
  | case4 r w given r₁ hdrain hnil e w₁ hread =>
    cases hr
    obtain ⟨d', hm, -⟩ := moves_of_drain_nil h hsize hdrain hnil w
    cases Wire.handed_read hm.openAt.room hread with
    | failed hg hlt =>
      exact .broken (hm.trans (.still hm.openAt hg)) (Nat.lt_of_lt_of_le hlt hm.acts)
  | case5 r w given r₁ hdrain hnil w₁ hread result r₂ hend =>
    cases hr
    obtain ⟨d', hm, hneed⟩ := moves_of_drain_nil h hsize hdrain hnil w
    cases Wire.handed_read hm.openAt.room hread with
    | ended he => exact (drainAtEnd_turn hm.openAt hneed hend he).behind hm
  | case6 r w given r₁ hdrain hnil x xs w₁ hread ih =>
    obtain ⟨d', hm, -⟩ := moves_of_drain_nil h hsize hdrain hnil w
    cases Wire.handed_read hm.openAt.room hread with
    | bytes hg =>
      have hm' := Moves.receive hm.openAt hg
      exact ((ih hm'.openAt hr).behind hm').behind hm

theorem pollUntilClose_turn {ended : Bool} {size : Nat} {p : Poll (Except DecodeError Delivery)}
    (h : r.OpenAt (.untilClose ended)) (hr : pollUntilClose size r w = (p, r', w')) :
    BodyTurn (.untilClose ended) r w p r' w' := by
  have hroom : 0 < min r.room (max size 1) := by
    have := h.room
    omega
  unfold pollUntilClose at hr
  split at hr
  · next hb =>
    split at hr
    · next hread =>
      cases hr
      cases Wire.handed_read hroom hread with
      | waits hg hlt => exact .waits (.still h hg) hlt
    · next hread =>
      cases hr
      cases Wire.handed_read hroom hread with
      | failed hg hlt => exact .broken (.still h hg) hlt
    · next hread =>
      cases hr
      cases Wire.handed_read hroom hread with
      | ended he =>
        obtain ⟨hres, hf⟩ := drainAtEnd_of_untilClose h hb rfl
        rw [hres]
        exact .closed (.still h (Gives.refl _)) hb he hf
    · next b w₁ hb' hread =>
      cases hr
      cases Wire.handed_read hroom hread with
      | bytes hg =>
        have hm := Moves.receive h hg
        exact (drain_turn hm.openAt rfl _).behind hm
      | ended => exact absurd rfl hb'
  · cases hr
    exact drain_turn h rfl w

/-- What a question for data comes to. -/
theorem pollBody_turn {size : Nat} {p : Poll (Except DecodeError Delivery)} (h : r.OpenAt d)
    (hr : r.pollBody size w = (p, r', w')) : BodyTurn d r w p r' w' := by
  rw [pollBody, if_neg (by simp [h.unfinished]), h.body] at hr
  cases d with
  | length left => exact pollLength_turn h hr
  | chunked c => exact pollChunks_turn h hr
  | untilClose ended => exact pollUntilClose_turn h hr
  | empty =>
    cases hr
    exact drain_turn h rfl w

end Body

/-! ### Turns before the body -/

/-- The receiver has not come to the head yet. -/
structure BeforeHead (r : Receiver) (toHead : Bool) : Prop where
  toHead : r.incoming.toHead = toHead
  body : r.incoming.body = none
  unfinished : r.finished = false
  room : 0 < r.room

theorem beforeHead_ofRequest (toHead : Bool) (room chunkLimit : Nat) :
    (ofRequest toHead room chunkLimit).BeforeHead toHead :=
  ⟨rfl, rfl, rfl, Nat.lt_of_lt_of_le Nat.one_pos (Nat.le_max_right ..)⟩

theorem BeforeHead.withBuffer {r : Receiver} {toHead : Bool} (h : r.BeforeHead toHead)
    (b : Bytes) : ({ r with buffer := b } : Receiver).BeforeHead toHead :=
  ⟨h.toHead, h.body, h.unfinished, h.room⟩

/-- What one question for the head can come to: bytes are read, and the search
for the final head goes on over them. One that is not answered, or with an
error of the transport, uses an act up. -/
inductive HeadTurn (r : Receiver) (w : Wire) :
    Poll (Except DecodeError (Response × Framing)) → Receiver → Wire → Prop where
  | waits {again : Bool} {y rest : Bytes} {w' : Wire} : Gives w.arriving y w'.arriving →
      r.incoming.nextHead (r.buffer ++ y) = (.need, r.incoming, rest) →
      actsIn w'.arriving < actsIn w.arriving →
      HeadTurn r w (.wait again) { r with buffer := rest } w'
  | found {response : Response} {framing : Framing} {s : Incoming} {y rest : Bytes} {w' : Wire} :
      Gives w.arriving y w'.arriving →
      r.incoming.nextHead (r.buffer ++ y) = (.item (.head response framing), s, rest) →
      HeadTurn r w (.ready (.ok (response, framing))) { r with incoming := s, buffer := rest } w'
  | broken {e : IoError} {y rest : Bytes} {w' : Wire} : Gives w.arriving y w'.arriving →
      r.incoming.nextHead (r.buffer ++ y) = (.need, r.incoming, rest) →
      actsIn w'.arriving < actsIn w.arriving →
      HeadTurn r w (.ready (.error (.io e))) { r with buffer := rest } w'
  /-- The stream ends before the body. -/
  | cut {e : IoError} {y rest : Bytes} {w₁ w' : Wire} : Gives w.arriving y w₁.arriving →
      MeetsEnd w₁.arriving w'.arriving →
      r.incoming.nextHead (r.buffer ++ y) = (.need, r.incoming, rest) → e.kind = .unexpectedEof →
      HeadTurn r w (.ready (.error (.io e))) { r with buffer := rest } w'
  | fault {e : DecodeError} {y : Bytes} {r' : Receiver} {w' : Wire} :
      Gives w.arriving y w'.arriving → e.isIo = false → HeadTurn r w (.ready (.error e)) r' w'

section Heads

variable {toHead : Bool} {r : Receiver} {w w' : Wire} {s : Incoming} {y rest c tail : Bytes}
  {response response' : Response} {framing framing' : Framing}

theorem heads_of_gives (hg : Gives w.arriving y w'.arriving)
    (h : Heads toHead (r.buffer ++ (w.unread ++ c)) response framing tail) :
    Heads toHead (r.buffer ++ y ++ (w'.unread ++ c)) response framing tail := by
  rw [hg.unread] at h
  simpa only [List.append_assoc] using h

/-- The heads that were passed over are interim heads of the stream. -/
theorem BeforeHead.heads_of_need (hr : r.BeforeHead toHead) (hg : Gives w.arriving y w'.arriving)
    (hn : r.incoming.nextHead (r.buffer ++ y) = (.need, r.incoming, rest))
    (h : Heads toHead (r.buffer ++ (w.unread ++ c)) response framing tail) :
    Heads toHead (rest ++ (w'.unread ++ c)) response framing tail := by
  obtain ⟨rfl, -⟩ := hr
  exact Incoming.heads_of_need hn (heads_of_gives hg h)

/-- The head that was found is the final head of the stream, and the receiver
is at the front of the body. -/
theorem BeforeHead.heads_of_found (hr : r.BeforeHead toHead) (hg : Gives w.arriving y w'.arriving)
    (hn : r.incoming.nextHead (r.buffer ++ y) = (.item (.head response' framing'), s, rest))
    (h : Heads toHead (r.buffer ++ (w.unread ++ c)) response framing tail) :
    response' = response ∧ framing' = framing ∧ tail = rest ++ (w'.unread ++ c) ∧
      ({ r with incoming := s, buffer := rest } : Receiver).OpenAt
        (.ofFraming r.incoming.chunkLimit framing) := by
  obtain ⟨rfl, hb, hfin, hroom⟩ := hr
  obtain ⟨hevent, htail, rfl⟩ := Incoming.heads_of_item hn (heads_of_gives hg h)
  cases hevent
  exact ⟨rfl, rfl, htail, ⟨rfl, hfin, hroom⟩⟩

end Heads

/-- A turn behind interim heads that were passed over and bytes that were read. -/
theorem HeadTurn.behind {r r' : Receiver} {w w₁ w' : Wire} {x rest : Bytes}
    {p : Poll (Except DecodeError (Response × Framing))} (hg : Gives w.arriving x w₁.arriving)
    (hn : r.incoming.nextHead r.buffer = (.need, r.incoming, rest))
    (h : HeadTurn { r with buffer := rest ++ x } w₁ p r' w') : HeadTurn r w p r' w' := by
  have hsame : ∀ y, r.incoming.nextHead (r.buffer ++ (x ++ y)) =
      r.incoming.nextHead (rest ++ x ++ y) := by
    intro y
    rw [List.append_assoc]
    exact (Incoming.nextHead_append_of_need hn (x ++ y)).2.1
  cases h with
  | waits hg' hn' hlt =>
    exact .waits (hg.trans hg') ((hsame _).trans hn') (Nat.lt_of_lt_of_le hlt hg.acts)
  | found hg' hn' => exact .found (hg.trans hg') ((hsame _).trans hn')
  | broken hg' hn' hlt =>
    exact .broken (hg.trans hg') ((hsame _).trans hn') (Nat.lt_of_lt_of_le hlt hg.acts)
  | cut hg' he hn' hk => exact .cut (hg.trans hg') he ((hsame _).trans hn') hk
  | fault hg' he => exact .fault (hg.trans hg') he

theorem headAtEnd_of_need {r : Receiver} (hb : r.incoming.body = none)
    (hn : r.incoming.nextHead r.buffer = (.need, r.incoming, r.buffer)) :
    ∃ words, r.headAtEnd = (.error (.cutShort words), r) := by
  rw [headAtEnd, Incoming.nextEnd, hb]
  simp only [hn]
  exact ⟨_, rfl⟩

theorem need_of_next {s s' : Incoming} {b rest : Bytes} (hb : s.body = none)
    (h : s.next b = (.need, s', rest)) : s' = s ∧ s.nextHead (b ++ []) = (.need, s, rest) ∧
      s.nextHead rest = (.need, s, rest) := by
  rw [Incoming.next_of_no_body hb] at h
  obtain ⟨rfl, -, hrest⟩ := Incoming.nextHead_append_of_need h []
  exact ⟨rfl, by rwa [List.append_nil], hrest⟩

/-- What a question for the head comes to. -/
theorem pollHead_turn {r r' : Receiver} {w w' : Wire}
    {p : Poll (Except DecodeError (Response × Framing))} {toHead : Bool} (h : r.BeforeHead toHead)
    (hr : r.pollHead w = (p, r', w')) : HeadTurn r w p r' w' := by
  obtain ⟨-, hb, -, hroom⟩ := h
  fun_induction pollHead r w with
  | case1 r w response framing s rest hn =>
    cases hr
    rw [Incoming.next_of_no_body hb] at hn
    exact .found (Gives.refl _) (by rwa [List.append_nil])
  | case2 r w piece s rest hn =>
    rw [Incoming.next_of_no_body hb] at hn
    exact absurd (congrArg Prod.fst hn) (Incoming.nextHead_ne_piece _ _ _)
  | case3 r w e s rest hn =>
    cases hr
    rw [Incoming.next_of_no_body hb] at hn
    have he := Incoming.isOfHead_of_nextHead_fail hn
    exact .fault (Gives.refl _) (DecodeError.isIo_of_isOfHead he)
  | case4 r w s rest hn again w₁ hread =>
    cases hr
    obtain ⟨rfl, hn', -⟩ := need_of_next hb hn
    cases Wire.handed_read hroom hread with
    | waits hg hlt => exact .waits hg hn' hlt
  | case5 r w s rest hn e w₁ hread =>
    cases hr
    obtain ⟨rfl, hn', -⟩ := need_of_next hb hn
    cases Wire.handed_read hroom hread with
    | failed hg hlt => exact .broken hg hn' hlt
  | case6 r w s rest hn w₁ hread result r₁ hend =>
    cases hr
    obtain ⟨rfl, hn', hrest⟩ := need_of_next hb hn
    obtain ⟨words, hcut⟩ := headAtEnd_of_need (r := { r with buffer := rest }) hb hrest
    rw [hcut] at hend
    cases hend
    cases Wire.handed_read hroom hread with
    | ended he => exact .cut (Gives.refl _) he hn' rfl
  | case7 r w s rest hn x xs w₁ hread ih =>
    obtain ⟨rfl, hn', -⟩ := need_of_next hb hn
    rw [List.append_nil] at hn'
    cases Wire.handed_read hroom hread with
    | bytes hg => exact (ih hr hb hroom).behind hg hn'

end Receiver
end Http1Client
