/-
# What a fault in a chunked body costs

A receiver that is asked for data of a chunked body with a fault in it hands over
whole chunks, in order, and in the end reports the fault that stands behind them,
however the bytes arrive and whatever sizes are asked for. The chunks that it has
gathered in the question that meets the fault are gone with it: they are not
handed over, and their data is less than what was asked for. So nothing is lost
to one who asks for a byte at a time, and another may lose every chunk
(`Reading.fault_run`).

`Receiver.Faces` tells what is ahead of a receiver: chunks, and then the fault.
One question for data takes the front of it (`Receiver.chunkTurn`).

Key definitions: `Receiver.Faces`, `Receiver.ChunkTurn`, `Reading.Facing`,
`Reading.FaultTurn`.
Key theorems: `Incoming.drain_meets`, `Receiver.chunkTurn`, `Reading.faultTurn`,
`Reading.fault_run`.
-/
import Http1Client.Proofs.Body.Breaking
import Http1Client.Proofs.Buffering
import Http1Client.Proofs.Delivery
import Http1Client.Proofs.Head.Salvaging

namespace Http1Client

open Arrival Chunked

/-! ### Out of the buffer -/

namespace Incoming

variable {s s' : Incoming} {b rest u : Bytes} {c : ChunkedDecoder} {ds : List Bytes}
  {fault : BodyFault}

theorem next_chunked {p : Progress Event} (hs : s.body = some (.chunked c))
    (h : s.next b = (p, s', rest)) : ∃ q c', c.decode b = (q, c', rest) ∧ p = pieceEvent q ∧
      s' = s.afterPiece (.chunked c') q := by
  rcases hdecode : c.decode b with ⟨q, c', rest'⟩
  rw [next, hs] at h
  simp only [BodyDecoder.decode, hdecode] at h
  cases h
  exact ⟨q, c', rfl, rfl, rfl⟩

/-- What the next event is with a fault ahead. -/
inductive MeetsNext (u : Bytes) (ds : List Bytes) (fault : BodyFault) (s' : Incoming)
    (rest : Bytes) : Progress Event → Prop where
  | need {c : ChunkedDecoder} : s'.body = some (.chunked c) → c.Meets (rest ++ u) ds fault →
      MeetsNext u ds fault s' rest .need
  | chunk {c : ChunkedDecoder} {x : Bytes} {ds' : List Bytes} : ds = x :: ds' →
      s'.body = some (.chunked c) → c.Meets (rest ++ u) ds' fault →
      MeetsNext u ds fault s' rest (.item (.piece (.data x)))
  | fault : ds = [] → MeetsNext u ds fault s' rest (.fail (.badBody fault))

theorem next_meets {p : Progress Event} (hs : s.body = some (.chunked c))
    (hmeets : c.Meets (b ++ u) ds fault) (h : s.next b = (p, s', rest)) :
    MeetsNext u ds fault s' rest p := by
  obtain ⟨q, c', hdecode, rfl, rfl⟩ := next_chunked hs h
  cases hmeets.turn hdecode with
  | need hrest => exact .need rfl hrest
  | chunk hds hrest => exact .chunk hds rfl hrest
  | fault hds => exact .fault hds

/-- Chunks are taken out whole, up to the number of bytes asked for. If the
fault is met, it is all that is given out, and what was gathered on the way is
less than that number. -/
theorem drain_meets {n got : Nat} {result : Except DecodeError (Bytes × Bool)}
    (hs : s.body = some (.chunked c)) (hmeets : c.Meets (b ++ u) ds fault)
    (h : s.drain (some n) got b = (result, s', rest)) :
    (∃ xs ds' c', result = .ok (xs.flatten, false) ∧ ds = xs ++ ds' ∧
      s'.body = some (.chunked c') ∧ c'.Meets (rest ++ u) ds' fault) ∨
    (result = .error (.badBody fault) ∧ got + ds.flatten.length < n) := by
  fun_induction drain (some n) got s b generalizing c ds result s' rest with
  | case1 got s b hlt x s₁ rest₁ hn data last s₂ rest₂ hrest ih =>
    cases h
    cases next_meets hs hmeets hn with
    | chunk hds hs₁ hmeets₁ =>
      subst hds
      rcases ih hs₁ hmeets₁ hrest with ⟨xs, ds', c', hres, rfl, hbody, hmeets'⟩ | ⟨hres, -⟩
      · cases hres
        exact .inl ⟨x :: xs, ds', c', rfl, rfl, hbody, hmeets'⟩
      · cases hres
  | case2 got s b hlt x s₁ rest₁ hn e s₂ rest₂ hrest ih =>
    cases h
    cases next_meets hs hmeets hn with
    | chunk hds hs₁ hmeets₁ =>
      subst hds
      -- The chunk was gathered, and the fault behind it is all that comes of it.
      rcases ih hs₁ hmeets₁ hrest with ⟨_, _, _, hres, -⟩ | ⟨hres, hless⟩
      · cases hres
      · cases hres
        rw [List.flatten_cons, List.length_append, ← Nat.add_assoc]
        exact .inr ⟨rfl, hless⟩
  | case3 got s b hlt s₁ rest₁ hn => cases next_meets hs hmeets hn
  | case4 got s b hlt response framing s₁ rest₁ hn => cases next_meets hs hmeets hn
  | case5 got s b hlt e s₁ rest₁ hn =>
    cases h
    cases next_meets hs hmeets hn with
    | fault hds =>
      subst hds
      exact .inr ⟨rfl, by simpa using hlt⟩
  | case6 got s b hlt s₁ rest₁ hn =>
    cases h
    cases next_meets hs hmeets hn with
    | need hs₁ hmeets₁ => exact .inl ⟨[], ds, _, rfl, rfl, hs₁, hmeets₁⟩
  | case7 got s b hge =>
    cases h
    exact .inl ⟨[], ds, c, rfl, rfl, hs, hmeets⟩

end Incoming

/-! ### What a question comes to -/

/-- A wire that has lost nothing but time, if no byte stands behind its end. -/
structure Wire.Spends (w w' : Wire) : Prop where
  endsLast : w.EndsLast → w'.EndsLast
  acts : w.EndsLast → actsIn w'.arriving < actsIn w.arriving

namespace Receiver

variable {r r' : Receiver} {w w' w₁ : Wire} {u x : Bytes} {ds : List Bytes} {fault : BodyFault}
  {result : Except DecodeError Delivery} {size : Nat}

/-- The receiver is inside a chunked body. Ahead of it, with the bytes `u` that
are still to come, are chunks with this data and behind them this fault. -/
structure Faces (r : Receiver) (u : Bytes) (ds : List Bytes) (fault : BodyFault) : Prop where
  ahead : ∃ c, r.OpenAt (.chunked c) ∧ c.Meets (r.buffer ++ u) ds fault
  nonempty : [] ∉ ds

/-- Bytes that were read are in the buffer. -/
theorem Faces.receive (h : r.Faces (x ++ u) ds fault) : (r.receive x).Faces u ds fault := by
  obtain ⟨⟨c, hopen, hmeets⟩, hds⟩ := h
  rw [← List.append_assoc] at hmeets
  exact ⟨⟨c, ⟨hopen.body, hopen.unfinished, hopen.room⟩, hmeets⟩, hds⟩

theorem Faces.room (h : r.Faces u ds fault) : 0 < r.room := by
  obtain ⟨c, hopen, -⟩ := h.ahead
  exact hopen.room

/-- What can come of a question for data with a fault ahead. Chunks are handed
over, or what was gathered is lost to the fault. A question that is not answered,
or with an error of the transport, changes nothing and uses an act up. -/
inductive ChunkTurn (size : Nat) (ds : List Bytes) (fault : BodyFault) (w : Wire) :
    Poll (Except DecodeError Delivery) → Receiver → Wire → Prop where
  | waits {again : Bool} {r' : Receiver} {w' : Wire} : r'.Faces w'.unread ds fault →
      w.Spends w' → ChunkTurn size ds fault w (.wait again) r' w'
  | fails {e : IoError} {r' : Receiver} {w' : Wire} : r'.Faces w'.unread ds fault →
      w.Spends w' → ChunkTurn size ds fault w (.ready (.error (.io e))) r' w'
  | gives {xs ds' : List Bytes} {r' : Receiver} {w' : Wire} : ds = xs ++ ds' → xs ≠ [] →
      r'.Faces w'.unread ds' fault → (w.EndsLast → w'.EndsLast) →
      actsIn w'.arriving ≤ actsIn w.arriving →
      ChunkTurn size ds fault w (.ready (.ok ⟨xs.flatten, false⟩)) r' w'
  | fault {r' : Receiver} {w' : Wire} : ds.flatten.length < max size 1 →
      ChunkTurn size ds fault w (.ready (.error (.badBody fault))) r' w'

/-- A turn behind bytes that were read. -/
theorem ChunkTurn.behind {p : Poll (Except DecodeError Delivery)}
    (hg : Gives w.arriving x w₁.arriving) (h : ChunkTurn size ds fault w₁ p r' w') :
    ChunkTurn size ds fault w p r' w' := by
  have hspends : w₁.Spends w' → w.Spends w' := fun hs =>
    ⟨fun he => hs.endsLast (hg.endsLast he),
      fun he => Nat.lt_of_lt_of_le (hs.acts (hg.endsLast he)) hg.acts⟩
  cases h with
  | waits hfaces hs => exact .waits hfaces (hspends hs)
  | fails hfaces hs => exact .fails hfaces (hspends hs)
  | gives hds hxs hfaces he hacts =>
    exact .gives hds hxs hfaces (fun h => he (hg.endsLast h)) (Nat.le_trans hacts hg.acts)
  | fault hless => exact .fault hless

theorem drain_faces {n : Nat} (h : r.Faces u ds fault) (hr : r.drain (some n) = (result, r')) :
    (∃ xs ds', result = .ok ⟨xs.flatten, false⟩ ∧ ds = xs ++ ds' ∧ r'.Faces u ds' fault) ∨
    (result = .error (.badBody fault) ∧ ds.flatten.length < n) := by
  obtain ⟨⟨c, hopen, hmeets⟩, hds⟩ := h
  rcases hdrain : r.incoming.drain (some n) 0 r.buffer with ⟨given, s, rest⟩
  rw [drain, hdrain] at hr
  rcases Incoming.drain_meets hopen.body hmeets hdrain with
    ⟨xs, ds', c', rfl, rfl, hbody, hmeets'⟩ | ⟨rfl, hless⟩
  · cases hr
    have hds' : [] ∉ ds' := fun hmem => hds (List.mem_append_right _ hmem)
    exact .inl ⟨xs, ds', rfl, rfl, ⟨c', ⟨hbody, hopen.unfinished, hopen.room⟩, hmeets'⟩, hds'⟩
  · cases hr
    rw [Nat.zero_add] at hless
    exact .inr ⟨rfl, hless⟩

/-- Where nothing is handed over, nothing was taken out. -/
theorem faces_of_drain_nil {n : Nat} {given : Delivery} (h : r.Faces u ds fault)
    (hr : r.drain (some n) = (.ok given, r')) (hnil : ¬ (given.data ≠ [] ∨ given.last = true)) :
    r'.Faces u ds fault := by
  rcases drain_faces h hr with ⟨xs, ds', hres, rfl, hfaces⟩ | ⟨hres, -⟩
  · cases hres
    have hflat : xs.flatten = [] := by simpa using hnil
    obtain rfl : xs = [] := by
      refine List.eq_nil_iff_forall_not_mem.mpr fun y hy => h.nonempty ?_
      rw [← List.flatten_eq_nil_iff.mp hflat y hy]
      exact List.mem_append_left _ hy
    exact hfaces
  · cases hres

/-- With a fault ahead the stream does not end, unless bytes stand behind its
end. -/
theorem Faces.unread_ne_nil (h : r.Faces u ds fault)
    (hn : r.incoming.next r.buffer = (.need, r.incoming, r.buffer)) : u ≠ [] := by
  rintro rfl
  obtain ⟨⟨c, hopen, hmeets⟩, -⟩ := h
  rw [List.append_nil] at hmeets
  obtain ⟨q, c', hdecode, hq, -⟩ := Incoming.next_chunked hopen.body hn
  obtain rfl := Incoming.pieceEvent_eq_need.mp hq.symm
  exact hmeets.not_need hdecode

theorem chunkTurn_pollChunks {p : Poll (Except DecodeError Delivery)}
    (h : r.Faces w.unread ds fault) (hr : pollChunks size r w = (p, r', w')) :
    ChunkTurn size ds fault w p r' w' := by
  have hsize : 0 < max size 1 := by omega
  fun_induction pollChunks size r w with
  | case1 r w e r₁ hdrain =>
    cases hr
    rcases drain_faces h hdrain with ⟨_, _, hres, -⟩ | ⟨hres, hless⟩
    · cases hres
    · cases hres
      exact .fault hless
  | case2 r w given r₁ hdrain hgiven =>
    cases hr
    rcases drain_faces h hdrain with ⟨xs, ds', hres, hds, hfaces⟩ | ⟨hres, -⟩
    · cases hres
      have hxs : xs ≠ [] := by
        rintro rfl
        simp at hgiven
      exact .gives hds hxs hfaces id (Nat.le_refl _)
    · cases hres
  | case3 r w given r₁ hdrain hnil again w₁ hread =>
    cases hr
    have hfaces := faces_of_drain_nil h hdrain hnil
    cases Wire.handed_read hfaces.room hread with
    | waits hg hlt =>
      rw [hg.unread, List.nil_append] at hfaces
      exact .waits hfaces ⟨hg.endsLast, fun _ => hlt⟩
  | case4 r w given r₁ hdrain hnil e w₁ hread =>
    cases hr
    have hfaces := faces_of_drain_nil h hdrain hnil
    cases Wire.handed_read hfaces.room hread with
    | failed hg hlt =>
      rw [hg.unread, List.nil_append] at hfaces
      exact .fails hfaces ⟨hg.endsLast, fun _ => hlt⟩
  | case5 r w given r₁ hdrain hnil w₁ hread result r₂ hend =>
    cases hr
    have hfaces := faces_of_drain_nil h hdrain hnil
    obtain ⟨data, last⟩ := given
    obtain ⟨rfl, rfl⟩ : data = [] ∧ last = false := by simpa using hnil
    have hneed := next_of_drain hsize hdrain
    have hbytes := hfaces.unread_ne_nil hneed
    obtain ⟨c, hopen, -⟩ := hfaces.ahead
    obtain ⟨words, hcut⟩ := drainAtEnd_of_need hopen.body (fun _ h => by cases h) hneed
    cases Wire.handed_read hfaces.room hread with
    -- The wire says that the stream ends, but bytes are to come behind its end.
    | ended hm =>
      rw [hcut] at hend
      cases hend
      rw [← hm.unread] at hfaces
      exact .fails hfaces ⟨fun he => (hm.endsLast he).2, fun he => absurd (hm.endsLast he).1 hbytes⟩
  | case6 r w given r₁ hdrain hnil x xs w₁ hread ih =>
    have hfaces := faces_of_drain_nil h hdrain hnil
    cases Wire.handed_read hfaces.room hread with
    | bytes hg =>
      rw [hg.unread] at hfaces
      exact (ih hfaces.receive hr).behind hg

/-- What a question for data comes to with a fault ahead. -/
theorem chunkTurn {p : Poll (Except DecodeError Delivery)} (h : r.Faces w.unread ds fault)
    (hr : r.pollBody size w = (p, r', w')) : ChunkTurn size ds fault w p r' w' := by
  obtain ⟨c, hopen, -⟩ := h.ahead
  rw [pollBody_chunked hopen.unfinished hopen.body] at hr
  exact chunkTurn_pollChunks h hr

end Receiver

/-! ### Before the body -/

/-- Where a final head is ahead, the search for it finds no fault. -/
theorem Incoming.nextHead_ne_fail {s : Incoming} {b tail : Bytes} {response : Response}
    {framing : Framing} {e : DecodeError} (h : Heads s.toHead b response framing tail) :
    (s.nextHead b).1 ≠ .fail e := by
  have htake : ∀ {p : Bytes} {r : Response} {f : Framing}, IsHead s.toHead p r f → ∀ c,
      takeHead s.toHead s.salvaged (p ++ c) = ⟨.need, s.salvaged, p ++ c⟩ ∨
        takeHead s.toHead s.salvaged (p ++ c) = ⟨.item (r, f), s.salvaged, c⟩ := by
    intro p r f hp c
    rcases Nat.lt_or_ge (p ++ c).length Head.leastSize with hshort | hlong
    · exact .inl (by rw [takeHead, if_pos (Bytes.isShorter_iff.mpr hshort)])
    · exact .inr (takeHead_eq_item_iff.mpr ⟨hlong, rfl, p, rfl, hp⟩)
  induction h with
  | @final p tail _ _ hp hi =>
    rcases htake hp tail with hneed | hitem
    · simp [nextHead_of_need hneed]
    · simp [nextHead_of_item hitem, hi]
  | @interim p b _ _ _ _ _ hp hi _ ih =>
    rcases htake hp b with hneed | hitem
    · simp [nextHead_of_need hneed]
    · rwa [nextHead_of_item hitem, if_pos hi]

/-- So no question for the head finds one. -/
theorem Receiver.isIo_of_pollHead {r r' : Receiver} {w w' : Wire} {toHead : Bool} {tail : Bytes}
    {response : Response} {framing : Framing} {e : DecodeError} (hr : r.BeforeHead toHead)
    (hheads : Heads toHead (r.buffer ++ w.unread) response framing tail)
    (h : r.pollHead w = (.ready (.error e), r', w')) : e.isIo = true := by
  by_contra he
  rw [Bool.not_eq_true] at he
  obtain ⟨y, hg, hfail⟩ := fault_of_pollHead hr h he
  obtain ⟨e', s, rest, hfail', -⟩ := Incoming.nextHead_append_of_fail hfail w'.unread
  obtain ⟨rfl, -⟩ := hr
  rw [hg.unread, ← List.append_assoc] at hheads
  exact Incoming.nextHead_ne_fail hheads (congrArg Prod.fst hfail')

namespace Reading

variable {toHead : Bool} {limit size : Nat} {fault : BodyFault} {given left : List Bytes}
  {s : Reading}

/-- The chunks with the data `given` were handed over. Ahead are chunks with the
data `left`, and behind them the fault. -/
inductive Facing (toHead : Bool) (limit : Nat) (fault : BodyFault) (given left : List Bytes)
    (s : Reading) : Prop where
  | before {response : Response} {tail : Bytes} : s.head = none →
      s.receiver.BeforeHead toHead → s.receiver.incoming.chunkLimit = limit → given = [] →
      s.data = [] → s.last = false → Heads toHead s.ahead response .chunked tail →
      Breaks limit left fault tail → Facing toHead limit fault given left s
  | inside {head : Response × Framing} : s.head = some head →
      s.receiver.Faces s.wire.unread left fault → s.data = given.flatten → s.last = false →
      Facing toHead limit fault given left s

theorem Facing.handedOver (h : Facing toHead limit fault given left s) :
    s.data = given.flatten ∧ s.last = false := by
  cases h with
  | before _ _ _ hgiven hdata hlast =>
    subst hgiven
    exact ⟨hdata, hlast⟩
  | inside _ _ hdata hlast => exact ⟨hdata, hlast⟩

/-- How many questions for data there may be before the one that meets the fault:
one for each chunk and one for each act. -/
def questionsLeft (left : List Bytes) (s : Reading) : Nat := left.length + actsIn s.wire.arriving

/-- What one question comes to. It goes on, with chunks handed over or not and
maybe an error of the transport, or it meets the fault, and then hands nothing
over. -/
inductive FaultTurn (toHead : Bool) (limit : Nat) (fault : BodyFault) (size : Nat)
    (given left : List Bytes) (s : Reading) : Reading → Prop where
  | goes {xs left' : List Bytes} {s' : Reading} : left = xs ++ left' →
      Facing toHead limit fault (given ++ xs) left' s' →
      (s'.errors = s.errors ∨ ∃ e, s'.errors = .io e :: s.errors) →
      (s.wire.EndsLast → s'.wire.EndsLast) →
      (s.head ≠ none →
        s'.head ≠ none ∧ (s.wire.EndsLast → questionsLeft left' s' < questionsLeft left s)) →
      FaultTurn toHead limit fault size given left s s'
  | fault {s' : Reading} : s'.errors = .badBody fault :: s.errors → s'.data = s.data →
      left.flatten.length < max size 1 → FaultTurn toHead limit fault size given left s s'

/-- A question that hands nothing over goes on. -/
theorem FaultTurn.stays {s' : Reading} (h : Facing toHead limit fault given left s')
    (herrors : s'.errors = s.errors ∨ ∃ e, s'.errors = .io e :: s.errors)
    (hends : s.wire.EndsLast → s'.wire.EndsLast)
    (hspends : s.head ≠ none →
      s'.head ≠ none ∧ (s.wire.EndsLast → questionsLeft left s' < questionsLeft left s)) :
    FaultTurn toHead limit fault size given left s s' := by
  rw [← List.append_nil given] at h
  exact .goes (List.nil_append left).symm h herrors hends hspends

/-- One question for the head. -/
theorem faultTurn_head {response : Response} {tail : Bytes} (size : Nat) (hnone : s.head = none)
    (hr : s.receiver.BeforeHead toHead) (hlimit : s.receiver.incoming.chunkLimit = limit)
    (hdata : s.data = []) (hlast : s.last = false)
    (hheads : Heads toHead s.ahead response .chunked tail)
    (hbreaks : Breaks limit left fault tail) :
    FaultTurn toHead limit fault size [] left s (s.ask size) := by
  rcases hpoll : s.receiver.pollHead s.wire with ⟨p, r, w⟩
  have hcontinued := hheads
  rw [← List.append_nil s.ahead, ahead, List.append_assoc] at hcontinued
  have hgoes : ∀ {rest : Bytes} {w' : Wire} {errors : List DecodeError},
      Heads toHead (rest ++ (w'.unread ++ [])) response .chunked tail →
      (errors = s.errors ∨ ∃ e, errors = .io e :: s.errors) →
      (s.wire.EndsLast → w'.EndsLast) → FaultTurn toHead limit fault size [] left s { s with
        receiver := { s.receiver with buffer := rest }, wire := w', errors } := by
    intro rest w' errors hrest herrors hends
    rw [List.append_nil] at hrest
    exact .stays (.before hnone (hr.withBuffer _) hlimit rfl hdata hlast hrest hbreaks) herrors
      hends fun h => absurd hnone h
  simp only [ask, hnone, hpoll]
  cases Receiver.pollHead_turn hr hpoll with
  | waits hg hn _ =>
    exact hnone ▸ hgoes (hr.heads_of_need hg hn hcontinued) (.inl rfl) hg.endsLast
  | broken hg hn _ =>
    exact hnone ▸ hgoes (hr.heads_of_need hg hn hcontinued) (.inr ⟨_, rfl⟩) hg.endsLast
  | cut hg hend hn _ =>
    have hrest := hr.heads_of_need hg hn hcontinued
    rw [← hend.unread] at hrest
    exact hnone ▸ hgoes hrest (.inr ⟨_, rfl⟩) fun he => (hend.endsLast (hg.endsLast he)).2
  | found hg hn =>
    obtain ⟨rfl, rfl, htail, hopen⟩ := hr.heads_of_found hg hn hcontinued
    rw [List.append_nil] at htail
    rw [htail, ← hlimit] at hbreaks
    have hmeets := ChunkedDecoder.meets_iff.mpr hbreaks
    exact .stays (.inside rfl ⟨⟨_, hopen, hmeets⟩, hbreaks.nil_notMem⟩ hdata hlast) (.inl rfl)
      hg.endsLast fun h => absurd hnone h
  | fault _ hne =>
    have := Receiver.isIo_of_pollHead hr hheads hpoll
    rw [hne] at this
    cases this

/-- One question for data. -/
theorem faultTurn_body {head : Response × Framing} (size : Nat) (hhead : s.head = some head)
    (hfaces : s.receiver.Faces s.wire.unread left fault) (hdata : s.data = given.flatten)
    (hlast : s.last = false) : FaultTurn toHead limit fault size given left s (s.ask size) := by
  rcases hpoll : s.receiver.pollBody size s.wire with ⟨p, r, w⟩
  cases Receiver.chunkTurn hfaces hpoll with
  | waits hfaces' hspends =>
    rw [ask_of_wait hhead hpoll]
    exact .stays (.inside hhead hfaces' hdata hlast) (.inl rfl) hspends.endsLast fun h =>
      ⟨h, fun he => Nat.add_lt_add_left (hspends.acts he) _⟩
  | fails hfaces' hspends =>
    rw [ask_of_error hhead hpoll]
    exact .stays (.inside hhead hfaces' hdata hlast) (.inr ⟨_, rfl⟩) hspends.endsLast fun h =>
      ⟨h, fun he => Nat.add_lt_add_left (hspends.acts he) _⟩
  | @gives xs left' _ _ hleft hxs hfaces' he hacts =>
    rw [ask_of_given hhead hpoll]
    refine .goes hleft (.inside hhead hfaces' (by simp [hdata]) (by simp [hlast])) (.inl rfl) he
      fun h => ⟨h, fun _ => ?_⟩
    have hpos := List.length_pos_iff.mpr hxs
    simp only [questionsLeft, hleft, List.length_append]
    omega
  | fault hless =>
    rw [ask_of_error hhead hpoll]
    exact .fault rfl rfl hless

/-- What one question comes to with a fault ahead. -/
theorem faultTurn (size : Nat) (h : Facing toHead limit fault given left s) :
    FaultTurn toHead limit fault size given left s (s.ask size) := by
  cases h with
  | before hnone hr hlimit hgiven hdata hlast hheads hbreaks =>
    subst hgiven
    exact faultTurn_head size hnone hr hlimit hdata hlast hheads hbreaks
  | inside hhead hfaces hdata hlast => exact faultTurn_body size hhead hfaces hdata hlast

/-- Until the fault is met, every question goes on. -/
theorem facing_run : ∀ (sizes : List Nat) {s : Reading} {given left : List Bytes},
    Facing toHead limit fault given left s → (∀ e ∈ (s.run sizes).errors, e.isIo = true) →
    ∃ xs left', left = xs ++ left' ∧
      Facing toHead limit fault (given ++ xs) left' (s.run sizes) ∧
      (s.wire.EndsLast → (s.run sizes).wire.EndsLast)
  | [], _, given, left, h, _ => ⟨[], left, rfl, by rwa [List.append_nil], id⟩
  | size :: sizes, s, given, left, h, hio => by
    cases faultTurn size h with
    | goes hleft h' _ hends _ =>
      obtain ⟨ys, left'', rfl, hrun, hends'⟩ := facing_run sizes h' hio
      rw [List.append_assoc] at hrun
      exact ⟨_, left'', by rw [hleft, List.append_assoc], hrun, fun he => hends' (hends he)⟩
    | fault herrors _ _ =>
      have hmem : .badBody fault ∈ (s.ask size).errors := herrors ▸ List.mem_cons_self ..
      have := hio _ (errors_run sizes _ _ hmem)
      cases this

/-- The fault is met at the latest when no question is due before it. -/
theorem fault_of_questionsLeft : ∀ (sizes : List Nat) {s : Reading} {given left : List Bytes},
    Facing toHead limit fault given left s → s.head ≠ none → s.wire.EndsLast →
    questionsLeft left s < sizes.length → .badBody fault ∈ (s.run sizes).errors
  | [], _, _, _, _, _, _, hlt => absurd hlt (Nat.not_lt_zero _)
  | size :: sizes, s, given, left, h, hhead, he, hlt => by
    rw [List.length_cons] at hlt
    cases faultTurn size h with
    | goes _ h' _ hends hspends =>
      obtain ⟨hhead', hless⟩ := hspends hhead
      have hless := hless he
      exact fault_of_questionsLeft sizes h' hhead' (hends he) (by omega)
    | fault herrors _ _ => exact errors_run sizes _ _ (herrors ▸ List.mem_cons_self ..)

/-- **A fault costs what was gathered when it is met.** As long as the transport
alone has failed, what was handed over is whole chunks, in order. The question
that meets the fault reports it, the same one however the bytes came, and hands
nothing over: the chunks that are left are lost, and they are less than what was
asked for, so none if that was a byte. Past the head the fault is met after
as many questions as there are chunks and acts. -/
theorem fault_run {room chunkLimit : Nat} {w : Wire} {response : Response} {tail : Bytes}
    {ds : List Bytes} {sizes : List Nat}
    (hheads : Heads toHead w.unread response .chunked tail)
    (hbreaks : Breaks chunkLimit ds fault tail)
    (hs : (start toHead room chunkLimit w).run sizes = s) (hio : ∀ e ∈ s.errors, e.isIo = true) :
    ∃ given left, ds = given ++ left ∧ s.data = given.flatten ∧ s.last = false ∧
      (∀ size e, (s.ask size).errors = e :: s.errors → e.isIo = false →
        e = .badBody fault ∧ (s.ask size).data = s.data ∧ left.flatten.length < max size 1) ∧
      (w.EndsLast → s.head ≠ none → ∀ more : List Nat,
        left.length + actsIn s.wire.arriving < more.length →
          .badBody fault ∈ (s.run more).errors) := by
  have hstart : Facing toHead chunkLimit fault [] ds (start toHead room chunkLimit w) :=
    .before rfl (Receiver.beforeHead_ofRequest ..) rfl rfl rfl rfl hheads hbreaks
  subst hs
  obtain ⟨given, left, hds, hrun, hends⟩ := facing_run sizes hstart hio
  rw [List.nil_append] at hrun
  obtain ⟨hdata, hlast⟩ := hrun.handedOver
  refine ⟨given, left, hds, hdata, hlast, fun size e herror he => ?_,
    fun he hhead more => fault_of_questionsLeft more hrun hhead (hends he)⟩
  cases faultTurn size hrun with
  | goes _ _ herrors _ _ =>
    rcases herrors with hsame | ⟨e', hio'⟩
    · rw [hsame] at herror
      exact absurd herror.symm (List.cons_ne_self _ _)
    · rw [hio'] at herror
      cases herror
      cases he
  | fault herrors hdata hless =>
    rw [herrors] at herror
    cases herror
    exact ⟨rfl, hdata, hless⟩

/-- A chunk of eight bytes, and the size line of one of nine. -/
def fitting : Bytes := Bytes.ofText "8\r\nfits ok!\r\n9\r\n"

/-- The head, and behind it these bytes, of which `n` come with it. -/
def torn (n : Nat) : Wire :=
  { arriving := [
      .bytes (Bytes.ofText "HTTP/1.1 200 OK\r\nTransfer-Encoding: chunked\r\n\r\n" ++
        fitting.take n),
      .bytes (fitting.drop n)] }

theorem unread_torn (n : Nat) : (torn n).unread =
    Bytes.ofText "HTTP/1.1 200 OK\r\nTransfer-Encoding: chunked\r\n\r\n" ++ fitting := by
  show _ ++ fitting.take n ++ (fitting.drop n ++ []) = _
  rw [List.append_nil, List.append_assoc, List.take_append_drop]

theorem heads_torn (n : Nat) : Heads false (torn n).unread chunkedHead .chunked fitting := by
  have h : ({} : Incoming).nextHead (torn 0).unread =
      (.item (.head chunkedHead .chunked), { body := some (.chunked {}) }, fitting) := by
    decide +kernel
  rw [unread_torn, ← unread_torn 0]
  exact Incoming.heads_of_nextHead h

theorem breaks_fitting : Breaks 8 [Bytes.ofText "fits ok!"] (.overLimit 9 8) fitting := by
  have hchunk : ChunkedDecoder.decode { limit := 8 } fitting =
      (.item (.data (Bytes.ofText "fits ok!")), { limit := 8, phase := .dataEnd },
        Bytes.ofText "\r\n9\r\n") := by
    decide +kernel
  have hlarge : ChunkedDecoder.decode { limit := 8, phase := .dataEnd }
      (Bytes.ofText "\r\n9\r\n") =
        (.fail (.badBody (.overLimit 9 8)), { limit := 8 }, []) := by
    decide +kernel
  exact ChunkedDecoder.meets_iff.mp (.chunk hchunk (.fault hlarge))

/-- With all bytes in the buffer, a question for many bytes loses the chunk to the
fault behind it. -/
theorem fault_run_torn :
    let s := (start false 128 8 (torn 18)).run [0]
    (s.ask 1024).errors = .badBody (.overLimit 9 8) :: s.errors ∧ (s.ask 1024).data = s.data ∧
      .badBody (.overLimit 9 8) ∈ (s.run [1, 1]).errors := by
  intro s
  have hio : ∀ e ∈ s.errors, e.isIo = true := by decide +kernel
  have hhead : s.head ≠ none := by decide +kernel
  have hfails : (s.ask 1024).errors = .badBody (.overLimit 9 8) :: s.errors := by decide +kernel
  obtain ⟨given, left, hds, -, -, hfault, hmore⟩ := fault_run (heads_torn 18) breaks_fitting rfl hio
  have hleft : left.length ≤ 1 := by
    have hone := congrArg List.length hds
    rw [List.length_append, List.length_singleton] at hone
    omega
  have hacts : actsIn s.wire.arriving = 0 := by decide +kernel
  obtain ⟨-, hdata, -⟩ := hfault 1024 _ hfails rfl
  refine ⟨hfails, hdata, hmore trivial hhead [1, 1] ?_⟩
  rw [hacts]
  exact Nat.lt_succ_of_le hleft

/-- What was received depends on how it came and was asked for: the chunk in
front of the fault, or nothing. -/
theorem fitting_lost :
    Heads false (torn 18).unread chunkedHead .chunked fitting ∧
    Breaks 8 [Bytes.ofText "fits ok!"] (.overLimit 9 8) fitting ∧
    ((start false 128 8 (torn 18)).run [0, 1024]).errors = [.badBody (.overLimit 9 8)] ∧
    ((start false 128 8 (torn 18)).run [0, 1024]).data = [] ∧
    ((start false 128 8 (torn 18)).run [0, 8, 1024]).errors = [.badBody (.overLimit 9 8)] ∧
    ((start false 128 8 (torn 18)).run [0, 8, 1024]).data = Bytes.ofText "fits ok!" ∧
    ((start false 128 8 (torn 13)).run [0, 1024, 1024]).errors = [.badBody (.overLimit 9 8)] ∧
    ((start false 128 8 (torn 13)).run [0, 1024, 1024]).data = Bytes.ofText "fits ok!" :=
  ⟨heads_torn 18, breaks_fitting, by decide +kernel, by decide +kernel, by decide +kernel,
    by decide +kernel, by decide +kernel, by decide +kernel⟩

end Reading
end Http1Client
