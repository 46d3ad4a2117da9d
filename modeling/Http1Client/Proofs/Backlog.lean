/-
# What a decoder leaves behind

Asking for the next event of a response takes bytes off the front of a buffer
and never puts any there (`Incoming.length_next_le`). More important is what is
left when more bytes are needed: an incomplete head, an incomplete line of a
chunked body, or a chunk that has not come in full. Each of these is limited,
the first by `Head.sizeLimit`, the second by `Chunked.lineLimit` and the third
by the largest chunk that is taken, so that a buffer of which nothing can be
taken is small, whatever the bytes in it are (`Incoming.length_of_need`). The
other bodies leave nothing.

The third limit holds since a size line above it is a fault: a decoder never
waits for a larger chunk (`Incoming.Fits`).

Key definitions: `BodyDecoder.Fits`, `Incoming.Fits`.
Key theorems: `Incoming.fits_next`, `Incoming.length_of_need`,
`Incoming.length_drain_lt`.
-/
import Http1Client.Proofs.Body.Acceptance
import Http1Client.Proofs.Events
import Http1Client.Receiver

namespace Http1Client

/-! ### A chunked body -/

namespace ChunkedDecoder

open Chunked

variable {d d' : ChunkedDecoder} {b rest : Bytes} {p : Progress Piece}

theorem length_decode_le (h : d.decode b = (p, d', rest)) : rest.length ≤ b.length := by
  fun_induction decode d b with
  | case3 d b hp text rest' taken fault hsize =>
    cases h
    exact Nat.le_of_lt (takeLine_length taken)
  | case4 d b hp text rest' taken n hn hl ih =>
    exact Nat.le_trans (ih h) (Nat.le_of_lt (takeLine_length taken))
  | case5 d b hp text rest' taken n hn hl =>
    cases h
    exact Nat.le_of_lt (takeLine_length taken)
  | case7 d b n hp hn =>
    cases h
    exact List.length_drop ▸ Nat.sub_le ..
  | case8 d hp x y rest' hxy ih => exact Nat.le_trans (ih h) (Nat.le_add_right _ 2)
  | case13 d b hp rest' taken =>
    cases h
    exact Nat.le_of_lt (takeLine_length taken)
  | case14 d b hp text rest' taken ht ih =>
    exact Nat.le_trans (ih h) (Nat.le_of_lt (takeLine_length taken))
  | _ =>
    cases h
    exact Nat.le_refl _

theorem length_lt_of_takeLine_open (h : takeLine b = .open) : b.length < lineLimit := by
  unfold takeLine at h
  split at h
  · split at h
    · next hs => exact Bytes.isShorter_iff.mp hs
    · cases h
  · unfold closeLine at h
    split at h
    · split at h <;> cases h
    · cases h

/-- A decoder that needs more bytes has an incomplete line, or less than a
chunk that it takes. -/
theorem length_of_need (h : d.decode b = (.need, d', rest)) (hd : d.phase.Fits d.limit) :
    rest.length ≤ max lineLimit d.limit := by
  fun_induction decode d b with
  | case1 d b hp hopen =>
    cases h
    have := length_lt_of_takeLine_open hopen
    omega
  | case4 d b hp text rest' taken n hn hl ih =>
    exact ih h (Phase.fits_of_size hl)
  | case6 d b n hp hs =>
    cases h
    rw [hp] at hd
    have hle := hd.2
    have := Bytes.isShorter_iff.mp hs
    omega
  | case8 d hp x y rest' hxy ih => exact ih h trivial
  | case10 d b hp hshort =>
    cases h
    rcases rest with _ | ⟨x, _ | ⟨y, tail⟩⟩
    · exact Nat.zero_le _
    · exact Nat.le_trans (show 1 ≤ lineLimit by decide) (Nat.le_max_left ..)
    · exact absurd rfl (hshort x y tail)
  | case11 d b hp hopen =>
    cases h
    have := length_lt_of_takeLine_open hopen
    omega
  | case14 d b hp text rest' taken ht ih => exact ih h hd
  | _ => cases h

end ChunkedDecoder

/-! ### A body of any framing -/

namespace BodyDecoder

/-- A chunked body with this limit, in which no larger chunk is waited for. -/
def Fits (limit : Nat) : BodyDecoder → Prop
  | chunked c => c.limit = limit ∧ c.phase.Fits limit
  | _ => True

variable {limit : Nat} {d d' : BodyDecoder} {b rest x : Bytes} {p : Progress Piece}

theorem fits_of_not_chunked (hd : d.isChunked = false) : d.Fits limit := by
  cases d with
  | chunked c => cases hd
  | _ => trivial

theorem fits_ofFraming (limit : Nat) (framing : Framing) :
    (ofFraming limit framing).Fits limit := by
  cases framing with
  | chunked => exact ⟨rfl, trivial⟩
  | _ => trivial

theorem decode_chunked {c : ChunkedDecoder} (h : (chunked c).decode b = (p, d', rest)) :
    ∃ c', d' = chunked c' ∧ c.decode b = (p, c', rest) := by
  rcases hc : c.decode b with ⟨q, c', rest'⟩
  rw [decode, hc] at h
  cases h
  exact ⟨c', rfl, rfl⟩

/-- Without chunks nothing is left while more bytes are needed. -/
theorem decode_not_chunked (hd : d.isChunked = false) (h : d.decode b = (p, d', rest)) :
    rest.length ≤ b.length ∧ (p = .need → rest = []) := by
  cases d with
  | length left =>
    simp only [decode] at h
    split at h
    · cases h
      exact ⟨Nat.le_refl _, fun hp => by cases hp⟩
    · split at h
      · next hb =>
        cases h
        exact ⟨Nat.le_refl _, fun _ => hb⟩
      · cases h
        exact ⟨List.length_drop ▸ Nat.sub_le .., fun hp => by cases hp⟩
  | chunked c => cases hd
  | untilClose ended =>
    simp only [decode] at h
    split at h
    · cases h
      exact ⟨Nat.le_refl _, fun hp => by cases hp⟩
    · split at h
      · next hb =>
        cases h
        exact ⟨Nat.le_refl _, fun _ => hb⟩
      · cases h
        exact ⟨Nat.zero_le _, fun hp => by cases hp⟩
  | empty =>
    cases h
    exact ⟨Nat.le_refl _, fun hp => by cases hp⟩

theorem length_decode_le (h : d.decode b = (p, d', rest)) : rest.length ≤ b.length := by
  cases d with
  | chunked c =>
    obtain ⟨c', -, hc⟩ := decode_chunked h
    exact ChunkedDecoder.length_decode_le hc
  | _ => exact (decode_not_chunked rfl h).1

theorem fits_decode (hd : d.Fits limit) (h : d.decode b = (p, d', rest)) : d'.Fits limit := by
  cases d with
  | chunked c =>
    obtain ⟨c', rfl, hc⟩ := decode_chunked h
    obtain ⟨rfl, hphase⟩ := hd
    have hlimit := ChunkedDecoder.decode_limit hc
    exact ⟨hlimit, (ChunkedDecoder.decode_fits hc hphase).1⟩
  | length | untilClose | empty =>
    exact fits_of_not_chunked (congrArg (·.2.1.isChunked) h ▸ isChunked_decode ..)

/-- A decoder that needs more bytes has an incomplete line, or less than a
chunk that it takes, or nothing. -/
theorem length_of_need (hd : d.Fits limit) (h : d.decode b = (.need, d', rest)) :
    rest.length ≤ max Chunked.lineLimit limit := by
  cases d with
  | chunked c =>
    obtain ⟨c', -, hc⟩ := decode_chunked h
    obtain ⟨rfl, hphase⟩ := hd
    exact ChunkedDecoder.length_of_need hc hphase
  | _ =>
    rw [(decode_not_chunked rfl h).2 rfl]
    exact Nat.zero_le _

/-- No chunk that is given out is larger than the limit. -/
theorem length_data_le (hd : d.Fits limit) (hchunked : d.isChunked = true)
    (h : d.decode b = (.item (.data x), d', rest)) : x.length ≤ limit := by
  cases d with
  | chunked c =>
    obtain ⟨c', -, hc⟩ := decode_chunked h
    obtain ⟨rfl, hphase⟩ := hd
    exact ((ChunkedDecoder.decode_fits hc hphase).2 x (List.mem_singleton_self x)).2
  | _ => cases hchunked

/-- The end of the stream changes what is made of missing bytes, and not which
bytes are taken. -/
theorem decodeEnd_cases (d : BodyDecoder) (b : Bytes) : d.decodeEnd b = d.decode b ∨
    ((d.decode b).1 = .need ∧ ∃ e, d.decodeEnd b = (.fail e, (d.decode b).2)) ∨
      d.decodeEnd b = (.item .finish, .untilClose true, []) := by
  cases d with
  | length left =>
    rw [decodeEnd]
    rcases hd : decode (.length left) b with ⟨_ | _ | _, d', rest⟩
    · exact .inr (.inl ⟨rfl, _, rfl⟩)
    · exact .inl rfl
    · exact .inl rfl
  | chunked c =>
    rw [decodeEnd, decode, ChunkedDecoder.decodeEnd]
    rcases hd : c.decode b with ⟨_ | _ | _, d', rest⟩
    · exact .inr (.inl ⟨rfl, _, rfl⟩)
    · exact .inl rfl
    · exact .inl rfl
  | untilClose ended =>
    rw [decodeEnd]
    split
    · exact .inr (.inr rfl)
    · exact .inl rfl
  | empty => exact .inl rfl

end BodyDecoder

/-! ### One head -/

theorem takeHead_rest_le (toHead : Bool) (salvaged : Option Response) (b : Bytes) :
    (takeHead toHead salvaged b).rest.length ≤ b.length := by
  unfold takeHead
  split
  · exact Nat.le_refl _
  · split
    · split <;> exact Nat.le_refl _
    · exact Nat.le_refl _
    · next hs =>
      split
      · exact Nat.le_refl _
      · split
        · rw [frameHead_rest]
          exact Nat.le_of_lt (Head.scanHead_length hs)
        · exact Nat.le_refl _

/-- A head is waited for only as long as it is not too large. -/
theorem length_of_takeHead_need {toHead : Bool} {salvaged : Option Response} {b : Bytes}
    (h : (takeHead toHead salvaged b).progress = .need) : b.length ≤ Head.sizeLimit := by
  unfold takeHead at h
  split at h
  · next hshort =>
    have hlt := Bytes.isShorter_iff.mp hshort
    exact Nat.le_trans (Nat.le_of_lt hlt) (by decide)
  · split at h
    · split at h
      · assumption
      · cases h
    · cases h
    · split at h
      · cases h
      · split at h
        · unfold frameHead at h
          split at h <;> cases h
        · cases h

/-! ### The whole response -/

namespace Incoming

/-- A response of which chunks up to this limit are taken, and in whose body no
larger chunk is waited for. -/
structure Fits (limit : Nat) (s : Incoming) : Prop where
  chunkLimit : s.chunkLimit = limit
  body : ∀ d, s.body = some d → d.Fits limit

variable {limit : Nat} {s s' : Incoming} {b rest x : Bytes} {p : Progress Event}

theorem fits_nextHead (hs : s.Fits limit) (h : s.nextHead b = (p, s', rest)) : s'.Fits limit := by
  fun_induction nextHead s b with
  | case3 s b response framing salvaged rest' taken hi ih => exact ih ⟨hs.chunkLimit, hs.body⟩ h
  | case4 s b response framing salvaged rest' taken hi =>
    cases h
    obtain ⟨rfl, -⟩ := hs
    refine ⟨rfl, fun d hd => ?_⟩
    cases hd
    exact BodyDecoder.fits_ofFraming ..
  | _ =>
    cases h
    exact ⟨hs.chunkLimit, hs.body⟩

theorem length_nextHead_le (h : s.nextHead b = (p, s', rest)) : rest.length ≤ b.length := by
  have htake := takeHead_rest_le s.toHead s.salvaged b
  fun_induction nextHead s b with
  | case3 s b response framing salvaged rest' taken hi ih =>
    rw [taken] at htake
    exact Nat.le_trans (ih h (takeHead_rest_le ..)) htake
  | _ =>
    cases h
    simp_all

theorem length_of_nextHead_need (h : s.nextHead b = (.need, s', rest)) :
    rest.length ≤ Head.sizeLimit := by
  fun_induction nextHead s b with
  | case1 s b salvaged rest' taken =>
    cases h
    obtain ⟨-, rfl⟩ := takeHead_eq_need taken
    exact length_of_takeHead_need (congrArg HeadTaken.progress taken)
  | case3 s b response framing salvaged rest' taken hi ih => exact ih h
  | _ => cases h

theorem fits_afterPiece (hs : s.Fits limit) {d : BodyDecoder} (hd : d.Fits limit)
    (q : Progress Piece) : (s.afterPiece d q).Fits limit := by
  unfold afterPiece
  split
  · exact ⟨hs.chunkLimit, fun _ hd' => by cases hd'⟩
  · refine ⟨hs.chunkLimit, fun d' hd' => ?_⟩
    cases hd'
    exact hd

theorem fits_next (hs : s.Fits limit) (h : s.next b = (p, s', rest)) : s'.Fits limit := by
  cases hd : s.body with
  | none =>
    rw [next_of_no_body hd] at h
    exact fits_nextHead hs h
  | some d =>
    rw [next_of_body hd] at h
    cases h
    exact fits_afterPiece hs (BodyDecoder.fits_decode (hs.body d hd) rfl) _

theorem length_next_le (h : s.next b = (p, s', rest)) : rest.length ≤ b.length := by
  cases hd : s.body with
  | none =>
    rw [next_of_no_body hd] at h
    exact length_nextHead_le h
  | some d =>
    rw [next_of_body hd] at h
    cases h
    exact BodyDecoder.length_decode_le (d := d) rfl

/-- A buffer of which nothing can be taken is small. -/
theorem length_of_need (hs : s.Fits limit) (h : s.next b = (.need, s', rest)) :
    rest.length ≤ max Head.sizeLimit limit := by
  cases hd : s.body with
  | none =>
    rw [next_of_no_body hd] at h
    exact Nat.le_trans (length_of_nextHead_need h) (Nat.le_max_left ..)
  | some d =>
    rw [next_of_body hd, Prod.mk.injEq, Prod.mk.injEq] at h
    obtain ⟨hp, -, rfl⟩ := h
    rcases hdec : d.decode b with ⟨q, d', rest⟩
    rw [hdec] at hp
    cases pieceEvent_eq_need.mp hp
    have hle := BodyDecoder.length_of_need (hs.body d hd) hdec
    have hline : Chunked.lineLimit ≤ Head.sizeLimit := by decide
    show rest.length ≤ _
    omega

/-- No chunk that is given out is larger than the limit. -/
theorem length_data_le (hs : s.Fits limit) (hc : s.chunking = some true)
    (h : s.next b = (.item (.piece (.data x)), s', rest)) : x.length ≤ limit := by
  obtain ⟨d, hd, hchunked⟩ := Option.map_eq_some_iff.mp hc
  rw [next_of_body hd, Prod.mk.injEq, Prod.mk.injEq] at h
  obtain ⟨hp, -, -⟩ := h
  exact BodyDecoder.length_data_le (hs.body d hd) hchunked
    (Prod.ext (pieceEvent_eq_piece.mp hp) rfl)

/-- The end of the stream changes what is made of missing bytes, and not which
bytes are taken. -/
theorem nextEnd_cases (s : Incoming) (b : Bytes) :
    s.nextEnd b = s.next b ∨ (∃ e, s.nextEnd b = (.fail e, (s.next b).2)) ∨
      s.nextEnd b = (.item (.piece .finish), { s with body := none }, []) := by
  cases hd : s.body with
  | none =>
    rw [next_of_no_body hd, nextEnd, hd]
    rcases hn : s.nextHead b with ⟨_ | _ | _, s', rest⟩
    · exact .inr (.inl ⟨_, rfl⟩)
    · exact .inl rfl
    · exact .inl rfl
  | some d =>
    rw [next_of_body hd, nextEnd, hd]
    rcases d.decodeEnd_cases b with h | ⟨hneed, e, h⟩ | h
    · exact .inl (by simp only [h])
    · refine .inr (.inl ⟨e, ?_⟩)
      simp only [h, hneed]
      rfl
    · exact .inr (.inr (by simp only [h]; rfl))

theorem fits_nextEnd (hs : s.Fits limit) (h : s.nextEnd b = (p, s', rest)) : s'.Fits limit := by
  rcases s.nextEnd_cases b with hn | ⟨e, hn⟩ | hn
  · exact fits_next hs (hn.symm.trans h)
  · rw [hn, Prod.mk.injEq] at h
    exact fits_next hs (Prod.ext rfl h.2)
  · cases hn.symm.trans h
    exact ⟨hs.chunkLimit, fun _ hd => by cases hd⟩

theorem length_nextEnd_le (h : s.nextEnd b = (p, s', rest)) : rest.length ≤ b.length := by
  rcases s.nextEnd_cases b with hn | ⟨e, hn⟩ | hn
  · exact length_next_le (hn.symm.trans h)
  · rw [hn, Prod.mk.injEq] at h
    exact length_next_le (Prod.ext rfl h.2)
  · cases hn.symm.trans h
    exact Nat.zero_le _

theorem length_data_nextEnd_le (hs : s.Fits limit) (hc : s.chunking = some true)
    (h : s.nextEnd b = (.item (.piece (.data x)), s', rest)) : x.length ≤ limit := by
  rcases s.nextEnd_cases b with hn | ⟨e, hn⟩ | hn
  · exact length_data_le hs hc (hn.symm.trans h)
  · cases hn.symm.trans h
  · cases hn.symm.trans h

/-! ### Taking data out of a buffer -/

variable {size : Option Nat} {got : Nat} {result : Except DecodeError (Bytes × Bool)}

theorem fits_drain (hs : s.Fits limit) (h : s.drain size got b = (result, s', rest)) :
    s'.Fits limit := by
  fun_induction drain size got s b generalizing result s' rest with
  | case1 got s b hl x s₁ rest₁ hn data last s₂ rest₂ hrest ih =>
    cases h
    exact ih (fits_next hs hn) hrest
  | case2 got s b hl x s₁ rest₁ hn e s₂ rest₂ hrest ih =>
    cases h
    exact ih (fits_next hs hn) hrest
  | case3 | case4 | case5 | case6 =>
    cases h
    exact fits_next hs ‹_›
  | case7 =>
    cases h
    exact hs

theorem length_drain_le (h : s.drain size got b = (result, s', rest)) :
    rest.length ≤ b.length := by
  fun_induction drain size got s b generalizing result s' rest with
  | case1 got s b hl x s₁ rest₁ hn data last s₂ rest₂ hrest ih =>
    cases h
    exact Nat.le_trans (ih hrest) (length_next_le hn)
  | case2 got s b hl x s₁ rest₁ hn e s₂ rest₂ hrest ih =>
    cases h
    exact Nat.le_trans (ih hrest) (length_next_le hn)
  | case3 | case4 | case5 | case6 =>
    cases h
    exact length_next_le ‹_›
  | case7 =>
    cases h
    exact Nat.le_refl _

/-- Data of a chunked body is given out up to the size that was asked for, and
at most one chunk beyond. -/
theorem length_drain_lt {n : Nat} {data : Bytes} {last : Bool} (hs : s.Fits limit)
    (hc : s.chunking = some true) (hgot : got < n + limit)
    (h : s.drain (some n) got b = (.ok (data, last), s', rest)) :
    got + data.length < n + limit := by
  fun_induction drain (some n) got s b generalizing data last s' rest with
  | case1 got s b hl x s₁ rest₁ hn data' last' s₂ rest₂ hrest ih =>
    cases h
    -- There is less than `n` so far, and a chunk adds at most the limit.
    rw [Option.all_some, decide_eq_true_eq] at hl
    have hx := length_data_le hs hc hn
    have hc₁ := (chunking_next_of_data hn).1.trans hc
    have hlt := ih (fits_next hs hn) hc₁ (by omega) hrest
    rw [List.length_append]
    omega
  | case2 | case4 | case5 => cases h
  | case3 | case6 | case7 =>
    cases h
    exact hgot

/-- A chunked body from which nothing was taken is still open. -/
theorem chunking_of_drain_nil {s s' : Incoming} (hc : s.chunking = some true)
    (h : s.drain size got b = (.ok ([], false), s', rest)) : s'.chunking = some true := by
  fun_induction drain size got s b generalizing s' rest with
  | case1 got s b hl x s₁ rest₁ hn data last s₂ rest₂ hrest ih =>
    simp only [Prod.mk.injEq, Except.ok.injEq, List.append_eq_nil_iff] at h
    obtain ⟨⟨⟨rfl, rfl⟩, rfl⟩, rfl, rfl⟩ := h
    exact ih ((chunking_next_of_data hn).1.trans hc) hrest
  | case6 got s b hl s₁ rest₁ hneed =>
    cases h
    exact (chunking_next_of_need hneed).trans hc
  | case7 =>
    cases h
    exact hc
  | _ => cases h

end Incoming
end Http1Client
