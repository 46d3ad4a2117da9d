/-
# What a body decoder has still to give out

For a decoder in any state, `dataIn` is the data that the bytes in front of it
hold, and `EndsAt` tells where among these bytes the body ends. Both follow the
syntax of the body and not the steps of the decoder. `Passes` ties the two: a
decoder that gave data out and came to another state has given out the front of
its data, and has the rest of it still to give.

Every answer of a decoder but a fault is such a passage
(`BodyDecoder.decode_passes`). A chunked decoder does not depend on where the
bytes are cut: asked again with more bytes it goes on where it stopped, or
answers the same (`ChunkedDecoder.decode_append_of_need`,
`ChunkedDecoder.decode_append_of_ne_need`).

Key definitions: `BodyDecoder.dataIn`, `BodyDecoder.EndsAt`,
`BodyDecoder.Passes`, `Framing.IsBody`.
Key theorems: `ChunkedDecoder.decode_append_of_need`,
`ChunkedDecoder.decode_append_of_ne_need`, `BodyDecoder.decode_passes`,
`BodyDecoder.endsAt_ofFraming`.
-/
import Http1Client.Body.Decoder
import Http1Client.Proofs.Body.ChunkGrammar

namespace Http1Client

open Chunked

/-! ### One turn of a chunked decoder -/

namespace ChunkedDecoder

variable {d d' : ChunkedDecoder} {b rest : Bytes}

theorem decode_of_bad {fault : BodyFault} (hp : d.phase = .size ∨ d.phase = .trailer)
    (h : takeLine b = .bad fault) : d.decode b = (.fail (.badBody fault), d, b) := by
  rcases hp with hp | hp
  all_goals
    rw [decode.eq_def, hp]
    dsimp only
    split <;> simp_all

theorem decode_of_size {text : Bytes} (hp : d.phase = .size) (h : takeLine b = .line text rest) :
    d.decode b =
      match parseSize text with
      | .error fault => (.fail (.badBody fault), d, rest)
      | .ok n =>
        if n ≤ d.limit then
          decode { d with phase := if n = 0 then .trailer else .data n } rest
        else (.fail (.badBody (.overLimit n d.limit)), d, rest) := by
  rw [decode.eq_def, hp]
  dsimp only
  split
  · simp_all
  · simp_all
  · next h' =>
    rw [h, Line.line.injEq] at h'
    obtain ⟨rfl, rfl⟩ := h'
    rfl

theorem decode_of_trailer {text : Bytes} (hp : d.phase = .trailer)
    (h : takeLine b = .line text rest) :
    d.decode b =
      if text = [] then (.item .finish, { d with phase := .complete }, rest)
      else d.decode rest := by
  rw [decode.eq_def, hp]
  dsimp only
  split
  · simp_all
  · simp_all
  · next h' =>
    rw [h, Line.line.injEq] at h'
    obtain ⟨rfl, rfl⟩ := h'
    rfl

theorem decode_of_data {n : Nat} (hp : d.phase = .data n) (hn : n ≤ b.length) :
    d.decode b = (.item (.data (b.take n)), { d with phase := .dataEnd }, b.drop n) := by
  rw [decode.eq_def, hp]
  dsimp only
  rw [if_neg]
  rw [Bool.not_eq_true, Bytes.isShorter_eq_false]
  exact hn

theorem decode_of_dataEnd {x y : UInt8} (hp : d.phase = .dataEnd) :
    d.decode (x :: y :: b) =
      if x = Bytes.cr ∧ y = Bytes.lf then decode { d with phase := .size } b
      else (.fail (.badBody .dataUnterminated), d, x :: y :: b) := by
  rw [decode.eq_def, hp]

theorem decode_of_complete (hp : d.phase = .complete) : d.decode b = (.item .finish, d, b) := by
  rw [decode.eq_def, hp]

/-! ### Asked again with more bytes -/

/-- Where more bytes are needed, they are all that is needed: the decoder
goes on from where it stopped. -/
theorem decode_append_of_need (h : d.decode b = (.need, d', rest)) (c : Bytes) :
    d.decode (b ++ c) = d'.decode (rest ++ c) := by
  fun_induction decode d b with
  | case4 d b hp text rest' taken n hn hl ih =>
    rw [decode_of_size hp (takeLine_append_of_line taken c), hn]
    dsimp only
    rw [if_pos hl]
    exact ih h
  | case8 d hp x y rest' hxy ih =>
    rw [List.cons_append, List.cons_append, decode_of_dataEnd hp, if_pos hxy]
    exact ih h
  | case14 d b hp text rest' taken ht ih =>
    rw [decode_of_trailer hp (takeLine_append_of_line taken c), if_neg ht]
    exact ih h
  | _ => simp_all

/-- A piece is the same with more bytes behind it, and so is a fault. -/
theorem decode_append_of_ne_need {p : Progress Piece} (h : d.decode b = (p, d', rest))
    (hp : p ≠ .need) (c : Bytes) : d.decode (b ++ c) = (p, d', rest ++ c) := by
  fun_induction decode d b with
  | case2 d b hs fault taken =>
    rw [decode_of_bad (.inl hs) (takeLine_append_of_bad taken c)]
    simp_all
  | case3 d b hs text rest' taken fault hn =>
    rw [decode_of_size hs (takeLine_append_of_line taken c), hn]
    simp_all
  | case4 d b hs text rest' taken n hn hl ih =>
    rw [decode_of_size hs (takeLine_append_of_line taken c), hn]
    dsimp only
    rw [if_pos hl]
    exact ih h
  | case5 d b hs text rest' taken n hn hl =>
    cases h
    rw [decode_of_size hs (takeLine_append_of_line taken c), hn]
    dsimp only
    rw [if_neg hl]
  | case7 d b n hs hn =>
    rw [Bool.not_eq_true, Bytes.isShorter_eq_false] at hn
    rw [decode_of_data hs (by rw [List.length_append]; omega), List.take_append_of_le_length hn,
      List.drop_append_of_le_length hn]
    simp_all
  | case8 d hs x y rest' hxy ih =>
    rw [List.cons_append, List.cons_append, decode_of_dataEnd hs, if_pos hxy]
    exact ih h
  | case9 d hs x y rest' hxy =>
    rw [List.cons_append, List.cons_append, decode_of_dataEnd hs, if_neg hxy]
    cases h
    rfl
  | case12 d b hs fault taken =>
    rw [decode_of_bad (.inr hs) (takeLine_append_of_bad taken c)]
    simp_all
  | case13 d b hs rest' taken =>
    rw [decode_of_trailer hs (takeLine_append_of_line taken c), if_pos rfl]
    simp_all
  | case14 d b hs text rest' taken ht ih =>
    rw [decode_of_trailer hs (takeLine_append_of_line taken c), if_neg ht]
    exact ih h
  | case15 d b hs =>
    rw [decode_of_complete hs]
    simp_all
  | _ => simp_all

end ChunkedDecoder

/-! ### What a chunked decoder waits for -/

namespace Chunked

namespace Phase

/-- The data of the chunks that the bytes hold, for a decoder that waits for
this. -/
def chunks : Phase → Bytes → List Bytes
  | size, b => chunksIn b
  | data n, b => if b.length < n then [] else b.take n :: chunksBehind (b.drop n)
  | dataEnd, b => chunksBehind b
  | trailer, _ => []
  | complete, _ => []

/-- The bytes hold the rest of a body, and `r` behind it. -/
def EndsAt : Phase → Bytes → Bytes → Prop
  | size, b, r => ∃ ds body, Body ds body ∧ b = body ++ r
  | data n, b, r => ∃ x ds body, x.length = n ∧ Body ds body ∧
      b = x ++ (Bytes.crlf ++ (body ++ r))
  | dataEnd, b, r => ∃ ds body, Body ds body ∧ b = Bytes.crlf ++ (body ++ r)
  | trailer, b, r => ∃ t, Trailer t ∧ b = t ++ r
  | complete, b, r => b = r

/-- From the one state with these bytes to the other with those, these chunks
are given out. -/
structure Passes (p : Phase) (b : Bytes) (xs : List Bytes) (p' : Phase) (b' : Bytes) : Prop where
  chunks : ∀ c, p.chunks (b ++ c) = xs ++ p'.chunks (b' ++ c)
  ends : ∀ c r, p.EndsAt (b ++ c) r → p'.EndsAt (b' ++ c) r

variable {p p' p'' : Phase} {b b' b'' text rest : Bytes} {xs ys : List Bytes} {n : Nat}

theorem Passes.refl (p : Phase) (b : Bytes) : Passes p b [] p b := ⟨fun _ => rfl, fun _ _ h => h⟩

theorem Passes.trans (h : Passes p b xs p' b') (h' : Passes p' b' ys p'' b'') :
    Passes p b (xs ++ ys) p'' b'' :=
  ⟨fun c => by rw [h.chunks, h'.chunks, List.append_assoc],
    fun c r he => h'.ends c r (h.ends c r he)⟩

/-- Behind a size line there is data of that size, or the trailer. -/
theorem passes_size (h : takeLine b = .line text rest) (hn : parseSize text = .ok n) :
    Passes .size b [] (if n = 0 then .trailer else .data n) rest := by
  constructor
  · intro c
    show chunksIn (b ++ c) = _
    rw [chunksIn_of_line (takeLine_append_of_line h c) hn]
    by_cases h0 : n = 0
    · simp [h0, chunks]
    · simp [h0, chunks]
  · rintro c r ⟨ds, body, hbody, he⟩
    have htake := takeLine_append_of_line h c
    cases hbody with
    | @last text' t hline hsize ht =>
      have h' : takeLine (b ++ c) = .line text' (t ++ r) :=
        takeLine_eq_line_iff.mpr ⟨hline, by rw [he]; simp⟩
      rw [htake, Line.line.injEq] at h'
      obtain ⟨rfl, h2⟩ := h'
      rw [parseSize_eq_ok_iff.mpr hsize, Except.ok.injEq] at hn
      subst hn
      exact ⟨t, ht, h2⟩
    | @chunk text' x body' ds' hline hsize hx hbody' =>
      have h' : takeLine (b ++ c) = .line text' (x ++ (Bytes.crlf ++ (body' ++ r))) :=
        takeLine_eq_line_iff.mpr ⟨hline, by rw [he]; simp⟩
      rw [htake, Line.line.injEq] at h'
      obtain ⟨rfl, h2⟩ := h'
      rw [parseSize_eq_ok_iff.mpr hsize, Except.ok.injEq] at hn
      subst hn
      rw [if_neg (by simpa using hx)]
      exact ⟨x, ds', body', rfl, hbody', h2⟩

/-- A chunk is given out when all of its data is there. -/
theorem passes_data (hn : n ≤ b.length) :
    Passes (.data n) b [b.take n] .dataEnd (b.drop n) := by
  constructor
  · intro c
    have hlen : ¬ (b ++ c).length < n := by
      rw [List.length_append]
      omega
    show (if (b ++ c).length < n then [] else _) = _
    rw [if_neg hlen, List.take_append_of_le_length hn, List.drop_append_of_le_length hn]
    rfl
  · rintro c r ⟨x, ds, body, hx, hbody, he⟩
    refine ⟨ds, body, hbody, ?_⟩
    rw [← List.drop_append_of_le_length hn, he, ← hx, List.drop_left]

theorem passes_dataEnd (b : Bytes) :
    Passes .dataEnd (Bytes.cr :: Bytes.lf :: b) [] .size b := by
  constructor
  · intro c
    exact chunksBehind_crlf (b ++ c)
  · rintro c r ⟨ds, body, hbody, he⟩
    exact ⟨ds, body, hbody, by simpa [Bytes.crlf] using he⟩

/-- A trailer line with text is passed over, the empty one ends the body. -/
theorem passes_trailer (h : takeLine b = .line text rest) :
    Passes .trailer b [] (if text = [] then .complete else .trailer) rest := by
  constructor
  · intro c
    split <;> rfl
  · rintro c r ⟨t, ht, he⟩
    have htake := takeLine_append_of_line h c
    cases ht with
    | done =>
      have h' : takeLine (b ++ c) = .line [] r :=
        takeLine_eq_line_iff.mpr ⟨⟨by simp, by decide⟩, he⟩
      rw [htake, Line.line.injEq] at h'
      obtain ⟨rfl, h2⟩ := h'
      exact h2
    | @field text' t' hne hline ht' =>
      have h' : takeLine (b ++ c) = .line text' (t' ++ r) :=
        takeLine_eq_line_iff.mpr ⟨hline, by rw [he]; simp⟩
      rw [htake, Line.line.injEq] at h'
      obtain ⟨rfl, h2⟩ := h'
      rw [if_neg hne]
      exact ⟨t', ht', h2⟩

end Phase
end Chunked

/-- The data that is given out. -/
def Progress.given : Progress Piece → List Bytes
  | .item (.data x) => [x]
  | _ => []

/-- A chunked decoder gives out the chunks that its bytes hold, and what
it takes is what stands before them. -/
theorem ChunkedDecoder.decode_passes {d d' : ChunkedDecoder} {b rest : Bytes} {p : Progress Piece}
    (h : d.decode b = (p, d', rest)) (hne : ∀ e, p ≠ .fail e) :
    d.phase.Passes b p.given d'.phase rest ∧ (p = .item .finish → d'.phase = .complete) := by
  fun_induction decode d b with
  | case4 d b hp text rest' taken n hn hl ih =>
    obtain ⟨hpass, hfin⟩ := ih h
    rw [hp]
    exact ⟨(Phase.passes_size taken hn).trans hpass, hfin⟩
  | case7 d b n hp hn =>
    rw [Bool.not_eq_true, Bytes.isShorter_eq_false] at hn
    cases h
    rw [hp]
    exact ⟨Phase.passes_data hn, by simp⟩
  | case8 d hp x y rest' hxy ih =>
    obtain ⟨rfl, rfl⟩ := hxy
    obtain ⟨hpass, hfin⟩ := ih h
    rw [hp]
    exact ⟨(Phase.passes_dataEnd rest').trans hpass, hfin⟩
  | case13 d b hp rest' taken =>
    cases h
    rw [hp]
    exact ⟨Phase.passes_trailer taken, fun _ => rfl⟩
  | case14 d b hp text rest' taken ht ih =>
    obtain ⟨hpass, hfin⟩ := ih h
    have hturn := Phase.passes_trailer taken
    rw [if_neg ht, ← hp] at hturn
    exact ⟨hturn.trans hpass, hfin⟩
  | case15 d b hp =>
    cases h
    exact ⟨Phase.Passes.refl .., fun _ => hp⟩
  | case2 | case3 | case5 | case9 | case12 =>
    cases h
    exact absurd rfl (hne _)
  | case1 | case6 | case10 | case11 =>
    cases h
    exact ⟨Phase.Passes.refl .., by simp⟩

theorem ChunkedDecoder.fault_of_decode {d d' : ChunkedDecoder} {b rest : Bytes} {e : DecodeError}
    (h : d.decode b = (.fail e, d', rest)) : ∃ fault, e = .badBody fault := by
  fun_induction decode d b with
  | case4 d b hp text rest' taken n hn hl ih => exact ih h
  | case8 d hp x y rest' hxy ih => exact ih h
  | case14 d b hp text rest' taken ht ih => exact ih h
  | case2 | case3 | case5 | case9 | case12 =>
    cases h
    exact ⟨_, rfl⟩
  | _ => simp at h

/-! ### Bodies of any framing, asked again with more bytes -/

namespace BodyDecoder

def isChunked : BodyDecoder → Bool
  | chunked _ => true
  | _ => false

theorem isChunked_ofFraming (limit : Nat) (f : Framing) :
    (ofFraming limit f).isChunked = f.isChunked := by
  cases f <;> rfl

theorem isChunked_decode (d : BodyDecoder) (b : Bytes) :
    (d.decode b).2.1.isChunked = d.isChunked := by
  cases d with
  | length left =>
    simp only [decode]
    split
    · rfl
    · split <;> rfl
  | chunked c => rfl
  | untilClose ended =>
    simp only [decode]
    split
    · rfl
    · split <;> rfl
  | empty => rfl

variable {d d' : BodyDecoder} {b rest x : Bytes}

/-- Where more bytes are needed, they are all that is needed. -/
theorem decode_append_of_need (h : d.decode b = (.need, d', rest)) (c : Bytes) :
    d.decode (b ++ c) = d'.decode (rest ++ c) := by
  cases d with
  | length left =>
    simp only [decode] at h
    split at h
    · simp at h
    · split at h
      · cases h
        rfl
      · simp at h
  | chunked cd =>
    simp only [decode, Prod.mk.injEq] at h
    obtain ⟨h1, rfl, rfl⟩ := h
    simp only [decode, ChunkedDecoder.decode_append_of_need (Prod.ext h1 rfl) c]
  | untilClose ended =>
    simp only [decode] at h
    split at h
    · simp at h
    · split at h
      · cases h
        rfl
      · simp at h
  | empty => simp [decode] at h

/-- An end and a fault are the same with more bytes behind them. -/
theorem decode_append_of_end {p : Progress Piece} (h : d.decode b = (p, d', rest))
    (hp : p = .item .finish ∨ ∃ e, p = .fail e) (c : Bytes) :
    d.decode (b ++ c) = (p, d', rest ++ c) := by
  have hneed : p ≠ .need := by
    rintro rfl
    simp at hp
  have hdata : ∀ x, p ≠ .item (.data x) := by
    rintro x rfl
    simp at hp
  cases d with
  | length left =>
    simp only [decode] at h ⊢
    split at h
    · next h0 =>
      cases h
      rw [if_pos h0]
    · split at h
      · cases h
        simp at hp
      · cases h
        simp at hp
  | chunked cd =>
    simp only [decode, Prod.mk.injEq] at h
    obtain ⟨h1, rfl, rfl⟩ := h
    simp only [decode, ChunkedDecoder.decode_append_of_ne_need (Prod.ext h1 rfl) hneed c]
  | untilClose ended =>
    simp only [decode] at h ⊢
    split at h
    · next h0 =>
      cases h
      rw [if_pos h0]
    · split at h
      · cases h
        simp at hp
      · cases h
        simp at hp
  | empty =>
    cases h
    rfl

/-- Data of a body of known length: where all that was there was given out, what
is still due comes out of the bytes behind it. -/
theorem decode_length_append {left : Nat} (h : (length left).decode b = (.item (.data x), d', rest))
    {c : Bytes} (hc : c ≠ []) :
    (length left).decode (b ++ c) = (.item (.data x), d', rest ++ c) ∨
      ∃ y d'' rest', d'.decode (rest ++ c) = (.item (.data y), d'', rest') ∧
        (length left).decode (b ++ c) = (.item (.data (x ++ y)), d'', rest') := by
  simp only [decode] at h
  split at h
  · simp at h
  · next h0 =>
    split at h
    · simp at h
    · next hb =>
      have hbc : b ++ c ≠ [] := by simp [hb]
      cases h
      rw [decode, if_neg h0, if_neg hbc]
      rcases Nat.lt_or_ge b.length left with hlt | hge
      · right
        have hle : b.length ≤ left := Nat.le_of_lt hlt
        rw [List.drop_of_length_le hle, List.take_of_length_le hle, List.nil_append,
          List.take_append, List.take_of_length_le hle, List.drop_append,
          List.drop_of_length_le hle, List.nil_append, List.length_append]
        refine ⟨c.take (left - b.length), _, _, ?_, rfl⟩
        rw [decode, if_neg (by omega), if_neg hc, Nat.sub_sub]
      · left
        rw [List.take_append_of_le_length hge, List.drop_append_of_le_length hge]

/-- Data is the same with more bytes behind it, or there is more of it
where the framing does not cut the data: then the rest of it comes next. -/
theorem decode_append_of_data (h : d.decode b = (.item (.data x), d', rest)) (c : Bytes) :
    d.decode (b ++ c) = (.item (.data x), d', rest ++ c) ∨
      (d.isChunked = false ∧ ∃ y d'' rest', d'.decode (rest ++ c) = (.item (.data y), d'', rest') ∧
        d.decode (b ++ c) = (.item (.data (x ++ y)), d'', rest')) := by
  by_cases hc : c = []
  · left
    rw [hc, List.append_nil, List.append_nil, h]
  cases d with
  | length left => exact (decode_length_append h hc).imp_right fun h' => ⟨rfl, h'⟩
  | chunked cd =>
    left
    simp only [decode, Prod.mk.injEq] at h
    obtain ⟨h1, rfl, rfl⟩ := h
    simp only [decode, ChunkedDecoder.decode_append_of_ne_need (Prod.ext h1 rfl) (by simp) c]
  | untilClose ended =>
    right
    simp only [decode] at h
    split at h
    · simp at h
    · next h0 =>
      split at h
      · simp at h
      · next hb =>
        have hbc : b ++ c ≠ [] := by simp [hb]
        cases h
        refine ⟨rfl, c, untilClose ended, [], ?_, ?_⟩
        · rw [decode, if_neg h0, List.nil_append, if_neg hc]
        · rw [decode, if_neg h0, if_neg hbc]
  | empty => simp [decode] at h

end BodyDecoder

/-! ### The body that the bytes hold -/

/-- The bytes are a whole body that is framed so. -/
def Framing.IsBody : Framing → Bytes → Prop
  | length n, x => x.length = n
  | chunked, x => ∃ ds, Body ds x
  | untilClose, _ => True
  | empty, x => x = []

namespace BodyDecoder

/-- The data that the bytes hold, for a decoder in this state. -/
def dataIn : BodyDecoder → Bytes → Bytes
  | length left, b => b.take left
  | chunked c, b => (c.phase.chunks b).flatten
  | untilClose ended, b => if ended then [] else b
  | empty, _ => []

/-- The bytes hold the rest of the body, and `r` behind it. No byte tells the
end of a body that ends with the connection. -/
def EndsAt : BodyDecoder → Bytes → Bytes → Prop
  | length left, b, r => ∃ x, x.length = left ∧ b = x ++ r
  | chunked c, b, r => c.phase.EndsAt b r
  | untilClose _, _, _ => False
  | empty, b, r => b = r

/-- From the one state with these bytes to the other with those, this data is
given out. -/
structure Passes (d : BodyDecoder) (b x : Bytes) (d' : BodyDecoder) (b' : Bytes) : Prop where
  dataIn : ∀ c, d.dataIn (b ++ c) = x ++ d'.dataIn (b' ++ c)
  ends : ∀ c r, d.EndsAt (b ++ c) r → d'.EndsAt (b' ++ c) r

variable {d d' d'' : BodyDecoder} {b b' b'' x y r : Bytes}

theorem Passes.refl (d : BodyDecoder) (b : Bytes) : Passes d b [] d b :=
  ⟨fun _ => rfl, fun _ _ h => h⟩

theorem Passes.trans (h : Passes d b x d' b') (h' : Passes d' b' y d'' b'') :
    Passes d b (x ++ y) d'' b'' :=
  ⟨fun c => by rw [h.dataIn, h'.dataIn, List.append_assoc],
    fun c r he => h'.ends c r (h.ends c r he)⟩

/-- Bytes behind those that matter come through. -/
theorem Passes.append (h : Passes d b x d' b') (u : Bytes) :
    Passes d (b ++ u) x d' (b' ++ u) :=
  ⟨fun c => by rw [List.append_assoc, h.dataIn, List.append_assoc],
    fun c r he => by
      rw [List.append_assoc] at he ⊢
      exact h.ends _ r he⟩

theorem dataIn_of_isFinished (h : d.isFinished = true) (b : Bytes) : d.dataIn b = [] := by
  cases d with
  | length left =>
    rw [isFinished, beq_iff_eq] at h
    rw [h]
    rfl
  | chunked c =>
    rw [isFinished, ChunkedDecoder.isFinished, beq_iff_eq] at h
    rw [dataIn, h]
    rfl
  | untilClose ended =>
    rw [isFinished] at h
    rw [h]
    rfl
  | empty => rfl

theorem EndsAt.eq_of_isFinished (h : d.EndsAt b r) (hf : d.isFinished = true) : b = r := by
  cases d with
  | length left =>
    rw [isFinished, beq_iff_eq] at hf
    obtain ⟨x, hx, rfl⟩ := h
    rw [hf, List.length_eq_zero_iff] at hx
    rw [hx]
    rfl
  | chunked c =>
    rw [isFinished, ChunkedDecoder.isFinished, beq_iff_eq] at hf
    rw [EndsAt, hf] at h
    exact h
  | untilClose ended => exact h.elim
  | empty => exact h

/-- A decoder starts at the front of the body. -/
theorem endsAt_ofFraming {f : Framing} (hf : f ≠ .untilClose) (h : f.IsBody x) (limit : Nat)
    (r : Bytes) : (ofFraming limit f).EndsAt (x ++ r) r := by
  cases f with
  | length n => exact ⟨x, h, rfl⟩
  | chunked =>
    obtain ⟨ds, hds⟩ := h
    exact ⟨ds, x, hds, rfl⟩
  | untilClose => exact absurd rfl hf
  | empty =>
    rw [show x = [] from h]
    rfl

/-- Of a body of known length, the bytes that are there are given out. -/
theorem passes_length (left : Nat) (b : Bytes) :
    (length left).Passes b (b.take left) (length (left - (b.take left).length)) (b.drop left) := by
  rw [List.length_take]
  rcases Nat.le_total left b.length with hle | hle
  · rw [Nat.min_eq_left hle, Nat.sub_self]
    constructor
    · intro c
      show (b ++ c).take left = b.take left ++ []
      rw [List.take_append_of_le_length hle, List.append_nil]
    · rintro c r ⟨x, hx, he⟩
      refine ⟨[], rfl, ?_⟩
      rw [← List.drop_append_of_le_length hle, he, ← hx, List.drop_left]
      rfl
  · rw [Nat.min_eq_right hle, List.take_of_length_le hle, List.drop_of_length_le hle]
    constructor
    · intro c
      show (b ++ c).take left = b ++ c.take (left - b.length)
      rw [List.take_append, List.take_of_length_le hle]
    · rintro c r ⟨x, hx, he⟩
      refine ⟨x.drop b.length, by rw [List.length_drop, hx], ?_⟩
      rw [← List.drop_append_of_le_length (by omega), ← he, List.drop_left]
      rfl

/-- A decoder gives out the data that its bytes hold, in order and all of
it. -/
theorem decode_passes {p : Progress Piece} (h : d.decode b = (p, d', b')) (hne : ∀ e, p ≠ .fail e) :
    d.Passes b p.given.flatten d' b' ∧ (p = .item .finish → d'.isFinished = true) := by
  cases d with
  | length left =>
    simp only [decode] at h
    split at h
    · next h0 =>
      cases h
      exact ⟨.refl .., fun _ => by rw [h0]; rfl⟩
    · split at h
      · cases h
        exact ⟨.refl .., by simp⟩
      · cases h
        exact ⟨by simpa [Progress.given] using passes_length left b, by simp⟩
  | chunked c =>
    simp only [decode, Prod.mk.injEq] at h
    obtain ⟨rfl, rfl, rfl⟩ := h
    obtain ⟨hpass, hfin⟩ := c.decode_passes rfl hne
    refine ⟨⟨fun u => ?_, hpass.ends⟩, fun hp => ?_⟩
    · show (c.phase.chunks (b ++ u)).flatten = _
      rw [hpass.chunks, List.flatten_append]
      rfl
    · rw [isFinished, ChunkedDecoder.isFinished, beq_iff_eq]
      exact hfin hp
  | untilClose ended =>
    simp only [decode] at h
    split at h
    · next h0 =>
      cases h
      exact ⟨.refl .., fun _ => h0⟩
    · next h0 =>
      split at h
      · cases h
        exact ⟨.refl .., by simp⟩
      · cases h
        refine ⟨⟨fun c => ?_, fun c r he => he⟩, by simp⟩
        simp [dataIn, h0, Progress.given]
  | empty =>
    cases h
    exact ⟨.refl .., fun _ => rfl⟩

/-- What a decoder fails with is a fault of the body. -/
theorem fault_of_decode {e : DecodeError} (h : d.decode b = (.fail e, d', b')) :
    ∃ fault, e = .badBody fault := by
  cases d with
  | length left =>
    simp only [decode] at h
    split at h
    · simp at h
    · split at h <;> simp at h
  | chunked c =>
    simp only [decode, Prod.mk.injEq] at h
    exact c.fault_of_decode (Prod.ext h.1 rfl)
  | untilClose ended =>
    simp only [decode] at h
    split at h
    · simp at h
    · split at h <;> simp at h
  | empty => simp [decode] at h

/-- Where more bytes are needed when the stream has ended, the body is cut
short, unless it ends with the connection. -/
theorem decodeEnd_of_need (h : d.decode b = (.need, d, b)) (hd : ∀ ended, d ≠ .untilClose ended) :
    ∃ words, d.decodeEnd b = (.fail (.cutShort words), d, b) := by
  cases d with
  | length left =>
    rw [decodeEnd]
    simp only [h]
    exact ⟨_, rfl⟩
  | chunked c =>
    simp only [decode, Prod.mk.injEq, chunked.injEq] at h
    obtain ⟨h1, h2, h3⟩ := h
    rw [decodeEnd, ChunkedDecoder.decodeEnd, show c.decode b = (.need, c, b) from
      Prod.ext h1 (Prod.ext h2 h3)]
    exact ⟨_, rfl⟩
  | untilClose ended => exact absurd rfl (hd ended)
  | empty => simp [decode] at h

end BodyDecoder
end Http1Client
