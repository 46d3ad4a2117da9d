/-
# Which bytes are taken for a chunked body

A decoder that is asked for chunks until it says that the body is complete has
been given a body that is laid out as one (`Chunked.IsChunkedBody`) and nothing
else, the chunks that it gave out are those of the body, and the bytes behind
the body are left (`ChunkIntake.feed_complete_iff`). One direction of this
follows the grammar, chunk by chunk; the other one follows the turns of the
decoder, each of which puts a part of the body in front of what was taken behind
it (`Chunked.Phase.Accepts`).

Key definitions: `Chunked.Phase.Accepts`.
Key theorems: `ChunkedDecoder.decode_accepts`, `ChunkIntake.feed_complete_iff`.
-/
import Http1Client.Proofs.Body.Layout
import Http1Client.Proofs.Body.RoundTrip

namespace Http1Client

namespace Chunked

/-! ### What a decoder has still to be given -/

namespace Phase

/-- The bytes hold the rest of a body with `r` behind it, and these are the
data of the chunks that are not given out yet. -/
def Accepts (limit : Nat) : Phase → List Bytes → Bytes → Bytes → Prop
  | size, ds, b, r => ∃ body, Body ds body ∧ (∀ d ∈ ds, d.length ≤ limit) ∧ b = body ++ r
  | data n, ds, b, r => ∃ x ds' body, ds = x :: ds' ∧ x.length = n ∧ Body ds' body ∧
      (∀ d ∈ ds', d.length ≤ limit) ∧ b = x ++ (Bytes.crlf ++ (body ++ r))
  | dataEnd, ds, b, r => ∃ body, Body ds body ∧ (∀ d ∈ ds, d.length ≤ limit) ∧
      b = Bytes.crlf ++ (body ++ r)
  | trailer, ds, b, r => ds = [] ∧ ∃ t, Trailer t ∧ b = t ++ r
  | complete, ds, b, r => ds = [] ∧ b = r

/-- A chunk whose data is due is not empty, and not larger than `limit`. -/
def Fits (limit : Nat) : Phase → Prop
  | data n => 1 ≤ n ∧ n ≤ limit
  | _ => True

variable {limit n : Nat} {ds : List Bytes} {b r text rest : Bytes}

theorem fits_of_size (hn : n ≤ limit) : Fits limit (if n = 0 then .trailer else .data n) := by
  by_cases h0 : n = 0
  · rw [if_pos h0]
    trivial
  · rw [if_neg h0]
    exact ⟨Nat.pos_of_ne_zero h0, hn⟩

/-- Behind a size line that denotes zero there is the trailer, behind another
one the data of a chunk. -/
theorem accepts_size (htake : takeLine b = .line text rest) (hsize : parseSize text = .ok n)
    (hn : n ≤ limit)
    (h : Accepts limit (if n = 0 then .trailer else .data n) ds rest r) :
    Accepts limit .size ds b r := by
  obtain ⟨htext, rfl⟩ := takeLine_eq_line_iff.mp htake
  have hsize := parseSize_eq_ok_iff.mp hsize
  by_cases h0 : n = 0
  · subst h0
    obtain ⟨rfl, t, ht, rfl⟩ := h
    exact ⟨_, .last htext hsize ht, by simp, by simp⟩
  · rw [if_neg h0] at h
    obtain ⟨x, ds', body, rfl, rfl, hbody, hle, rfl⟩ := h
    have hx : x ≠ [] := fun hx => h0 (by rw [hx]; rfl)
    exact ⟨_, .chunk htext hsize hx hbody, List.forall_mem_cons.mpr ⟨hn, hle⟩, by simp⟩

theorem accepts_data (hn : n ≤ b.length) (h : Accepts limit .dataEnd ds (b.drop n) r) :
    Accepts limit (.data n) (b.take n :: ds) b r := by
  obtain ⟨body, hbody, hle, hb⟩ := h
  refine ⟨b.take n, ds, body, rfl, List.length_take_of_le hn, hbody, hle, ?_⟩
  rw [← hb, List.take_append_drop]

theorem accepts_dataEnd (h : Accepts limit .size ds b r) :
    Accepts limit .dataEnd ds (Bytes.cr :: Bytes.lf :: b) r := by
  obtain ⟨body, hbody, hle, rfl⟩ := h
  exact ⟨body, hbody, hle, rfl⟩

theorem accepts_trailer (htake : takeLine b = .line text rest)
    (h : Accepts limit (if text = [] then .complete else .trailer) ds rest r) :
    Accepts limit .trailer ds b r := by
  obtain ⟨htext, rfl⟩ := takeLine_eq_line_iff.mp htake
  by_cases hne : text = []
  · subst hne
    obtain ⟨rfl, rfl⟩ := h
    exact ⟨rfl, _, .done, rfl⟩
  · rw [if_neg hne] at h
    obtain ⟨rfl, t, ht, rfl⟩ := h
    exact ⟨rfl, _, .field hne htext ht, by simp⟩

end Phase

end Chunked

open Chunked

/-! ### The turns of the decoder -/

namespace ChunkedDecoder

variable {d d' : ChunkedDecoder} {b rest r : Bytes} {p : Progress Piece} {ds : List Bytes}

/-- No turn changes how large a chunk may be. -/
theorem decode_limit (h : d.decode b = (p, d', rest)) : d'.limit = d.limit := by
  fun_induction decode d b with
  | case4 d b hp text rest' taken n hn hl ih => exact ih h
  | case8 d hp x y rest' hxy ih => exact ih h
  | case14 d b hp text rest' taken ht ih => exact ih h
  | _ =>
    cases h
    rfl

/-- What a decoder goes on from stands behind what it took. If the bytes
that are left make up a body, then so do those that were there, with the chunk
that was given out in front. -/
theorem decode_accepts (h : d.decode b = (p, d', rest)) (hne : ∀ e, p ≠ .fail e)
    (hrest : d'.phase.Accepts d.limit ds rest r) :
    d.phase.Accepts d.limit (p.given ++ ds) b r := by
  fun_induction decode d b with
  | case4 d b hp text rest' taken n hn hl ih =>
    rw [hp]
    exact Phase.accepts_size taken hn hl (ih h hrest)
  | case7 d b n hp hn =>
    rw [Bool.not_eq_true, Bytes.isShorter_eq_false] at hn
    cases h
    rw [hp]
    exact Phase.accepts_data hn hrest
  | case8 d hp x y rest' hxy ih =>
    obtain ⟨rfl, rfl⟩ := hxy
    rw [hp]
    exact Phase.accepts_dataEnd (ih h hrest)
  | case13 d b hp rest' taken =>
    cases h
    rw [hp]
    exact Phase.accepts_trailer taken hrest
  | case14 d b hp text rest' taken ht ih =>
    have hturn := ih h hrest
    rw [hp] at hturn ⊢
    exact Phase.accepts_trailer taken (by rwa [if_neg ht])
  | case2 | case3 | case5 | case9 | case12 =>
    cases h
    exact absurd rfl (hne _)
  | case1 | case6 | case10 | case11 | case15 =>
    cases h
    exact hrest

/-- No chunk is empty or too large: neither the one that is given out nor
the one whose data is due next. -/
theorem decode_fits (h : d.decode b = (p, d', rest)) (hd : d.phase.Fits d.limit) :
    d'.phase.Fits d.limit ∧ ∀ x ∈ p.given, 1 ≤ x.length ∧ x.length ≤ d.limit := by
  fun_induction decode d b with
  | case4 d b hp text rest' taken n hn hl ih => exact ih h (Phase.fits_of_size hl)
  | case7 d b n hp hn =>
    rw [Bool.not_eq_true, Bytes.isShorter_eq_false] at hn
    cases h
    rw [hp] at hd
    obtain ⟨hpos, hle⟩ := hd
    refine ⟨trivial, fun x hx => ?_⟩
    obtain rfl := List.mem_singleton.mp hx
    rw [List.length_take_of_le hn]
    exact ⟨hpos, hle⟩
  | case8 d hp x y rest' hxy ih => exact ih h trivial
  | case14 d b hp text rest' taken ht ih => exact ih h hd
  | case13 =>
    cases h
    exact ⟨trivial, by simp [Progress.given]⟩
  | _ =>
    cases h
    exact ⟨hd, by simp [Progress.given]⟩

end ChunkedDecoder

/-! ### An intake, from its first chunk to its last -/

namespace ChunkIntake

variable {k : ChunkIntake} {limit : Nat}

/-- If an intake comes to the end of a body, then its bytes were the rest of
the body, and it gave out the chunks of that rest. -/
theorem accepts_of_pull (hk : k.standing = .open) (h : k.pull.standing = .complete) :
    ∃ ds, k.pull.chunks = k.chunks ++ ds ∧
      k.decoder.phase.Accepts k.decoder.limit ds k.buffer k.pull.buffer := by
  fun_induction pull k with
  | case1 k ho d rest hn => exact absurd (hk.symm.trans h) (by simp)
  | case2 k ho e d rest hn => cases h
  | case3 k ho x d rest hn ih =>
    obtain ⟨ds, hchunks, haccepts⟩ := ih ho h
    rw [ChunkedDecoder.decode_limit hn] at haccepts
    refine ⟨x :: ds, by rw [hchunks, List.append_assoc]; rfl, ?_⟩
    exact ChunkedDecoder.decode_accepts hn (by simp) haccepts
  | case4 k ho d rest hn =>
    have hcomplete : d.phase = .complete :=
      (ChunkedDecoder.decode_passes hn (by simp)).2 rfl
    have hrest : d.phase.Accepts k.decoder.limit [] rest rest := by
      rw [hcomplete]
      exact ⟨rfl, rfl⟩
    have haccepts := ChunkedDecoder.decode_accepts hn (by simp) hrest
    exact ⟨[], (List.append_nil _).symm, haccepts⟩
  | case5 k ho => exact absurd hk ho

theorem fits_of_pull (hd : k.decoder.phase.Fits k.decoder.limit)
    (hk : ∀ d ∈ k.chunks, 1 ≤ d.length ∧ d.length ≤ k.decoder.limit) :
    ∀ d ∈ k.pull.chunks, 1 ≤ d.length ∧ d.length ≤ k.decoder.limit := by
  fun_induction pull k with
  | case3 k ho x d rest hn ih =>
    obtain ⟨hfits, hx⟩ := ChunkedDecoder.decode_fits hn hd
    have hlimit := ChunkedDecoder.decode_limit hn
    simp only [hlimit] at ih
    refine ih hfits fun y hy => ?_
    rcases List.mem_append.mp hy with hy | hy
    · exact hk y hy
    · exact hx y hy
  | _ => exact hk

/-- Whole chunks are given out, and then the next size line is due. -/
theorem pull_of_chunks {ds chunks : List Bytes} (h : List.Forall₂ (IsChunk limit) ds chunks)
    (seen : List Bytes) (rest : Bytes) :
    pull { decoder := { limit }, buffer := chunks.flatten ++ rest, chunks := seen } =
      pull { decoder := { limit }, buffer := rest, chunks := seen ++ ds } := by
  induction h generalizing seen with
  | nil => simp
  | @cons d c ds cs hc _ ih =>
    obtain ⟨line, hline, hpos, hlimit, rfl⟩ := hc
    obtain ⟨text, rfl, htext, hsize⟩ := isSizeLine_iff.mp hline
    have hdecode : ChunkedDecoder.decode { limit }
        (((text ++ Bytes.crlf ++ d ++ Bytes.crlf) :: cs).flatten ++ rest) =
          (.item (.data d), { limit, phase := .dataEnd }, Bytes.crlf ++ (cs.flatten ++ rest)) := by
      have := ChunkedDecoder.decode_chunk htext hsize (List.length_pos_iff.mp hpos) hlimit
        (Bytes.crlf ++ (cs.flatten ++ rest))
      simpa only [List.flatten_cons, List.append_assoc] using this
    rw [pull_of_data rfl hdecode]
    have hnext := pull_congr
      (k := { decoder := { limit }, buffer := cs.flatten ++ rest, chunks := seen ++ [d] }) rfl
      (ChunkedDecoder.decode_dataEnd (cs.flatten ++ rest))
    rw [hnext, ih, List.append_assoc]
    rfl

/-- A size that no word holds is a fault. -/
theorem pull_of_overflow {line : Bytes} {n : Nat} (h : DenotesSize line n)
    (hn : Numeral.wordBound ≤ n) (seen : List Bytes) (rest : Bytes) :
    pull { decoder := { limit }, buffer := line ++ rest, chunks := seen } =
      { decoder := { limit }, buffer := rest, chunks := seen,
        standing := .failed (.badBody .sizeOverflow) } := by
  obtain ⟨digits, blanks, extension, rfl, htext, hof, hblanks, hext⟩ := exists_of_denotesSize h
  refine pull_of_fail rfl ?_
  rw [ChunkedDecoder.decode_of_size rfl (takeLine_of_isLine htext rest),
    parseSize_of_digits hof hblanks hext, if_neg (by omega)]

/-- **A chunked body is accepted exactly if it is one.** An intake says that the
body is complete, having given out the data `ds` and left `r`, exactly if its
bytes are a chunked body with the data `ds` and `r` behind it. No chunk that is
given out is empty or larger than the limit, also where the body never ends,
and a size that no word holds is a fault behind whatever chunks. -/
theorem feed_complete_iff (limit : Nat) (s : Bytes) :
    (∀ ds r, (((start limit).feed s).standing = .complete ∧ ((start limit).feed s).chunks = ds ∧
        ((start limit).feed s).buffer = r) ↔
      ∃ body, IsChunkedBody limit ds body ∧ s = body ++ r) ∧
    (∀ d ∈ ((start limit).feed s).chunks, 1 ≤ d.length ∧ d.length ≤ limit) ∧
    ∀ ds chunks line n rest, List.Forall₂ (IsChunk limit) ds chunks → DenotesSize line n →
      Numeral.wordBound ≤ n → s = chunks.flatten ++ line ++ rest →
      ((start limit).feed s).standing = .failed (.badBody .sizeOverflow) ∧
        ((start limit).feed s).chunks = ds := by
  refine ⟨fun ds r => ⟨?_, ?_⟩, ?_, ?_⟩
  · rintro ⟨hcomplete, rfl, rfl⟩
    obtain ⟨ds, hds, body, hbody, hle, hs⟩ := accepts_of_pull rfl hcomplete
    refine ⟨body, ?_, hs⟩
    rw [feed, hds]
    exact isChunkedBody_iff.mpr ⟨hbody, hle⟩
  · rintro ⟨body, hbody, rfl⟩
    obtain ⟨hbody, hle⟩ := isChunkedBody_iff.mp hbody
    have hpull : (start limit).feed (body ++ r) = ended limit ds r :=
      pull_of_body hbody hle [] r
    rw [hpull]
    exact ⟨rfl, rfl, rfl⟩
  · exact fits_of_pull trivial (by simp [start, append])
  · rintro ds chunks line n rest hchunks hline hn rfl
    have hpull : (start limit).feed (chunks.flatten ++ line ++ rest) =
        pull { decoder := { limit }, buffer := line ++ rest, chunks := ds } := by
      rw [List.append_assoc]
      exact pull_of_chunks hchunks [] (line ++ rest)
    rw [hpull, pull_of_overflow hline hn]
    exact ⟨rfl, rfl⟩

/-- A body with a leading zero, whitespace, an extension and a trailer line, and
a size that would be zero if it were wrapped. -/
theorem feed_complete_decorated :
    (((start 5).feed (Bytes.ofText "03 ;x\r\nabc\r\n0\r\nt: v\r\n\r\nGET")).standing = .complete ∧
      ((start 5).feed (Bytes.ofText "03 ;x\r\nabc\r\n0\r\nt: v\r\n\r\nGET")).chunks =
        [Bytes.ofText "abc"] ∧
      ((start 5).feed (Bytes.ofText "03 ;x\r\nabc\r\n0\r\nt: v\r\n\r\nGET")).buffer =
        Bytes.ofText "GET") ∧
    ((start 5).feed (Bytes.ofText "1\r\na\r\n10000000000000000\r\n\r\n")).standing =
        .failed (.badBody .sizeOverflow) ∧
      ((start 5).feed (Bytes.ofText "1\r\na\r\n10000000000000000\r\n\r\n")).chunks =
        [Bytes.ofText "a"] := by
  have hdenotes : ∀ {b : Bytes} {n : Nat}, Numeral.ofHex? b = some n → Numeral.Denotes b n :=
    Numeral.ofHex?_eq_some_iff.mp
  have hbody : IsChunkedBody 5 [Bytes.ofText "abc"]
      (Bytes.ofText "03 ;x\r\nabc\r\n0\r\nt: v\r\n\r\n") := by
    refine ⟨[Bytes.ofText "03 ;x\r\nabc\r\n"], Bytes.ofText "0\r\n", [Bytes.ofText "t: v\r\n"],
      .cons ?_ .nil, ?_, ?_, by decide +kernel⟩
    · refine ⟨Bytes.ofText "03 ;x\r\n", ⟨⟨Bytes.ofText "03", [32], Bytes.ofText ";x", ?_⟩, ?_⟩, ?_⟩
      · exact ⟨by decide +kernel, hdenotes (by decide +kernel), by decide +kernel,
          .inr ⟨Bytes.ofText "x", by decide +kernel, by decide +kernel⟩, by decide +kernel⟩
      · decide +kernel
      · decide +kernel
    · refine ⟨⟨Bytes.ofText "0", [], [], ?_⟩, by decide +kernel⟩
      exact ⟨by decide +kernel, hdenotes (by decide +kernel), by decide +kernel, .inl rfl,
        by decide +kernel⟩
    · intro t ht
      obtain rfl := List.mem_singleton.mp ht
      exact ⟨Bytes.ofText "t: v", by decide +kernel, by decide +kernel, by decide +kernel,
        by decide +kernel⟩
  have hchunk : IsChunk 5 (Bytes.ofText "a") (Bytes.ofText "1\r\na\r\n") := by
    refine ⟨Bytes.ofText "1\r\n", ⟨⟨Bytes.ofText "1", [], [], ?_⟩, ?_⟩, ?_⟩
    · exact ⟨by decide +kernel, hdenotes (by decide +kernel), by decide +kernel, .inl rfl,
        by decide +kernel⟩
    · decide +kernel
    · decide +kernel
  have hlarge : DenotesSize (Bytes.ofText "10000000000000000\r\n") Numeral.wordBound := by
    refine ⟨Bytes.ofText "10000000000000000", [], [], ?_⟩
    exact ⟨by decide +kernel, hdenotes (by decide +kernel), by decide +kernel, .inl rfl,
      by decide +kernel⟩
  constructor
  · exact ((feed_complete_iff 5 _).1 _ _).mpr ⟨_, hbody, by decide +kernel⟩
  · exact (feed_complete_iff 5 _).2.2 _ _ _ _ (Bytes.ofText "\r\n") (.cons hchunk .nil) hlarge
      (Nat.le_refl _) (by decide +kernel)

end ChunkIntake
end Http1Client
