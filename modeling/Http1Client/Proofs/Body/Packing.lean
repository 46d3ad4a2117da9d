/-
# A body as it is packed

A packing takes the pieces of a body one after the other, and goes on behind
one that is refused. What is written carries the data that was taken in front of
the end (`Packing.carries_putAll`): as it is, or in chunks that can be told
apart (`Framing.Carries.unique`).

Data behind the end is refused, but for a chunked body: there it is taken and
nothing is written for it. That is the only data that is lost.

Key definitions: `Framing.Carries`, `Piece.chunks`, `Piece.behindEnd`, `Packing`,
`Packing.Keeps`.
Key theorems: `Chunked.encodeChunk_append_inj`, `Framing.Carries.unique`,
`Packing.Keeps.put`, `Packing.carries_putAll`.
-/
import Http1Client.Proofs.Outbox

namespace Http1Client

/-! ### Chunks are told apart -/

namespace Chunked

variable {n m : Nat} {d d' x y : Bytes}

/-- The digits of a size have no carriage return in them. -/
theorem cr_notMem_hex (n : Nat) : Bytes.cr ∉ Numeral.hex n := by
  intro hcr
  have hdigit := (ofHex?_eq_some (Numeral.ofHex?_hex n)).2 _ hcr
  simp [Numeral.digitValue?, Bytes.cr] at hdigit

theorem takeWhile_sizeLine (n : Nat) (x : Bytes) :
    (Numeral.hex n ++ (Bytes.crlf ++ x)).takeWhile (· != Bytes.cr) = Numeral.hex n := by
  have hdigits : ∀ y ∈ Numeral.hex n, (y != Bytes.cr) = true := by
    intro y hy
    rw [bne_iff_ne]
    rintro rfl
    exact cr_notMem_hex n hy
  rw [List.takeWhile_append_of_pos hdigits]
  exact List.append_nil _

/-- A size line shows its size. -/
theorem sizeLine_inj (h : Numeral.hex n ++ (Bytes.crlf ++ x) = Numeral.hex m ++ (Bytes.crlf ++ y)) :
    n = m ∧ x = y := by
  have hhex : Numeral.hex n = Numeral.hex m := by
    rw [← takeWhile_sizeLine n x, h, takeWhile_sizeLine m y]
  have hsize : some n = some m := by
    rw [← Numeral.ofHex?_hex n, hhex, Numeral.ofHex?_hex m]
  rw [hhex] at h
  exact ⟨Option.some.inj hsize, List.append_cancel_left (List.append_cancel_left h)⟩

theorem encodeChunk_append (d x : Bytes) :
    encodeChunk d ++ x = Numeral.hex d.length ++ (Bytes.crlf ++ (d ++ (Bytes.crlf ++ x))) := by
  simp [encodeChunk]

theorem lastChunk_eq : lastChunk = Numeral.hex 0 ++ (Bytes.crlf ++ Bytes.crlf) := by
  rw [hex_zero]
  rfl

/-- A chunk in front shows its data, whatever comes behind. -/
theorem encodeChunk_append_inj (h : encodeChunk d ++ x = encodeChunk d' ++ y) :
    d = d' ∧ x = y := by
  rw [encodeChunk_append, encodeChunk_append] at h
  obtain ⟨hlen, hrest⟩ := sizeLine_inj h
  obtain ⟨hd, hrest⟩ := List.append_inj hrest hlen
  exact ⟨hd, List.append_cancel_left hrest⟩

/-- No chunk is the last one. -/
theorem encodeChunk_append_ne_lastChunk (hd : d ≠ []) : encodeChunk d ++ x ≠ lastChunk := by
  intro h
  rw [encodeChunk_append, lastChunk_eq] at h
  exact hd (List.length_eq_zero_iff.mp (sizeLine_inj h).1)

theorem encodeChunk_append_ne_nil : encodeChunk d ++ x ≠ [] := by
  rw [encodeChunk_append]
  exact List.append_ne_nil_of_left_ne_nil (Numeral.hex_ne_nil _) _

theorem flatMap_encodeChunk_inj : ∀ {ds ds' : List Bytes},
    ds.flatMap encodeChunk = ds'.flatMap encodeChunk → ds = ds'
  | [], [], _ => rfl
  | [], d' :: ds', h => absurd h.symm encodeChunk_append_ne_nil
  | d :: ds, [], h => absurd h encodeChunk_append_ne_nil
  | d :: ds, d' :: ds', h => by
    rw [List.flatMap_cons, List.flatMap_cons] at h
    obtain ⟨rfl, hrest⟩ := encodeChunk_append_inj h
    rw [flatMap_encodeChunk_inj hrest]

/-- Chunks without a last one are not a whole body. -/
theorem flatMap_encodeChunk_ne_encodeBody : ∀ {ds ds' : List Bytes}, (∀ d ∈ ds, d ≠ []) →
    ds.flatMap encodeChunk ≠ encodeBody ds'
  | [], [], _, h => absurd h (by decide)
  | [], d' :: ds', _, h => by
    rw [encodeBody, List.flatMap_cons, List.append_assoc] at h
    exact encodeChunk_append_ne_nil h.symm
  | d :: ds, [], hds, h => encodeChunk_append_ne_lastChunk (hds d (List.mem_cons_self ..)) h
  | d :: ds, d' :: ds', hds, h => by
    rw [encodeBody, List.flatMap_cons, List.flatMap_cons, List.append_assoc] at h
    exact flatMap_encodeChunk_ne_encodeBody (fun x hx => hds x (List.mem_cons_of_mem _ hx))
      (encodeChunk_append_inj h).2

theorem encodeBody_inj {ds ds' : List Bytes} (h : encodeBody ds = encodeBody ds') : ds = ds' :=
  flatMap_encodeChunk_inj (List.append_cancel_right h)

end Chunked

/-! ### What is carried -/

namespace Framing

/-- The bytes are written of a body that is framed so, whole or not, and carry
this data. -/
inductive Carries : Framing → Bytes → Bytes → Prop where
  | length {n : Nat} {b : Bytes} : b.length ≤ n → Carries (.length n) b b
  | empty : Carries .empty [] []
  | chunks {ds chunks : List Bytes} : List.Forall₂ Chunked.IsPlainChunk ds chunks →
      Carries .chunked chunks.flatten ds.flatten
  | ended {ds : List Bytes} {b : Bytes} : Chunked.IsPlainBody ds b →
      Carries .chunked b ds.flatten

/-- Of a chunked body there are chunks, and the last one or not. -/
theorem carries_chunked_iff {b x : Bytes} : Carries .chunked b x ↔ ∃ ds : List Bytes,
    (∀ d ∈ ds, d ≠ []) ∧ x = ds.flatten ∧
      (b = ds.flatMap Chunked.encodeChunk ∨ b = Chunked.encodeBody ds) := by
  constructor
  · intro h
    cases h with
    | @chunks ds _ hchunks =>
      obtain ⟨hds, rfl⟩ := Chunked.forall₂_isPlainChunk_iff.mp hchunks
      exact ⟨ds, hds, rfl, .inl (List.flatMap_def ..).symm⟩
    | @ended ds _ hbody =>
      obtain ⟨hds, hb⟩ := Chunked.isPlainBody_iff.mp hbody
      exact ⟨ds, hds, rfl, .inr hb⟩
  · rintro ⟨ds, hds, rfl, rfl | rfl⟩
    · rw [List.flatMap_def]
      exact .chunks (Chunked.forall₂_isPlainChunk_iff.mpr ⟨hds, rfl⟩)
    · exact .ended (Chunked.isPlainBody_iff.mpr ⟨hds, rfl⟩)

/-- What is written shows what it carries. -/
theorem Carries.unique {f : Framing} {b x y : Bytes} (hx : f.Carries b x) (hy : f.Carries b y) :
    x = y := by
  cases f with
  | length n =>
    cases hx
    cases hy
    rfl
  | chunked =>
    obtain ⟨ds, hds, rfl, hb⟩ := carries_chunked_iff.mp hx
    obtain ⟨ds', hds', rfl, hb'⟩ := carries_chunked_iff.mp hy
    rcases hb with rfl | rfl <;> rcases hb' with hb' | hb'
    · rw [Chunked.flatMap_encodeChunk_inj hb']
    · exact absurd hb' (Chunked.flatMap_encodeChunk_ne_encodeBody hds)
    · exact absurd hb'.symm (Chunked.flatMap_encodeChunk_ne_encodeBody hds')
    · rw [Chunked.encodeBody_inj hb']
  | untilClose => cases hx
  | empty =>
    cases hx
    cases hy
    rfl

end Framing

/-! ### Pieces in front of the end and behind it -/

namespace Piece

/-- The data in front of the end, but for empty data. -/
def chunks (ps : List Piece) : List Bytes :=
  ((ps.takeWhile isData).map bytes).filter (· ≠ [])

/-- The data behind the end. -/
def behindEnd (ps : List Piece) : Bytes := (ps.dropWhile isData).flatMap bytes

variable {ps : List Piece} {p : Piece} {x : Bytes}

theorem ne_nil_of_mem_chunks : ∀ d ∈ chunks ps, d ≠ [] := by
  intro d hd
  simpa using (List.mem_filter.mp hd).2

theorem takeWhile_append_of_mem : ∀ {ps : List Piece}, finish ∈ ps →
    (ps ++ [p]).takeWhile isData = ps.takeWhile isData ∧
      (ps ++ [p]).dropWhile isData = ps.dropWhile isData ++ [p]
  | finish :: _, _ => ⟨rfl, rfl⟩
  | data x :: ps, h => by
    have hmem : finish ∈ ps := by simpa using h
    obtain ⟨htake, hdrop⟩ := takeWhile_append_of_mem hmem
    exact ⟨congrArg (data x :: ·) htake, hdrop⟩

theorem takeWhile_append_of_notMem : ∀ {ps : List Piece}, finish ∉ ps →
    (ps ++ [p]).takeWhile isData = ps.takeWhile isData ++ [p].takeWhile isData ∧
      (ps ++ [p]).dropWhile isData = [p].dropWhile isData ∧ ps.dropWhile isData = []
  | [], _ => ⟨rfl, rfl, rfl⟩
  | finish :: _, h => absurd (List.mem_cons_self ..) h
  | data x :: ps, h => by
    have hmem : finish ∉ ps := by simpa using h
    obtain ⟨htake, hdrop, hnone⟩ := takeWhile_append_of_notMem hmem
    exact ⟨congrArg (data x :: ·) htake, hdrop, hnone⟩

theorem chunks_append_of_mem (h : finish ∈ ps) : chunks (ps ++ [p]) = chunks ps := by
  rw [chunks, (takeWhile_append_of_mem h).1, chunks]

theorem chunks_append_data (h : finish ∉ ps) (hx : x ≠ []) :
    chunks (ps ++ [data x]) = chunks ps ++ [x] := by
  rw [chunks, (takeWhile_append_of_notMem h).1, List.map_append, List.filter_append, chunks]
  simp [List.takeWhile, isData, bytes, hx]

theorem behindEnd_of_notMem (h : finish ∉ ps) : behindEnd ps = [] := by
  rw [behindEnd, (takeWhile_append_of_notMem (p := finish) h).2.2, List.flatMap_nil]

/-- The end, and empty data, add nothing. -/
theorem chunks_append_silent (hp : p.bytes = []) : chunks (ps ++ [p]) = chunks ps := by
  by_cases h : finish ∈ ps
  · exact chunks_append_of_mem h
  · rw [chunks, (takeWhile_append_of_notMem h).1, List.map_append, List.filter_append, chunks]
    cases p with
    | finish => simp [List.takeWhile, isData]
    | data x =>
      obtain rfl : x = [] := hp
      simp [List.takeWhile, isData, bytes]

theorem behindEnd_append_silent (hp : p.bytes = []) : behindEnd (ps ++ [p]) = behindEnd ps := by
  by_cases h : finish ∈ ps
  · rw [behindEnd, (takeWhile_append_of_mem h).2, List.flatMap_append, behindEnd]
    simp [hp]
  · rw [behindEnd_of_notMem h, behindEnd, (takeWhile_append_of_notMem h).2.1]
    cases p <;> simp [List.dropWhile, isData, bytes]

/-- All data is in front of the end or behind it. -/
theorem flatten_chunks_append (ps : List Piece) :
    (chunks ps).flatten ++ behindEnd ps = ps.flatMap bytes := by
  rw [chunks, List.flatten_filter_ne_nil, behindEnd, ← List.flatMap_def, ← List.flatMap_append,
    List.takeWhile_append_dropWhile]

end Piece

/-! ### Packing -/

/-- A body in the making: what is written of it, and the pieces that were
taken, in order. -/
structure Packing where
  encoder : BodyEncoder
  written : Bytes := []
  taken : List Piece := []

namespace Packing

/-- Takes a piece, or refuses it. -/
def put (k : Packing) (p : Piece) : Packing :=
  match k.encoder.push p with
  | (.ok bytes, e) => { encoder := e, written := k.written ++ bytes, taken := k.taken ++ [p] }
  | (.error _, e) => { k with encoder := e }

/-- Takes pieces one after the other, also behind one that is refused. -/
def putAll (k : Packing) (ps : List Piece) : Packing := ps.foldl put k

/-- What is written, and what is still due, go by the pieces that were taken. -/
inductive Keeps : Framing → Packing → Prop where
  | length {n left : Nat} {ps : List Piece} : 0 < n → (Piece.chunks ps).flatten.length + left = n →
      (Piece.finish ∈ ps → left = 0) → Piece.behindEnd ps = [] →
      Keeps (.length n) ⟨.length left, (Piece.chunks ps).flatten, ps⟩
  | nothing {f : Framing} {ps : List Piece} : f.isEmpty = true → Piece.chunks ps = [] →
      Piece.behindEnd ps = [] → Keeps f ⟨.empty, [], ps⟩
  | chunks {ps : List Piece} : Piece.finish ∉ ps →
      Keeps .chunked ⟨.chunked false, (Piece.chunks ps).flatMap Chunked.encodeChunk, ps⟩
  | ended {ps : List Piece} : Piece.finish ∈ ps →
      Keeps .chunked ⟨.chunked true, Chunked.encodeBody (Piece.chunks ps), ps⟩

section Put

variable {f : Framing} {k : Packing} {p : Piece}

theorem put_of_ok {bytes : Bytes} {e : BodyEncoder} (h : k.encoder.push p = (.ok bytes, e)) :
    k.put p = { encoder := e, written := k.written ++ bytes, taken := k.taken ++ [p] } := by
  rw [put, h]

/-- A refusal changes nothing. -/
theorem put_of_error {fault : EncodeError} {e : BodyEncoder}
    (h : k.encoder.push p = (.error fault, e)) : k.put p = k := by
  obtain ⟨rfl, -⟩ := BodyEncoder.push_refused h
  rw [put, h]

/-- A piece that is taken and for which nothing is written. -/
theorem put_of_silent (h : k.encoder.push p = (.ok [], k.encoder)) :
    k.put p = { k with taken := k.taken ++ [p] } := by
  rw [put_of_ok h, List.append_nil]

theorem keeps_ofFraming {e : BodyEncoder} (h : BodyEncoder.ofFraming f = .ok e) :
    Keeps f { encoder := e } := by
  cases f with
  | length n =>
    obtain rfl := Except.ok.inj h
    by_cases hn : n = 0
    · rw [if_pos hn]
      exact .nothing (by simp [Framing.isEmpty, hn]) rfl rfl
    · rw [if_neg hn]
      exact @Keeps.length n n [] (Nat.pos_of_ne_zero hn) (Nat.zero_add n) (by simp) rfl
  | chunked =>
    obtain rfl := Except.ok.inj h
    exact @Keeps.chunks [] (by simp)
  | untilClose => cases h
  | empty =>
    obtain rfl := Except.ok.inj h
    exact .nothing rfl rfl rfl

/-- A piece without data that is taken and leaves the encoder as it is. -/
theorem Keeps.silent (h : Keeps f k) (hp : p.bytes = [])
    (hend : p = .finish → k.encoder.isFinished = true) :
    Keeps f { k with taken := k.taken ++ [p] } := by
  cases h with
  | @length n left ps hn hlen hleft hlost =>
    rw [← Piece.chunks_append_silent hp] at hlen ⊢
    refine .length hn hlen (fun hmem => ?_) (by rw [Piece.behindEnd_append_silent hp, hlost])
    rcases List.mem_append.mp hmem with hmem | hmem
    · exact hleft hmem
    · simpa [BodyEncoder.isFinished] using hend (List.mem_singleton.mp hmem).symm
  | nothing hf hchunks hlost =>
    exact .nothing hf (by rw [Piece.chunks_append_silent hp, hchunks])
      (by rw [Piece.behindEnd_append_silent hp, hlost])
  | @chunks ps hps =>
    rw [← Piece.chunks_append_silent hp]
    refine .chunks fun hmem => ?_
    rcases List.mem_append.mp hmem with hmem | hmem
    · exact hps hmem
    · exact absurd (hend (List.mem_singleton.mp hmem).symm) (by simp [BodyEncoder.isFinished])
  | @ended ps hps =>
    rw [← Piece.chunks_append_silent hp]
    exact .ended (List.mem_append_left _ hps)

theorem Keeps.put_data {x : Bytes} (h : Keeps f k) (hx : x ≠ []) : Keeps f (k.put (.data x)) := by
  obtain ⟨y, ys, rfl⟩ := List.exists_cons_of_ne_nil hx
  cases h with
  | @length n left ps hn hlen hleft hlost =>
    by_cases hfit : (y :: ys).length ≤ left
    -- Behind the end nothing is due, so a piece with data would not fit.
    · have hps : Piece.finish ∉ ps := fun hmem => by
        rw [hleft hmem, List.length_cons] at hfit
        omega
      have hmem : Piece.finish ∉ ps ++ [.data (y :: ys)] := by simp [hps]
      have hflat : (Piece.chunks ps).flatten ++ (y :: ys) =
          (Piece.chunks (ps ++ [.data (y :: ys)])).flatten := by
        rw [Piece.chunks_append_data hps hx, List.flatten_append, List.flatten_singleton]
      rw [put_of_ok (by rw [BodyEncoder.push, if_pos hfit]; simp)]
      dsimp only
      rw [hflat]
      refine .length hn ?_ (fun h => absurd h hmem) (Piece.behindEnd_of_notMem hmem)
      rw [← hflat, List.length_append]
      omega
    · rw [put_of_error (by rw [BodyEncoder.push, if_neg hfit]; simp)]
      exact .length hn hlen hleft hlost
  | nothing hf hchunks hlost =>
    rw [put_of_error rfl]
    exact .nothing hf hchunks hlost
  | @chunks ps hps =>
    have hbytes : (Piece.chunks ps).flatMap Chunked.encodeChunk ++ Chunked.encodeChunk (y :: ys) =
        (Piece.chunks (ps ++ [.data (y :: ys)])).flatMap Chunked.encodeChunk := by
      rw [Piece.chunks_append_data hps hx, List.flatMap_append, List.flatMap_singleton]
    rw [put_of_ok (BodyEncoder.push_chunk hx)]
    dsimp only
    rw [hbytes]
    exact .chunks (by simp [hps])
  | @ended ps hps =>
    rw [put_of_silent rfl]
    dsimp only
    rw [← Piece.chunks_append_of_mem hps]
    exact .ended (List.mem_append_left _ hps)

theorem Keeps.put_finish (h : Keeps f k) : Keeps f (k.put .finish) := by
  cases h with
  | @length n left ps hn hlen hleft hlost =>
    by_cases h0 : left = 0
    · rw [put_of_silent (by rw [BodyEncoder.push, if_pos h0])]
      exact (Keeps.length hn hlen hleft hlost).silent rfl fun _ => by
        simp [BodyEncoder.isFinished, h0]
    · rw [put_of_error (by rw [BodyEncoder.push, if_neg h0])]
      exact .length hn hlen hleft hlost
  | nothing hf hchunks hlost =>
    rw [put_of_silent rfl]
    exact (Keeps.nothing hf hchunks hlost).silent rfl fun _ => rfl
  | @chunks ps hps =>
    rw [put_of_ok rfl]
    dsimp only
    have hsame : Piece.chunks (ps ++ [.finish]) = Piece.chunks ps := Piece.chunks_append_silent rfl
    rw [← hsame]
    exact .ended (List.mem_append_right _ (List.mem_singleton_self _))
  | ended hps =>
    rw [put_of_silent rfl]
    exact (Keeps.ended hps).silent rfl fun _ => rfl

/-- What is written goes by what was taken, piece by piece. -/
theorem Keeps.put (h : Keeps f k) : ∀ p : Piece, Keeps f (k.put p)
  | .data [] => by
    have hpush : k.encoder.push (.data []) = (.ok [], k.encoder) := by
      rcases k.encoder with _ | (_ | _) | _ <;> rfl
    rw [put_of_silent hpush]
    exact h.silent rfl (by simp)
  | .data (x :: xs) => h.put_data (List.cons_ne_nil x xs)
  | .finish => h.put_finish

theorem Keeps.putAll : ∀ (ps : List Piece) {k : Packing}, Keeps f k → Keeps f (k.putAll ps)
  | [], _, h => h
  | p :: ps, _, h => Keeps.putAll ps (h.put p)

/-- A chunked body takes every piece. -/
theorem Keeps.taken_put (h : Keeps .chunked k) (p : Piece) : (k.put p).taken = k.taken ++ [p] := by
  obtain ⟨bytes, e, hpush⟩ : ∃ bytes e, k.encoder.push p = (.ok bytes, e) := by
    cases h with
    | nothing hf => cases hf
    | chunks _ => rcases p with (_ | _) | _ <;> exact ⟨_, _, rfl⟩
    | ended _ => exact ⟨_, _, rfl⟩
  rw [put_of_ok hpush]

theorem Keeps.taken_putAll : ∀ (ps : List Piece) {k : Packing}, Keeps .chunked k →
    (k.putAll ps).taken = k.taken ++ ps
  | [], _, _ => (List.append_nil _).symm
  | p :: ps, k, h => by
    have hrest : ((k.put p).putAll ps).taken = (k.put p).taken ++ ps :=
      Keeps.taken_putAll ps (h.put p)
    rw [h.taken_put p, List.append_assoc] at hrest
    exact hrest

end Put

/-! ### What comes of it -/

section Kept

variable {f : Framing} {k : Packing}

theorem eq_of_isEmpty (h : f.isEmpty = true) : f = .length 0 ∨ f = .empty := by
  cases f <;> simp_all [Framing.isEmpty]

theorem Keeps.carries (h : Keeps f k) : f.Carries k.written (Piece.chunks k.taken).flatten := by
  cases h with
  | length hn hlen => exact .length (Nat.le.intro hlen)
  | nothing hf hchunks =>
    dsimp only
    rw [hchunks, List.flatten_nil]
    rcases eq_of_isEmpty hf with rfl | rfl
    · exact .length (Nat.le_refl 0)
    · exact .empty
  | chunks _ =>
    exact Framing.carries_chunked_iff.mpr ⟨_, Piece.ne_nil_of_mem_chunks, rfl, .inl rfl⟩
  | ended _ =>
    exact Framing.carries_chunked_iff.mpr ⟨_, Piece.ne_nil_of_mem_chunks, rfl, .inr rfl⟩

/-- Only a chunked body takes data behind the end. -/
theorem Keeps.behindEnd (h : Keeps f k) (hf : f ≠ .chunked) : Piece.behindEnd k.taken = [] := by
  cases h with
  | length _ _ _ hlost => exact hlost
  | nothing _ _ hlost => exact hlost
  | chunks _ => exact absurd rfl hf
  | ended _ => exact absurd rfl hf

/-- All data that was taken is carried, unless some was taken behind the end. -/
theorem Keeps.carries_all_iff (h : Keeps f k) :
    f.Carries k.written (k.taken.flatMap Piece.bytes) ↔ Piece.behindEnd k.taken = [] := by
  rw [← Piece.flatten_chunks_append]
  constructor
  · intro hall
    have heq := hall.unique h.carries
    simpa using heq
  · intro hnone
    rw [hnone, List.append_nil]
    exact h.carries

theorem Keeps.isFinished_iff (h : Keeps f k) :
    k.encoder.isFinished = true ↔ f.IsComplete k.written := by
  cases h with
  | length hn hlen =>
    simp only [BodyEncoder.isFinished, beq_iff_eq, Framing.IsComplete]
    omega
  | nothing hf =>
    rcases eq_of_isEmpty hf with rfl | rfl <;> simp [BodyEncoder.isFinished, Framing.IsComplete]
  | chunks _ =>
    constructor
    · simp [BodyEncoder.isFinished]
    · rintro ⟨ds, hbody⟩
      obtain ⟨-, hwhole⟩ := Chunked.isPlainBody_iff.mp hbody
      exact absurd hwhole (Chunked.flatMap_encodeChunk_ne_encodeBody Piece.ne_nil_of_mem_chunks)
  | @ended ps _ =>
    have hwhole : Chunked.IsPlainBody (Piece.chunks ps) (Chunked.encodeBody (Piece.chunks ps)) :=
      Chunked.isPlainBody_iff.mpr ⟨Piece.ne_nil_of_mem_chunks, rfl⟩
    exact ⟨fun _ => ⟨_, hwhole⟩, fun _ => rfl⟩

/-- A declared length is never passed, and the end is taken just where it is
reached. -/
theorem Keeps.of_length {n : Nat} (h : Keeps (.length n) k) : k.written.length ≤ n ∧
    ((∃ bytes e, k.encoder.push .finish = (.ok bytes, e)) ↔ k.written.length = n) := by
  cases h with
  | @length _ left ps hn hlen =>
    dsimp only
    refine ⟨Nat.le.intro hlen, ?_, fun hall => ⟨[], .length left, ?_⟩⟩
    · rintro ⟨bytes, e, hpush⟩
      rw [BodyEncoder.push] at hpush
      split at hpush
      · omega
      · cases hpush
    · rw [BodyEncoder.push, if_pos (by omega)]
  | nothing hf =>
    obtain rfl : n = 0 := by simpa [Framing.isEmpty] using hf
    exact ⟨Nat.le_refl 0, fun _ => rfl, fun _ => ⟨_, _, rfl⟩⟩

end Kept

/-- **Data is carried or refused**, but for data that a chunked body is given
behind its end. What is written carries the data that was taken in front of the
end; it carries all that was taken just if none was taken behind it, and only a
chunked body, which refuses nothing, takes any there. A refusal changes nothing.
A declared length is never passed, and the end is taken just where it is
reached. The encoder is finished just when what is written is a whole body. -/
theorem carries_putAll {f : Framing} {e : BodyEncoder} {ps : List Piece} {k : Packing}
    (he : BodyEncoder.ofFraming f = .ok e) (hk : putAll { encoder := e } ps = k) :
    f.Carries k.written (Piece.chunks k.taken).flatten ∧
      (f.Carries k.written (k.taken.flatMap Piece.bytes) ↔ Piece.behindEnd k.taken = []) ∧
      (f ≠ .chunked → Piece.behindEnd k.taken = []) ∧ (f = .chunked → k.taken = ps) ∧
      (∀ p fault e', k.encoder.push p = (.error fault, e') → k.put p = k) ∧
      (∀ n, f = .length n → k.written.length ≤ n ∧
        ((∃ bytes e', k.encoder.push .finish = (.ok bytes, e')) ↔ k.written.length = n)) ∧
      (k.encoder.isFinished = true ↔ f.IsComplete k.written) := by
  have hstart := keeps_ofFraming he
  have h : Keeps f k := hk ▸ hstart.putAll ps
  refine ⟨h.carries, h.carries_all_iff, h.behindEnd, ?_, fun _ _ _ => put_of_error, ?_,
    h.isFinished_iff⟩
  · rintro rfl
    rw [← hk, hstart.taken_putAll ps, List.nil_append]
  · rintro n rfl
    exact h.of_length

/-- Two bytes are declared. An end behind the first is refused, and so is a
third byte. -/
theorem carries_putAll_early : ∃ k,
    putAll { encoder := .length 2 } [.data [97], .finish, .data [98], .data [99], .finish] = k ∧
      k.taken = [.data [97], .data [98], .finish] ∧
      Framing.Carries (.length 2) [97, 98] (k.taken.flatMap Piece.bytes) ∧
      k.encoder.isFinished = true := by
  have hall := @carries_putAll (.length 2) (.length 2)
    [.data [97], .finish, .data [98], .data [99], .finish] _ rfl rfl
  exact ⟨_, rfl, rfl, hall.2.1.mpr rfl, hall.2.2.2.2.2.2.mpr rfl⟩

/-- Behind the end of a chunked body a byte is taken, and not written. -/
theorem taken_behind_end : ∃ e k, BodyEncoder.ofFraming .chunked = .ok e ∧
    putAll { encoder := e } [.finish, .data [120]] = k ∧ k.taken = [.finish, .data [120]] ∧
      k.written = Chunked.lastChunk ∧
      ¬ Framing.Carries .chunked k.written (k.taken.flatMap Piece.bytes) := by
  refine ⟨_, _, rfl, rfl, rfl, rfl, fun h => ?_⟩
  have hempty : Framing.Carries .chunked (Chunked.encodeBody []) [] :=
    Framing.carries_chunked_iff.mpr ⟨[], by simp, rfl, .inr rfl⟩
  exact absurd (h.unique hempty) (by decide)

end Packing

end Http1Client
