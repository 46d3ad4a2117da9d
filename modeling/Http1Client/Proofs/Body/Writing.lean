/-
# Bodies that are written

A size is written in its hexadecimal digits (`Numeral.isHex_iff`), which read
back as the size (`Numeral.ofHex?_hex`) and which a size line has room for
(`Numeral.length_hex_le`). So a chunked body that is written is one that the
grammar knows (`Chunked.body_encodeBody`), whatever bytes its data are. What its
bytes are is said without the writer (`Chunked.IsPlainBody`): each chunk is its
size, its data and the two line ends, and behind the chunks there is the one of
size zero.

`segments` cuts a body into full pieces and a rest (`cut_segments`). What a
sender puts into its buffer for a whole body is the body or its segments as
chunks, and never a refusal (`Sender.putBody_eq`).

Key definitions: `Numeral.IsHex`, `Chunked.IsPlainBody`, `Chunked.encodeBody`,
`Cut`, `BodyEncoder.pushAll`, `RequestHead.bodyBytes`.
Key theorems: `Numeral.isHex_iff`, `Numeral.ofHex?_hex`,
`Chunked.isPlainBody_iff`, `Chunked.body_encodeBody`, `cut_segments`,
`BodyEncoder.pushAll_chunks`, `Sender.putBody_eq`.
-/
import Mathlib.Data.List.Forall2
import Http1Client.Sender
import Http1Client.Proofs.Body.ChunkGrammar

namespace Http1Client

/-! ### Sizes -/

namespace Numeral

/-- The byte is the hexadecimal digit of this value, as a capital letter. -/
def IsCapitalDigit (x : UInt8) (v : Nat) : Prop :=
  (Bytes.ofText "0123456789ABCDEF")[v]? = some x

/-- The digits are the number in hexadecimal, in capital letters and with no
zero in front. -/
inductive IsHex : Bytes → Nat → Prop where
  | digit {x : UInt8} {v : Nat} : IsCapitalDigit x v → IsHex [x] v
  | behind {b : Bytes} {x : UInt8} {n v : Nat} : IsHex b n → 0 < n → IsCapitalDigit x v →
      IsHex (b ++ [x]) (16 * n + v)

theorem isCapitalDigit_iff {x : UInt8} {v : Nat} : IsCapitalDigit x v ↔ v < 16 ∧ x = digit v := by
  have hdigit : ∀ v < 16, (Bytes.ofText "0123456789ABCDEF")[v]? = some (digit v) := by decide
  constructor
  · intro h
    obtain ⟨hlt, -⟩ := List.getElem?_eq_some_iff.mp h
    have hv : v < 16 := hlt
    exact ⟨hv, Option.some.inj (h.symm.trans (hdigit v hv))⟩
  · rintro ⟨hv, rfl⟩
    exact hdigit v hv

/-- The digits that are written for a number are those of it. -/
theorem isHex_hex (n : Nat) : IsHex (hex n) n := by
  induction n using Nat.strongRecOn with
  | ind n ih =>
    rw [hex]
    split
    · next h => exact .digit (isCapitalDigit_iff.mpr ⟨h, rfl⟩)
    · next h =>
      have hlast : n % 16 < 16 := Nat.mod_lt n (by decide)
      have hbehind := (ih (n / 16) (by omega)).behind (by omega)
        (isCapitalDigit_iff.mpr ⟨hlast, rfl⟩)
      rwa [Nat.div_add_mod] at hbehind

/-- No other digits are those of the number. -/
theorem isHex_iff {b : Bytes} {n : Nat} : IsHex b n ↔ b = hex n := by
  constructor
  · intro h
    induction h with
    | digit hx =>
      obtain ⟨hv, rfl⟩ := isCapitalDigit_iff.mp hx
      rw [hex, if_pos hv]
    | @behind b x n v _ hn hx ih =>
      obtain ⟨hv, rfl⟩ := isCapitalDigit_iff.mp hx
      have hdiv : (16 * n + v) / 16 = n := by omega
      have hmod : (16 * n + v) % 16 = v := by omega
      rw [hex, if_neg (by omega), hdiv, hmod, ih]
  · rintro rfl
    exact isHex_hex n

theorem digitValue?_digit : ∀ {d : Nat}, d < 16 → digitValue? (digit d) = some d
  | 0, _ | 1, _ | 2, _ | 3, _ | 4, _ | 5, _ | 6, _ | 7, _ | 8, _ | 9, _ | 10, _ | 11, _ | 12, _
  | 13, _ | 14, _ | 15, _ => by decide
  | _ + 16, h => absurd h (by omega)

theorem hex_ne_nil (n : Nat) : hex n ≠ [] := by
  rw [hex]
  split <;> simp

/-- The digits of a size denote it. -/
theorem value_hex (n : Nat) : ∃ ds, (hex n).mapM digitValue? = some ds ∧ value 16 0 ds = n := by
  induction n using Nat.strongRecOn with
  | ind n ih =>
    rw [hex]
    split
    · next h => exact ⟨[n], by simp [digitValue?_digit h], by simp [value]⟩
    · next h =>
      obtain ⟨ds, hds, hvalue⟩ := ih (n / 16) (by omega)
      refine ⟨ds ++ [n % 16], ?_, ?_⟩
      · simp [hds, digitValue?_digit (Nat.mod_lt n (by decide : 0 < 16))]
      · rw [value_append, hvalue]
        simp only [value]
        omega

/-- A size reads back as it was written. -/
theorem ofHex?_hex (n : Nat) : ofHex? (hex n) = some n := by
  obtain ⟨ds, hds, hvalue⟩ := value_hex n
  rw [ofHex?, if_neg (hex_ne_nil n), hds, Option.map_some, hvalue]

theorem length_hex_le : ∀ {k n : Nat}, n < Nat.pow 16 (k + 1) → (hex n).length ≤ k + 1
  | 0, n, h => by
    rw [hex, if_pos (show n < 16 from h)]
    exact Nat.le_refl 1
  | k + 1, n, h => by
    rw [hex]
    split
    · exact Nat.le_add_left 1 (k + 1)
    · have hmul : n < 16 * Nat.pow 16 (k + 1) := Nat.mul_comm .. ▸ h
      have hdiv : n / 16 < Nat.pow 16 (k + 1) := Nat.div_lt_of_lt_mul hmul
      rw [List.length_append, List.length_singleton]
      exact Nat.succ_le_succ (length_hex_le hdiv)

end Numeral

/-! ### Chunked bodies -/

namespace Chunked

/-- The digits of a size are a line. -/
theorem isLine_hex {n : Nat} (h : n < Numeral.wordBound) : IsLine (Numeral.hex n) := by
  constructor
  · intro hlf
    have := (ofHex?_eq_some (Numeral.ofHex?_hex n)).2 _ hlf
    simp [Numeral.digitValue?, Bytes.lf] at this
  · have hlen : (Numeral.hex n).length ≤ 15 + 1 := Numeral.length_hex_le h
    unfold lineLimit
    omega

theorem isSize_hex {n : Nat} (h : n < Numeral.wordBound) : IsSize (Numeral.hex n) n :=
  ⟨Numeral.hex n, [], [], by simp, Numeral.ofHex?_hex n, h, by simp, .inl rfl⟩

theorem hex_zero : Numeral.hex 0 = [48] := by
  rw [Numeral.hex]
  rfl

/-- The chunked body with these chunks, none of them empty. -/
def encodeBody (ds : List Bytes) : Bytes := ds.flatMap encodeChunk ++ lastChunk

/-- The bytes are a chunk with this data and nothing that it could do without:
the size, a line end, the data and a line end. -/
def IsPlainChunk (data chunk : Bytes) : Prop :=
  data ≠ [] ∧ ∃ size, Numeral.IsHex size data.length ∧
    chunk = size ++ Bytes.crlf ++ data ++ Bytes.crlf

/-- The bytes are a chunked body of such chunks, with the one of size zero and
an empty line behind them. -/
def IsPlainBody (ds : List Bytes) (body : Bytes) : Prop :=
  ∃ chunks, List.Forall₂ IsPlainChunk ds chunks ∧ body = chunks.flatten ++ Bytes.ofText "0\r\n\r\n"

theorem isPlainChunk_iff {data chunk : Bytes} :
    IsPlainChunk data chunk ↔ data ≠ [] ∧ chunk = encodeChunk data := by
  simp only [IsPlainChunk, Numeral.isHex_iff, exists_eq_left, encodeChunk]

/-- A row of chunks is written chunk by chunk. -/
theorem forall₂_isPlainChunk_iff {ds chunks : List Bytes} :
    List.Forall₂ IsPlainChunk ds chunks ↔ (∀ d ∈ ds, d ≠ []) ∧ chunks = ds.map encodeChunk := by
  constructor
  · intro h
    induction h with
    | nil => exact ⟨by simp, rfl⟩
    | cons hchunk _ ih =>
      obtain ⟨hne, rfl⟩ := isPlainChunk_iff.mp hchunk
      obtain ⟨hrest, rfl⟩ := ih
      exact ⟨List.forall_mem_cons.mpr ⟨hne, hrest⟩, rfl⟩
  · rintro ⟨hne, rfl⟩
    rw [List.forall₂_map_right_iff, List.forall₂_same]
    exact fun d hd => isPlainChunk_iff.mpr ⟨hne d hd, rfl⟩

/-- What is written for a row of pieces is the body with these chunks, and
there is no other one. -/
theorem isPlainBody_iff {ds : List Bytes} {body : Bytes} :
    IsPlainBody ds body ↔ (∀ d ∈ ds, d ≠ []) ∧ body = encodeBody ds := by
  have hbody : (ds.map encodeChunk).flatten ++ Bytes.ofText "0\r\n\r\n" = encodeBody ds := by
    rw [encodeBody, List.flatMap_def]
    rfl
  constructor
  · rintro ⟨chunks, hchunks, rfl⟩
    obtain ⟨hne, rfl⟩ := forall₂_isPlainChunk_iff.mp hchunks
    exact ⟨hne, hbody⟩
  · rintro ⟨hne, rfl⟩
    exact ⟨ds.map encodeChunk, forall₂_isPlainChunk_iff.mpr ⟨hne, rfl⟩, hbody.symm⟩

/-- A chunked body that is written is one. Its chunks are what was given to
write. -/
theorem body_encodeBody : ∀ {ds : List Bytes},
    (∀ d ∈ ds, d ≠ [] ∧ d.length < Numeral.wordBound) → Body ds (encodeBody ds)
  | [], _ => by
    have hlast : encodeBody [] = Numeral.hex 0 ++ Bytes.crlf ++ Bytes.crlf := by
      rw [hex_zero]
      rfl
    rw [hlast]
    exact .last (isLine_hex (by decide)) (isSize_hex (by decide)) .done
  | d :: ds, h => by
    obtain ⟨hne, hlt⟩ := h d (List.mem_cons_self ..)
    have hrest : Body ds (encodeBody ds) :=
      body_encodeBody fun x hx => h x (List.mem_cons_of_mem _ hx)
    have hfirst : encodeBody (d :: ds) =
        Numeral.hex d.length ++ Bytes.crlf ++ (d ++ (Bytes.crlf ++ encodeBody ds)) := by
      simp [encodeBody, encodeChunk]
    rw [hfirst]
    exact .chunk (isLine_hex hlt) (isSize_hex hlt) hne hrest

end Chunked

/-! ### Segments -/

/-- The pieces are what a body is cut into, `n` bytes each but for the last one. -/
structure Cut (n : Nat) (body : Bytes) (pieces : List Bytes) : Prop where
  flatten : pieces.flatten = body
  count : pieces.length = (body.length + n - 1) / n
  ne_nil : ∀ x ∈ pieces, x ≠ []
  full : ∀ x ∈ pieces.dropLast, x.length = n
  le : ∀ x ∈ pieces, x.length ≤ n

theorem cut_nil {n : Nat} (hn : 0 < n) : Cut n [] [] where
  flatten := rfl
  count := by
    simp only [List.length_nil, Nat.zero_add]
    exact (Nat.div_eq_of_lt (by omega)).symm
  ne_nil := by simp
  full := by simp
  le := by simp

/-- One more piece in front: a full one, unless nothing comes behind it. -/
theorem Cut.cons {n : Nat} {x body : Bytes} {pieces : List Bytes} (hn : 0 < n) (hx : x ≠ [])
    (hfull : x.length = n ∨ x.length ≤ n ∧ body = []) (h : Cut n body pieces) :
    Cut n (x ++ body) (x :: pieces) where
  flatten := by rw [List.flatten_cons, h.flatten]
  count := by
    have hpos := List.length_pos_iff.mpr hx
    rw [List.length_cons, h.count, List.length_append]
    rcases hfull with hfull | ⟨hle, rfl⟩
    · rw [hfull, show n + body.length + n - 1 = body.length + n - 1 + n by omega,
        Nat.add_div_right _ hn]
    · simp only [List.length_nil, Nat.zero_add, Nat.add_zero]
      rw [Nat.div_eq_of_lt (by omega), show x.length + n - 1 = x.length - 1 + n by omega,
        Nat.add_div_right _ hn, Nat.div_eq_of_lt (by omega)]
  ne_nil y hy := by
    rcases List.mem_cons.mp hy with rfl | hy
    · exact hx
    · exact h.ne_nil y hy
  full y hy := by
    cases pieces with
    | nil => simp at hy
    | cons z zs =>
      rw [List.dropLast_cons_of_ne_nil (List.cons_ne_nil z zs)] at hy
      rcases List.mem_cons.mp hy with rfl | hy
      · refine hfull.resolve_right fun hend => h.ne_nil z (List.mem_cons_self ..) ?_
        have hnil := h.flatten.trans hend.2
        rw [List.flatten_cons, List.append_eq_nil_iff] at hnil
        exact hnil.1
      · exact h.full y hy
  le y hy := by
    rcases List.mem_cons.mp hy with rfl | hy
    · omega
    · exact h.le y hy

/-- Segments are a cut. -/
theorem cut_segments (n : Nat) (b : Bytes) : Cut (max n 1) b (segments n b) := by
  have hn : 0 < max n 1 := by omega
  fun_induction segments n b with
  | case1 => exact cut_nil hn
  | case2 b hb ih =>
    have hx : b.take (max n 1) ≠ [] := by
      rw [Ne, List.take_eq_nil_iff]
      exact not_or.mpr ⟨Nat.ne_of_gt hn, hb⟩
    have hfull : (b.take (max n 1)).length = max n 1 ∨
        (b.take (max n 1)).length ≤ max n 1 ∧ b.drop (max n 1) = [] := by
      rw [List.length_take, List.drop_eq_nil_iff]
      omega
    have hcut := Cut.cons hn hx hfull ih
    rwa [List.take_append_drop] at hcut

theorem Cut.length_le {n : Nat} {body : Bytes} {pieces : List Bytes} (h : Cut n body pieces) :
    ∀ x ∈ pieces, x.length ≤ min n body.length := by
  intro x hx
  have hsub : x.length ≤ body.length := by
    rw [← h.flatten]
    exact (List.sublist_flatten_of_mem hx).length_le
  have := h.le x hx
  omega

/-! ### Pieces -/

namespace BodyEncoder

/-- The bytes to send for pieces, one behind the other, up to the first that is
refused. -/
def pushAll (e : BodyEncoder) : List Piece → Except EncodeError Bytes × BodyEncoder
  | [] => (.ok [], e)
  | p :: ps =>
    match e.push p with
    | (.error fault, e') => (.error fault, e')
    | (.ok bytes, e') =>
      match pushAll e' ps with
      | (.error fault, e'') => (.error fault, e'')
      | (.ok more, e'') => (.ok (bytes ++ more), e'')

theorem push_chunk {d : Bytes} (h : d ≠ []) :
    (chunked false).push (.data d) = (.ok (Chunked.encodeChunk d), chunked false) := by
  cases d with
  | nil => exact absurd rfl h
  | cons x xs => rfl

/-- Empty data makes no chunk, and all other data makes one. -/
theorem pushAll_chunks : ∀ ds : List Bytes,
    (chunked false).pushAll (ds.map .data ++ [.finish]) =
      (.ok (Chunked.encodeBody (ds.filter (· ≠ []))), chunked true)
  | [] => rfl
  | [] :: ds => by
    have ih := pushAll_chunks ds
    simp only [List.map_cons, List.cons_append, pushAll, push, ih, List.nil_append]
    rfl
  | (x :: xs) :: ds => by
    have ih := pushAll_chunks ds
    simp only [List.map_cons, List.cons_append, pushAll, push_chunk (List.cons_ne_nil x xs), ih]
    simp [Chunked.encodeBody]

end BodyEncoder

namespace Outgoing

theorem eq_of_body {o : Outgoing} {b : Option BodyEncoder} (h : o.body = b) : o = { body := b } :=
  h ▸ rfl

/-- Data that goes out in chunks, and the end. -/
theorem pushPieces_chunks : ∀ {ds : List Bytes}, (∀ d ∈ ds, d ≠ []) →
    pushPieces { body := some (.chunked false) } (ds.map .data ++ [.finish]) =
      (Chunked.encodeBody ds, none, {})
  | [], _ => rfl
  | d :: ds, h => by
    have ih := pushPieces_chunks fun x hx => h x (List.mem_cons_of_mem _ hx)
    simp only [List.map_cons, List.cons_append, pushPieces, pushPiece,
      BodyEncoder.push_chunk (h d (List.mem_cons_self ..)), Piece.isFinish, Bool.false_eq_true,
      if_false, ih]
    simp [Chunked.encodeBody]

/-- Data of the length that was declared, and the end. -/
theorem pushPieces_length {body : Bytes} (h : body ≠ []) :
    pushPieces { body := some (.length body.length) } [.data body, .finish] =
      (body, none, {}) := by
  cases body with
  | nil => exact absurd rfl h
  | cons x xs => simp [pushPieces, pushPiece, BodyEncoder.push, Piece.isFinish]

end Outgoing

/-- The bytes that a whole body goes out as behind this head, chunked or as it
is. -/
def RequestHead.bodyBytes (h : RequestHead) (segment : Nat) (body : Bytes) : Bytes :=
  if h.isChunked then Chunked.encodeBody (segments segment body) else body

namespace Sender

theorem putBody_of_pushPieces {s : Sender} {body bytes : Bytes} {o : Outgoing}
    (h : s.outgoing.pushPieces (s.pieces body) = (bytes, none, o)) :
    s.putBody body = (.ok (), { s with buffer := s.buffer ++ bytes, outgoing := o }) := by
  rw [putBody, h]

/-- A whole body that goes out in chunks goes out in its segments. -/
theorem putBody_chunked {s : Sender} (hs : s.outgoing.body = some (.chunked false))
    (body : Bytes) : s.putBody body = (.ok (), { s with
      buffer := s.buffer ++ Chunked.encodeBody (segments s.segment body), outgoing := {} }) := by
  have ho := Outgoing.eq_of_body hs
  refine putBody_of_pushPieces ?_
  have hpieces : s.pieces body = (segments s.segment body).map .data ++ [.finish] := by
    rw [pieces, ho]
    rfl
  rw [hpieces, ho]
  exact Outgoing.pushPieces_chunks (cut_segments s.segment body).ne_nil

/-- A whole body of the length that was declared goes out as it is. -/
theorem putBody_length {s : Sender} {body : Bytes} {e : BodyEncoder}
    (he : BodyEncoder.ofFraming (.length body.length) = .ok e) (hs : s.outgoing.body = some e) :
    s.putBody body = (.ok (), { s with buffer := s.buffer ++ body, outgoing := {} }) := by
  have ho := Outgoing.eq_of_body hs
  refine putBody_of_pushPieces ?_
  by_cases hb : body = []
  · obtain rfl : e = .empty := by
      rw [hb] at he
      exact (Except.ok.inj he).symm
    rw [pieces, ho, hb]
    rfl
  · obtain rfl : e = .length body.length := by
      have hlen : body.length ≠ 0 := by simpa using hb
      rw [BodyEncoder.ofFraming, if_neg hlen] at he
      exact (Except.ok.inj he).symm
    have hpieces : s.pieces body = [.data body, .finish] := by
      rw [pieces, ho]
      simp [Outgoing.isChunked, BodyEncoder.isChunked, hb]
    rw [hpieces, ho]
    exact Outgoing.pushPieces_length hb

/-- Behind a head that was put with the framing it says, the body is put
whole, and is not refused. -/
theorem putBody_eq {s : Sender} {h : RequestHead} {body : Bytes} {e : BodyEncoder}
    (he : BodyEncoder.ofFraming (h.framing body.length) = .ok e)
    (hs : s.outgoing.body = some e) : s.putBody body = (.ok (), { s with
      buffer := s.buffer ++ h.bodyBytes s.segment body, outgoing := {} }) := by
  unfold RequestHead.bodyBytes
  by_cases hchunked : h.isChunked = true
  · rw [RequestHead.framing, if_pos hchunked] at he
    obtain rfl := Except.ok.inj he
    rw [if_pos hchunked]
    exact putBody_chunked hs body
  · rw [RequestHead.framing, if_neg hchunked] at he
    rw [if_neg hchunked]
    exact putBody_length he hs

/-- Between two requests, a head that can be printed is put with the framing it
says. -/
theorem putHead_of_print {s : Sender} {h : RequestHead} {n : Nat} {bytes : Bytes}
    (hs : s.outgoing.body = none) (hprint : h.print (h.framing n) = .ok bytes) :
    (s.putHead h (h.framing n)).1 = .ok () := by
  obtain ⟨e, he⟩ : ∃ e, BodyEncoder.ofFraming (h.framing n) = .ok e := by
    rw [RequestHead.framing]
    split <;> exact ⟨_, rfl⟩
  simp [putHead, Outgoing.pushHead, hs, he, hprint]

/-- What it takes to put a head. -/
theorem putHead_eq_ok {s s' : Sender} {h : RequestHead} {framing : Framing}
    (hput : s.putHead h framing = (.ok (), s')) : ∃ bytes e, h.print framing = .ok bytes ∧
      BodyEncoder.ofFraming framing = .ok e ∧ s.outgoing.body = none ∧
      s' = { s with buffer := s.buffer ++ bytes, outgoing := { body := some e } } := by
  unfold putHead Outgoing.pushHead at hput
  cases hbody : s.outgoing.body with
  | some _ => simp [hbody] at hput
  | none =>
    cases he : BodyEncoder.ofFraming framing with
    | error _ => simp [hbody, he] at hput
    | ok e =>
      cases hprint : h.print framing with
      | error _ => simp [hbody, he, hprint] at hput
      | ok bytes =>
        simp only [hbody, he, hprint, Prod.mk.injEq, true_and] at hput
        exact ⟨bytes, e, rfl, rfl, rfl, hput.symm⟩

end Sender
end Http1Client
