/-
# How a chunked body is laid out

A chunked body is a row of chunks, a size line that denotes zero, trailer lines
and an empty line (`Chunked.IsChunkedBody`). A chunk is a size line, as many
bytes of data as it denotes, and a line end; a size line has hexadecimal digits
in front, of either case and with any number of leading zeros
(`Numeral.Denotes`). All this is said of the bytes, and no reader comes into it.

Digits are read as the number that they denote (`Numeral.ofHex?_eq_some_iff`),
and the grammar that the readers are held against knows the bodies that are laid
out so, and no others (`Chunked.isChunkedBody_iff`).

Key definitions: `Numeral.Denotes`, `Chunked.IsSizeLine`, `Chunked.IsChunkedBody`.
Key theorems: `Numeral.ofHex?_eq_some_iff`, `Chunked.isChunkedBody_iff`.
-/
import Mathlib.Data.List.Forall2
import Mathlib.Data.List.Induction
import Http1Client.Proofs.Body.ChunkGrammar

namespace Http1Client

/-! ### Digits -/

theorem Bytes.toNat_lower (x : UInt8) : (Bytes.lower x).toNat =
    if 65 ≤ x.toNat ∧ x.toNat ≤ 90 then x.toNat + 32 else x.toNat := by
  have hlt := x.toNat_lt
  simp only [Bytes.lower, Bool.and_eq_true, decide_eq_true_eq, UInt8.le_iff_toNat_le,
    UInt8.reduceToNat]
  split
  · simp only [UInt8.toNat_add, UInt8.reduceToNat]
    omega
  · rfl

namespace Numeral

/-- The byte is the hexadecimal digit of this value, in either case. -/
def IsHexDigit (x : UInt8) (v : Nat) : Prop :=
  (Bytes.ofText "0123456789abcdef")[v]? = some (Bytes.lower x)

/-- The number that hexadecimal digits denote: one digit its value, and a digit
behind others sixteen times what they denote, and its value. -/
inductive Denotes : Bytes → Nat → Prop where
  | digit {x : UInt8} {v : Nat} : IsHexDigit x v → Denotes [x] v
  | behind {b : Bytes} {x : UInt8} {n v : Nat} : Denotes b n → IsHexDigit x v →
      Denotes (b ++ [x]) (16 * n + v)

/-- A digit has its value in either case. -/
theorem digitValue?_lower (x : UInt8) : digitValue? (Bytes.lower x) = digitValue? x := by
  simp only [digitValue?, UInt8.le_iff_toNat_le, UInt8.reduceToNat, Bytes.toNat_lower]
  grind

/-- The digits stand in two runs, each in the order of the values. -/
theorem toNat_lower_of_digitValue? {x : UInt8} {v : Nat} (h : digitValue? x = some v) :
    v < 16 ∧ (Bytes.lower x).toNat = if v < 10 then v + 48 else v + 87 := by
  simp only [digitValue?, UInt8.le_iff_toNat_le, UInt8.reduceToNat, Bool.and_eq_true,
    decide_eq_true_eq] at h
  rw [Bytes.toNat_lower]
  grind

theorem digitValue?_eq_some_iff {x : UInt8} {v : Nat} :
    digitValue? x = some v ↔ IsHexDigit x v := by
  have hdigit : ∀ v < 16, (Bytes.ofText "0123456789abcdef")[v]? =
      some (UInt8.ofNat (if v < 10 then v + 48 else v + 87)) := by
    decide
  have hvalue : ∀ v < 16, (Bytes.ofText "0123456789abcdef")[v]?.bind digitValue? = some v := by
    decide
  have hlen : (Bytes.ofText "0123456789abcdef").length = 16 := by decide
  constructor
  · intro h
    obtain ⟨hv, hx⟩ := toNat_lower_of_digitValue? h
    rw [IsHexDigit, hdigit v hv, ← hx, UInt8.ofNat_toNat]
  · intro h
    have hv : v < 16 := by
      obtain ⟨hlt, -⟩ := List.getElem?_eq_some_iff.mp h
      omega
    have hx := hvalue v hv
    rwa [h, Option.bind_some, digitValue?_lower] at hx

theorem ofHex?_digit (x : UInt8) : ofHex? [x] = digitValue? x := by
  cases h : digitValue? x <;> simp [ofHex?, h, value]

/-- A digit behind digits counts once, and they sixteen times. -/
theorem ofHex?_concat {b : Bytes} (hb : b ≠ []) (x : UInt8) (m : Nat) :
    ofHex? (b ++ [x]) = some m ↔
      ∃ n v, ofHex? b = some n ∧ digitValue? x = some v ∧ m = 16 * n + v := by
  have hne : b ++ [x] ≠ [] := List.append_ne_nil_of_left_ne_nil hb [x]
  rw [ofHex?, if_neg hne, ofHex?, if_neg hb, List.mapM_append]
  cases hds : b.mapM digitValue? with
  | none => simp
  | some ds =>
    cases hx : digitValue? x with
    | none => simp [hx]
    | some v =>
      have hvalue : value 16 0 (ds ++ [v]) = 16 * value 16 0 ds + v := by
        rw [value_append, value, value, Nat.mul_comm]
      simp [hx, hvalue, eq_comm]

/-- Digits are read as the number that they denote. -/
theorem ofHex?_eq_some_iff {b : Bytes} {n : Nat} : ofHex? b = some n ↔ Denotes b n := by
  constructor
  · intro h
    induction b using List.reverseRecOn generalizing n with
    | nil => cases h
    | append_singleton b x ih =>
      by_cases hb : b = []
      · subst hb
        rw [List.nil_append, ofHex?_digit] at h
        exact .digit (digitValue?_eq_some_iff.mp h)
      · obtain ⟨m, v, hm, hv, rfl⟩ := (ofHex?_concat hb x n).mp h
        exact .behind (ih hm) (digitValue?_eq_some_iff.mp hv)
  · intro h
    induction h with
    | digit hx => rw [ofHex?_digit, digitValue?_eq_some_iff.mpr hx]
    | @behind b x n v _ hx ih =>
      have hb : b ≠ [] := (Chunked.ofHex?_eq_some ih).1
      exact (ofHex?_concat hb x _).mpr ⟨n, v, ih, digitValue?_eq_some_iff.mpr hx, rfl⟩

end Numeral

namespace Chunked

/-! ### Lines and bodies as the bytes have them -/

/-- A size line with its line end: digits that denote `n`, whitespace but line
feeds, and nothing more or anything but a line feed behind a semicolon. -/
def DenotesSize (line : Bytes) (n : Nat) : Prop :=
  ∃ digits blanks extension, line = digits ++ blanks ++ extension ++ Bytes.crlf ∧
    Numeral.Denotes digits n ∧
    (∀ x ∈ blanks, Bytes.isAsciiSpace x = true ∧ x ≠ Bytes.lf) ∧
    (extension = [] ∨ ∃ text, extension = 59 :: text ∧ Bytes.lf ∉ text) ∧
    line.length ≤ lineLimit

/-- A size line that denotes a number which a word holds. -/
def IsSizeLine (line : Bytes) (n : Nat) : Prop := DenotesSize line n ∧ n < Numeral.wordBound

/-- A line of the trailer with its line end, which is not the empty one. -/
def IsTrailerLine (line : Bytes) : Prop :=
  ∃ text, line = text ++ Bytes.crlf ∧ text ≠ [] ∧ Bytes.lf ∉ text ∧ line.length ≤ lineLimit

/-- A whole chunk with this data, of at most `limit` bytes. -/
def IsChunk (limit : Nat) (data chunk : Bytes) : Prop :=
  ∃ line, IsSizeLine line data.length ∧ 1 ≤ data.length ∧ data.length ≤ limit ∧
    chunk = line ++ data ++ Bytes.crlf

/-- A whole chunked body, and the data of its chunks, each of at most `limit`
bytes: the chunks, a size line that denotes zero, trailer lines and an empty
line. -/
def IsChunkedBody (limit : Nat) (ds : List Bytes) (body : Bytes) : Prop :=
  ∃ (chunks : List Bytes) (last : Bytes) (trailer : List Bytes),
    List.Forall₂ (IsChunk limit) ds chunks ∧ IsSizeLine last 0 ∧ (∀ t ∈ trailer, IsTrailerLine t) ∧
    body = chunks.flatten ++ last ++ trailer.flatten ++ Bytes.crlf

section Lines

variable {limit n : Nat} {line text : Bytes}

theorem length_line (text : Bytes) : (text ++ Bytes.crlf).length = text.length + 2 := by
  rw [List.length_append]
  rfl

/-- Digits hold no line feed. -/
theorem lf_notMem_digits {digits : Bytes} (h : Numeral.ofHex? digits = some n) :
    Bytes.lf ∉ digits := by
  intro hmem
  have hspace := (digitValue?_isSome ((ofHex?_eq_some h).2 _ hmem)).1
  cases hspace

/-- What denotes a size is a line, and is split as the reader of sizes splits
it. -/
theorem exists_of_denotesSize (h : DenotesSize line n) :
    ∃ digits blanks extension, line = digits ++ blanks ++ extension ++ Bytes.crlf ∧
      IsLine (digits ++ blanks ++ extension) ∧ Numeral.ofHex? digits = some n ∧
      (∀ x ∈ blanks, Bytes.isAsciiSpace x = true) ∧
      (extension = [] ∨ extension.head? = some 59) := by
  obtain ⟨digits, blanks, extension, hline, hn, hblanks, hext, hlen⟩ := h
  have hn := Numeral.ofHex?_eq_some_iff.mpr hn
  refine ⟨digits, blanks, extension, hline, ⟨?_, ?_⟩, hn, fun x hx => (hblanks x hx).1, ?_⟩
  · rw [List.mem_append, List.mem_append]
    rintro ((hmem | hmem) | hmem)
    · exact lf_notMem_digits hn hmem
    · exact (hblanks _ hmem).2 rfl
    · rcases hext with rfl | ⟨text, rfl, htext⟩
      · cases hmem
      · rcases List.mem_cons.mp hmem with h59 | hmem
        · exact absurd h59 (by decide)
        · exact htext hmem
  · rwa [hline, length_line] at hlen
  · rcases hext with rfl | ⟨text, rfl, -⟩
    · exact .inl rfl
    · exact .inr rfl

/-- A size line is a line with the text of a size. -/
theorem isSizeLine_iff :
    IsSizeLine line n ↔ ∃ text, line = text ++ Bytes.crlf ∧ IsLine text ∧ IsSize text n := by
  constructor
  · rintro ⟨h, hlt⟩
    obtain ⟨digits, blanks, extension, hline, htext, hn, hblanks, hext⟩ := exists_of_denotesSize h
    exact ⟨_, hline, htext, digits, blanks, extension, rfl, hn, hlt, hblanks, hext⟩
  · rintro ⟨_, rfl, ⟨hnot, hlen⟩, digits, blanks, extension, rfl, hn, hlt, hblanks, hext⟩
    rw [List.mem_append, List.mem_append, not_or, not_or] at hnot
    obtain ⟨⟨-, hnb⟩, hne⟩ := hnot
    refine ⟨⟨digits, blanks, extension, rfl, Numeral.ofHex?_eq_some_iff.mp hn, ?_, ?_, ?_⟩, hlt⟩
    · intro x hx
      refine ⟨hblanks x hx, ?_⟩
      rintro rfl
      exact hnb hx
    · rcases hext with rfl | hext
      · exact .inl rfl
      · obtain ⟨text, rfl⟩ := List.head?_eq_some_iff.mp hext
        exact .inr ⟨text, rfl, fun hmem => hne (List.mem_cons_of_mem _ hmem)⟩
    · rwa [length_line]

theorem isTrailerLine_iff :
    IsTrailerLine line ↔ ∃ text, line = text ++ Bytes.crlf ∧ text ≠ [] ∧ IsLine text := by
  constructor
  · rintro ⟨text, rfl, hne, hnot, hlen⟩
    rw [length_line] at hlen
    exact ⟨text, rfl, hne, hnot, hlen⟩
  · rintro ⟨text, rfl, hne, hnot, hlen⟩
    exact ⟨text, rfl, hne, hnot, by rwa [length_line]⟩

/-- A trailer section is a row of trailer lines and the empty line. -/
theorem trailer_iff {t : Bytes} :
    Trailer t ↔
      ∃ lines : List Bytes, (∀ l ∈ lines, IsTrailerLine l) ∧ t = lines.flatten ++ Bytes.crlf := by
  constructor
  · intro h
    induction h with
    | done => exact ⟨[], by simp, rfl⟩
    | @field text t hne htext _ ih =>
      obtain ⟨lines, hlines, rfl⟩ := ih
      have hfirst : IsTrailerLine (text ++ Bytes.crlf) :=
        isTrailerLine_iff.mpr ⟨text, rfl, hne, htext⟩
      refine ⟨(text ++ Bytes.crlf) :: lines, ?_, by simp⟩
      exact List.forall_mem_cons.mpr ⟨hfirst, hlines⟩
  · rintro ⟨lines, hlines, rfl⟩
    induction lines with
    | nil => exact .done
    | cons l ls ih =>
      obtain ⟨hl, hls⟩ := List.forall_mem_cons.mp hlines
      obtain ⟨text, rfl, hne, htext⟩ := isTrailerLine_iff.mp hl
      rw [List.flatten_cons, List.append_assoc]
      exact .field hne htext (ih hls)

/-- The grammar of whole bodies is that of the rows. -/
theorem isChunkedBody_iff {ds : List Bytes} {b : Bytes} :
    IsChunkedBody limit ds b ↔ Body ds b ∧ ∀ d ∈ ds, d.length ≤ limit := by
  constructor
  · rintro ⟨chunks, last, trailer, hchunks, hlast, htrailer, rfl⟩
    have ht : Trailer (trailer.flatten ++ Bytes.crlf) := trailer_iff.mpr ⟨trailer, htrailer, rfl⟩
    obtain ⟨text, rfl, htext, hsize⟩ := isSizeLine_iff.mp hlast
    induction hchunks with
    | nil => exact ⟨by simpa using Body.last htext hsize ht, by simp⟩
    | @cons d c ds cs hc _ ih =>
      obtain ⟨hbody, hle⟩ := ih
      obtain ⟨line, hline, hpos, hlimit, rfl⟩ := hc
      obtain ⟨text', rfl, htext', hsize'⟩ := isSizeLine_iff.mp hline
      have hcons := Body.chunk htext' hsize' (List.length_pos_iff.mp hpos) hbody
      exact ⟨by simpa using hcons, List.forall_mem_cons.mpr ⟨hlimit, hle⟩⟩
  · rintro ⟨h, hle⟩
    induction h with
    | @last text t htext hsize ht =>
      obtain ⟨trailer, htrailer, rfl⟩ := trailer_iff.mp ht
      exact ⟨[], text ++ Bytes.crlf, trailer, .nil, isSizeLine_iff.mpr ⟨text, rfl, htext, hsize⟩,
        htrailer, by simp⟩
    | @chunk text x b ds htext hsize hne _ ih =>
      obtain ⟨hx, hds⟩ := List.forall_mem_cons.mp hle
      obtain ⟨chunks, last, trailer, hchunks, hlast, htrailer, rfl⟩ := ih hds
      have hfirst : IsChunk limit x (text ++ Bytes.crlf ++ x ++ Bytes.crlf) :=
        ⟨_, isSizeLine_iff.mpr ⟨text, rfl, htext, hsize⟩, List.length_pos_iff.mpr hne, hx, rfl⟩
      exact ⟨_ :: chunks, last, trailer, .cons hfirst hchunks, hlast, htrailer, by simp⟩

end Lines

end Chunked
end Http1Client
