/-
# Which bytes are no chunked body

Bytes are no chunked body, whatever comes behind them, where something stands
that cannot stand there: a line that is none, a size line that denotes no size or
one above the limit, data without the line end behind it, or a trailer line that
is none (`Chunked.Spoils`). Whole chunks may stand in front of it, and
`Chunked.Breaks` tells their data and the fault.

A decoder that is asked for chunks gives out these chunks and then finds this
fault, and it finds no other ones (`ChunkedDecoder.meets_iff`). A chunk is given
out as soon as its data is there, so that the chunk whose line end is missing
counts among them.

Key definitions: `Chunked.Spoils`, `Chunked.Breaks`, `ChunkedDecoder.Meets`.
Key theorems: `ChunkedDecoder.Meets.turn`, `ChunkedDecoder.decode_breaks`,
`ChunkedDecoder.meets_iff`.
-/
import Http1Client.Proofs.Body.Acceptance

namespace Http1Client

namespace Chunked

/-- Two bytes that are no line end. -/
def IsNoLineEnd (b : Bytes) : Prop :=
  ∃ x y rest, b = x :: y :: rest ∧ ¬ (x = Bytes.cr ∧ y = Bytes.lf)

/-- Bytes that cannot stand where a chunk or the end of a body is due, and why
not. The list has the data of the chunk that lacks its line end, if it is
that. -/
inductive Spoils (limit : Nat) : List Bytes → BodyFault → Bytes → Prop where
  | line {fault : BodyFault} {b : Bytes} : takeLine b = .bad fault → Spoils limit [] fault b
  | size {fault : BodyFault} {text rest : Bytes} : IsLine text → parseSize text = .error fault →
      Spoils limit [] fault (text ++ Bytes.crlf ++ rest)
  | large {n : Nat} {text rest : Bytes} : IsLine text → IsSize text n → limit < n →
      Spoils limit [] (.overLimit n limit) (text ++ Bytes.crlf ++ rest)
  | dataEnd {text x rest : Bytes} : IsLine text → IsSize text x.length → x ≠ [] →
      x.length ≤ limit → IsNoLineEnd rest →
      Spoils limit [x] .dataUnterminated (text ++ Bytes.crlf ++ (x ++ rest))
  | trailer {fault : BodyFault} {text rest : Bytes} {lines : List Bytes} : IsLine text →
      IsSize text 0 → (∀ l ∈ lines, IsTrailerLine l) → takeLine rest = .bad fault →
      Spoils limit [] fault (text ++ Bytes.crlf ++ (lines.flatten ++ rest))

/-- Chunks with the data `ds`, each of at most `limit` bytes, and something
behind them that is no part of a chunked body. -/
def Breaks (limit : Nat) (ds : List Bytes) (fault : BodyFault) (b : Bytes) : Prop :=
  ∃ (whole half chunks : List Bytes) (rest : Bytes), List.Forall₂ (IsChunk limit) whole chunks ∧
    Spoils limit half fault rest ∧ ds = whole ++ half ∧ b = chunks.flatten ++ rest

/-- The same behind the data of a chunk. -/
def BreaksBehind (limit : Nat) (ds : List Bytes) (fault : BodyFault) (b : Bytes) : Prop :=
  (ds = [] ∧ fault = .dataUnterminated ∧ IsNoLineEnd b) ∨
    ∃ rest, Breaks limit ds fault rest ∧ b = Bytes.crlf ++ rest

/-- The same for a decoder that waits for this. -/
def Phase.Breaks (limit : Nat) : Phase → List Bytes → BodyFault → Bytes → Prop
  | size, ds, fault, b => Chunked.Breaks limit ds fault b
  | data n, ds, fault, b => ∃ x ds' rest, ds = x :: ds' ∧ x.length = n ∧
      BreaksBehind limit ds' fault rest ∧ b = x ++ rest
  | dataEnd, ds, fault, b => BreaksBehind limit ds fault b
  | trailer, ds, fault, b => ds = [] ∧ ∃ (lines : List Bytes) (rest : Bytes),
      (∀ l ∈ lines, IsTrailerLine l) ∧ takeLine rest = .bad fault ∧ b = lines.flatten ++ rest
  | complete, _, _, _ => False

section Lines

variable {limit n : Nat} {ds half : List Bytes} {fault : BodyFault} {b rest text x chunk : Bytes}

theorem Spoils.breaks (h : Spoils limit half fault b) : Breaks limit half fault b :=
  ⟨[], half, [], b, .nil, h, rfl, rfl⟩

theorem Breaks.cons (hx : IsChunk limit x chunk) (h : Breaks limit ds fault b) :
    Breaks limit (x :: ds) fault (chunk ++ b) := by
  obtain ⟨whole, half, chunks, rest, hchunks, hspoils, rfl, rfl⟩ := h
  exact ⟨x :: whole, half, chunk :: chunks, rest, .cons hx hchunks, hspoils, rfl, by simp⟩

/-- No chunk that is given out is empty. -/
theorem Breaks.nil_notMem (h : Breaks limit ds fault b) : [] ∉ ds := by
  obtain ⟨whole, half, chunks, rest, hchunks, hspoils, rfl, -⟩ := h
  rw [List.mem_append, not_or]
  constructor
  · induction hchunks with
    | nil => exact List.not_mem_nil
    | cons hx _ ih =>
      obtain ⟨line, -, hpos, -⟩ := hx
      rw [List.mem_cons, not_or]
      exact ⟨(List.length_pos_iff.mp hpos).symm, ih⟩
  · cases hspoils with
    | dataEnd _ _ hx => simpa using hx.symm
    | _ => exact List.not_mem_nil

/-- Behind a size line that denotes zero the trailer goes wrong, behind another
one the data of a chunk or what stands behind it. -/
theorem breaks_size (htake : takeLine b = .line text rest) (hsize : parseSize text = .ok n)
    (hn : n ≤ limit)
    (h : Phase.Breaks limit (if n = 0 then .trailer else .data n) ds fault rest) :
    Breaks limit ds fault b := by
  obtain ⟨htext, rfl⟩ := takeLine_eq_line_iff.mp htake
  have hsize := parseSize_eq_ok_iff.mp hsize
  by_cases h0 : n = 0
  · subst h0
    obtain ⟨rfl, lines, rest, hlines, hbad, rfl⟩ := h
    exact (Spoils.trailer htext hsize hlines hbad).breaks
  · rw [if_neg h0] at h
    obtain ⟨x, ds, rest, rfl, rfl, hbehind, rfl⟩ := h
    have hx : x ≠ [] := fun hx => h0 (by rw [hx]; rfl)
    rcases hbehind with ⟨rfl, rfl, hno⟩ | ⟨rest, hrest, rfl⟩
    · exact (Spoils.dataEnd htext hsize hx hn hno).breaks
    · have hchunk : IsChunk limit x (text ++ Bytes.crlf ++ x ++ Bytes.crlf) :=
        ⟨_, isSizeLine_iff.mpr ⟨text, rfl, htext, hsize⟩, List.length_pos_iff.mpr hx, hn, rfl⟩
      have hwhole := hrest.cons hchunk
      rwa [List.append_assoc, List.append_assoc] at hwhole

/-- A trailer line does not mend what stands behind it. -/
theorem breaks_trailer (htake : takeLine b = .line text rest) (hne : text ≠ [])
    (h : Phase.Breaks limit .trailer ds fault rest) : Phase.Breaks limit .trailer ds fault b := by
  obtain ⟨htext, rfl⟩ := takeLine_eq_line_iff.mp htake
  obtain ⟨rfl, lines, rest, hlines, hbad, rfl⟩ := h
  have hline : IsTrailerLine (text ++ Bytes.crlf) := isTrailerLine_iff.mpr ⟨text, rfl, hne, htext⟩
  exact ⟨rfl, _ :: lines, rest, List.forall_mem_cons.mpr ⟨hline, hlines⟩, hbad, by simp⟩

end Lines

end Chunked

open Chunked

namespace ChunkedDecoder

/-- Asked for chunks of these bytes, the decoder gives out the data `ds`, chunk
by chunk, and then finds this fault. -/
inductive Meets : ChunkedDecoder → Bytes → List Bytes → BodyFault → Prop where
  | fault {d d' : ChunkedDecoder} {b rest : Bytes} {fault : BodyFault} :
      d.decode b = (.fail (.badBody fault), d', rest) → Meets d b [] fault
  | chunk {d d' : ChunkedDecoder} {b x rest : Bytes} {ds : List Bytes} {fault : BodyFault} :
      d.decode b = (.item (.data x), d', rest) → Meets d' rest ds fault → Meets d b (x :: ds) fault

variable {d d' : ChunkedDecoder} {b rest u : Bytes} {ds : List Bytes} {fault : BodyFault}

/-! ### One turn -/

/-- Only what the decoder makes of the bytes counts. -/
theorem Meets.congr (h : d.Meets b ds fault) (heq : d'.decode u = d.decode b) :
    d'.Meets u ds fault := by
  cases h with
  | fault hdecode => exact .fault (heq.trans hdecode)
  | chunk hdecode hrest => exact .chunk (heq.trans hdecode) hrest

/-- What the decoder makes of the front of bytes in which it is to meet a fault. -/
inductive MeetsTurn (u : Bytes) (ds : List Bytes) (fault : BodyFault) (d' : ChunkedDecoder)
    (rest : Bytes) : Progress Piece → Prop where
  | need : d'.Meets (rest ++ u) ds fault → MeetsTurn u ds fault d' rest .need
  | chunk {x : Bytes} {ds' : List Bytes} : ds = x :: ds' → d'.Meets (rest ++ u) ds' fault →
      MeetsTurn u ds fault d' rest (.item (.data x))
  | fault : ds = [] → MeetsTurn u ds fault d' rest (.fail (.badBody fault))

/-- One turn. The decoder waits, or it gives out the next chunk or finds the
fault; the body does not end. -/
theorem Meets.turn {p : Progress Piece} (h : d.Meets (b ++ u) ds fault)
    (hn : d.decode b = (p, d', rest)) : MeetsTurn u ds fault d' rest p := by
  by_cases hp : p = .need
  · subst hp
    exact .need (h.congr (decode_append_of_need hn u).symm)
  · have happ := decode_append_of_ne_need hn hp u
    cases h with
    | fault hdecode =>
      cases happ.symm.trans hdecode
      exact .fault rfl
    | chunk hdecode hrest =>
      cases happ.symm.trans hdecode
      exact .chunk rfl hrest

/-- Where all bytes are there, the decoder does not wait. -/
theorem Meets.not_need (h : d.Meets b ds fault) : d.decode b ≠ (.need, d', rest) := by
  intro hn
  cases h with
  | fault hdecode => cases hn.symm.trans hdecode
  | chunk hdecode _ => cases hn.symm.trans hdecode

/-! ### The grammar -/

/-- A fault is found where the bytes go wrong, and a chunk that is given out
stands in front of where they do. -/
theorem decode_breaks {p : Progress Piece} (h : d.decode b = (p, d', rest))
    (hp : (p = .fail (.badBody fault) ∧ ds = []) ∨
      ∃ x ds', p = .item (.data x) ∧ ds = x :: ds' ∧ d'.phase.Breaks d.limit ds' fault rest) :
    d.phase.Breaks d.limit ds fault b := by
  fun_induction decode d b with
  | case2 d b hphase fault' taken =>
    cases h
    rcases hp with ⟨⟨⟩, rfl⟩ | ⟨_, _, ⟨⟩, _⟩
    rw [hphase]
    exact (Spoils.line taken).breaks
  | case3 d b hphase text rest' taken fault' hsize =>
    cases h
    rcases hp with ⟨⟨⟩, rfl⟩ | ⟨_, _, ⟨⟩, _⟩
    obtain ⟨htext, rfl⟩ := takeLine_eq_line_iff.mp taken
    rw [hphase]
    exact (Spoils.size htext hsize).breaks
  | case4 d b hphase text rest' taken n hsize hn ih =>
    rw [hphase]
    exact breaks_size taken hsize hn (ih h hp)
  | case5 d b hphase text rest' taken n hsize hn =>
    cases h
    rcases hp with ⟨⟨⟩, rfl⟩ | ⟨_, _, ⟨⟩, _⟩
    obtain ⟨htext, rfl⟩ := takeLine_eq_line_iff.mp taken
    rw [hphase]
    exact (Spoils.large htext (parseSize_eq_ok_iff.mp hsize) (Nat.lt_of_not_le hn)).breaks
  | case7 d b n hphase hn =>
    rw [Bool.not_eq_true, Bytes.isShorter_eq_false] at hn
    cases h
    obtain ⟨x, ds, ⟨⟩, rfl, hrest⟩ := hp.resolve_left (by simp)
    rw [hphase]
    exact ⟨_, ds, b.drop n, rfl, List.length_take_of_le hn, hrest,
      (List.take_append_drop n b).symm⟩
  | case8 d hphase x y rest' hxy ih =>
    obtain ⟨rfl, rfl⟩ := hxy
    rw [hphase]
    exact .inr ⟨rest', ih h hp, rfl⟩
  | case9 d hphase x y rest' hxy =>
    cases h
    rcases hp with ⟨⟨⟩, rfl⟩ | ⟨_, _, ⟨⟩, _⟩
    rw [hphase]
    exact .inl ⟨rfl, rfl, x, y, rest', rfl, hxy⟩
  | case12 d b hphase fault' taken =>
    cases h
    rcases hp with ⟨⟨⟩, rfl⟩ | ⟨_, _, ⟨⟩, _⟩
    rw [hphase]
    exact ⟨rfl, [], _, by simp, taken, rfl⟩
  | case14 d b hphase text rest' taken hne ih =>
    have hrest := ih h hp
    rw [hphase] at hrest ⊢
    exact breaks_trailer taken hne hrest
  -- Here the decoder waits or the body ends.
  | case1 | case6 | case10 | case11 | case13 | case15 =>
    cases h
    simp at hp

theorem Meets.breaks (h : d.Meets b ds fault) : d.phase.Breaks d.limit ds fault b := by
  induction h with
  | fault hdecode => exact decode_breaks hdecode (.inl ⟨rfl, rfl⟩)
  | chunk hdecode _ ih =>
    rw [decode_limit hdecode] at ih
    exact decode_breaks hdecode (.inr ⟨_, _, rfl, rfl, ih⟩)

section Grammar

variable {limit : Nat}

theorem meets_of_trailer {lines : List Bytes} (hlines : ∀ l ∈ lines, IsTrailerLine l)
    (hbad : takeLine rest = .bad fault) :
    Meets { limit, phase := .trailer } (lines.flatten ++ rest) [] fault := by
  induction lines with
  | nil => exact .fault (decode_of_bad (.inr rfl) hbad)
  | cons line lines ih =>
    obtain ⟨hline, hrest⟩ := List.forall_mem_cons.mp hlines
    obtain ⟨text, rfl, hne, htext⟩ := isTrailerLine_iff.mp hline
    have htake := takeLine_of_isLine htext (lines.flatten ++ rest)
    refine (ih hrest).congr ?_
    rw [List.flatten_cons, List.append_assoc, decode_of_trailer rfl htake, if_neg hne]

theorem meets_of_spoils (h : Spoils limit ds fault b) : Meets { limit } b ds fault := by
  cases h with
  | line hbad => exact .fault (decode_of_bad (.inl rfl) hbad)
  | @size fault text rest htext hsize =>
    have hdecode := decode_of_size (d := { limit }) rfl (takeLine_of_isLine htext rest)
    rw [hsize] at hdecode
    exact .fault hdecode
  | @large n text rest htext hsize hn =>
    have hdecode := decode_of_size (d := { limit }) rfl (takeLine_of_isLine htext rest)
    rw [parseSize_of_isSize hsize] at hdecode
    dsimp only at hdecode
    rw [if_neg (Nat.not_le_of_lt hn)] at hdecode
    exact .fault hdecode
  | @dataEnd text x rest htext hsize hx hle hno =>
    obtain ⟨y, z, rest, rfl, hyz⟩ := hno
    have hbehind := decode_of_dataEnd (d := { limit, phase := .dataEnd }) (b := rest) (x := y)
      (y := z) rfl
    rw [if_neg hyz] at hbehind
    exact .chunk (decode_chunk htext hsize hx hle (y :: z :: rest)) (.fault hbehind)
  | @trailer fault text rest lines htext hsize hlines hbad =>
    have hbehind : Meets { limit, phase := .trailer } (lines.flatten ++ rest) [] fault :=
      meets_of_trailer hlines hbad
    refine hbehind.congr ?_
    rw [decode_of_size rfl (takeLine_of_isLine htext _), parseSize_of_isSize hsize]
    dsimp only
    rw [if_pos (Nat.zero_le limit), if_pos rfl]

/-- The grammar of what goes wrong is that of the decoder. It gives out the
chunks in front of the fault and finds the fault, and it finds no other. -/
theorem meets_iff : Meets { limit } b ds fault ↔ Breaks limit ds fault b := by
  constructor
  · exact Meets.breaks
  · rintro ⟨whole, half, chunks, rest, hchunks, hspoils, rfl, rfl⟩
    -- On the whole chunks; the decoder takes a line end with what stands behind it.
    induction hchunks with
    | nil => exact meets_of_spoils hspoils
    | @cons x chunk whole chunks hx _ ih =>
      obtain ⟨line, hline, hpos, hlimit, rfl⟩ := hx
      obtain ⟨text, rfl, htext, hsize⟩ := isSizeLine_iff.mp hline
      have hdecode := decode_chunk htext hsize (List.length_pos_iff.mp hpos) hlimit
        (Bytes.crlf ++ (chunks.flatten ++ rest))
      have hskip : decode { limit, phase := .dataEnd } (Bytes.crlf ++ (chunks.flatten ++ rest)) =
          decode { limit } (chunks.flatten ++ rest) :=
        decode_dataEnd _
      simpa using Meets.chunk hdecode (ih.congr hskip)

end Grammar

end ChunkedDecoder
end Http1Client
