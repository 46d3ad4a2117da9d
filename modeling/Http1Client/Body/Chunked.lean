/-
# The chunked body

A chunked body is a row of chunks, each a size line, its data and a line end,
closed by a size line that denotes zero, trailer lines and an empty line. The
decoder takes a line only when its end is there and a chunk only when all of
its data is there, so that nothing is given out twice and no piece depends on
where the input was cut. Extensions behind a size and trailer lines are
dropped.

`takeLine` splits a line off, `parseSize` reads a size line, and
`ChunkedDecoder.decode` runs through lines and data until there is a chunk to
give out.

Key definitions: `takeLine`, `parseSize`, `ChunkedDecoder.decode`,
`encodeChunk`, `lastChunk`.
Key theorems: `takeLine_length`.
-/
import Http1Client.Framing
import Http1Client.Numeral

namespace Http1Client
namespace Chunked

/-- The most bytes a size line or a trailer line may have with its line end. -/
def lineLimit : Nat := 4096

/-- The largest chunk that is taken where nothing else is said. -/
def defaultLimit : Nat := 8 * 1024 * 1024

/-! ### Lines -/

/-- A try to split a line off. -/
inductive Line where
  /-- The line is not complete. -/
  | open
  | line (text rest : Bytes)
  | bad (fault : BodyFault)
  deriving DecidableEq, Repr

/-- The line whose bytes up to its line feed are `upTo`. -/
def closeLine (upTo rest : Bytes) : Line :=
  if Bytes.isShorter lineLimit upTo then
    if upTo.getLast? = some Bytes.cr then .line upTo.dropLast rest else .bad .lineEnd
  else .bad .lineTooLong

theorem closeLine_rest {upTo after text rest : Bytes} (h : closeLine upTo after = .line text rest) :
    after = rest := by
  unfold closeLine at h
  split at h
  · split at h
    · injection h
    · simp at h
  · simp at h

/-- Splits off the first line, which a carriage return and a line feed end.
The line feed has to be among the first `lineLimit` bytes. -/
def takeLine (b : Bytes) : Line :=
  match b.dropWhile (· != Bytes.lf) with
  | [] => if Bytes.isShorter lineLimit b then .open else .bad .lineTooLong
  | _ :: rest => closeLine (b.takeWhile (· != Bytes.lf)) rest

/-- What is left behind a line is shorter than what was there. -/
theorem takeLine_length {b text rest : Bytes} (h : takeLine b = .line text rest) :
    rest.length < b.length := by
  unfold takeLine at h
  split at h
  · split at h <;> simp at h
  · next x tail hx =>
    have hle : (b.dropWhile (· != Bytes.lf)).length ≤ b.length :=
      (List.dropWhile_suffix _).length_le
    rw [hx] at hle
    rw [← closeLine_rest h]
    simp at hle
    omega

/-- The size that a size line denotes: its digits stand before the first
semicolon and may be followed by whitespace. -/
def parseSize (line : Bytes) : Except BodyFault Nat :=
  let digits := Bytes.trimEnd Bytes.isAsciiSpace (line.takeWhile (· != 59))
  if digits = [] then .error .sizeMissing
  else match Numeral.ofHex? digits with
    | none => .error .sizeInvalid
    | some n => if n < Numeral.wordBound then .ok n else .error .sizeOverflow

/-! ### The decoder -/

/-- What the decoder waits for. -/
inductive Phase where
  | size
  /-- All the data of a chunk of this size. -/
  | data (n : Nat)
  /-- The line end behind the data of a chunk. -/
  | dataEnd
  /-- Trailer lines, up to the empty one. -/
  | trailer
  /-- Nothing: the body is complete. -/
  | complete
  deriving DecidableEq, Repr

end Chunked

open Chunked in
/-- The state of the decoding of a chunked body, and the largest chunk it
takes. -/
structure ChunkedDecoder where
  limit : Nat := defaultLimit
  phase : Phase := .size
  deriving DecidableEq, Repr

namespace ChunkedDecoder

open Chunked

/-- Is the body complete? -/
def isFinished (d : ChunkedDecoder) : Bool := d.phase == .complete

/-- Reads on until there is a chunk to give out, the body is complete, more
bytes are needed or the bytes are no chunked body. Also gives the state after
it and the bytes that are left. A line is taken even if it turns out bad. -/
def decode (d : ChunkedDecoder) (b : Bytes) : Progress Piece × ChunkedDecoder × Bytes :=
  match d.phase with
  | .size =>
    match _taken : takeLine b with
    | .open => (.need, d, b)
    | .bad fault => (.fail (.badBody fault), d, b)
    | .line text rest =>
      match parseSize text with
      | .error fault => (.fail (.badBody fault), d, rest)
      | .ok n =>
        if n ≤ d.limit then
          decode { d with phase := if n = 0 then .trailer else .data n } rest
        else (.fail (.badBody (.overLimit n d.limit)), d, rest)
  | .data n =>
    if Bytes.isShorter n b then (.need, d, b)
    else (.item (.data (b.take n)), { d with phase := .dataEnd }, b.drop n)
  | .dataEnd =>
    match b with
    | x :: y :: rest =>
      if x = Bytes.cr ∧ y = Bytes.lf then decode { d with phase := .size } rest
      else (.fail (.badBody .dataUnterminated), d, b)
    | _ => (.need, d, b)
  | .trailer =>
    match _taken : takeLine b with
    | .open => (.need, d, b)
    | .bad fault => (.fail (.badBody fault), d, b)
    | .line text rest =>
      if text = [] then (.item .finish, { d with phase := .complete }, rest)
      else decode d rest
  | .complete => (.item .finish, d, b)
termination_by b.length
decreasing_by
  · exact takeLine_length _taken
  · simp only [List.length_cons]
    omega
  · exact takeLine_length _taken

/-- Is the next thing to give out the data of a chunk whose size is known? -/
def inData (d : ChunkedDecoder) : Bool :=
  match d.phase with
  | .data _ => true
  | _ => false

/-- Giving out data takes bytes, unless it was the data of a chunk whose size
was known already. -/
theorem decode_data_length (d : ChunkedDecoder) (b : Bytes) {x rest : Bytes} {d' : ChunkedDecoder}
    (h : d.decode b = (.item (.data x), d', rest)) :
    d'.inData = false ∧ 2 * rest.length < 2 * b.length + d.inData.toNat := by
  fun_induction decode d b with
  | case4 d b hp text rest' _taken n hn hl ih =>
    have hlt := takeLine_length _taken
    obtain ⟨h1, h2⟩ := ih h
    have h3 := Nat.lt_of_lt_of_le h2 (Nat.add_le_add_left (Bool.toNat_le _) _)
    exact ⟨h1, by omega⟩
  | case7 d b n hp hs =>
    simp only [Prod.mk.injEq, Progress.item.injEq] at h
    obtain ⟨-, rfl, rfl⟩ := h
    have hd : d.inData = true := by simp [inData, hp]
    refine ⟨rfl, ?_⟩
    rw [hd, List.length_drop, Bool.toNat_true]
    omega
  | case8 d hp x' y rest' hxy ih =>
    obtain ⟨h1, h2⟩ := ih h
    have h3 := Nat.lt_of_lt_of_le h2 (Nat.add_le_add_left (Bool.toNat_le _) _)
    simp only [List.length_cons]
    exact ⟨h1, by omega⟩
  | case14 d b hp text rest' _taken ht ih =>
    have hlt := takeLine_length _taken
    obtain ⟨h1, h2⟩ := ih h
    exact ⟨h1, by omega⟩
  | _ => simp_all

/-- The same when the stream has ended: what is missing now will not come. -/
def decodeEnd (d : ChunkedDecoder) (b : Bytes) : Progress Piece × ChunkedDecoder × Bytes :=
  match d.decode b with
  | (.need, d', rest) => (.fail (.cutShort "connection closed before the last chunk"), d', rest)
  | r => r

end ChunkedDecoder

namespace Chunked

/-! ### Writing -/

/-- A chunk with the given data, which is not empty. -/
def encodeChunk (data : Bytes) : Bytes :=
  Numeral.hex data.length ++ Bytes.crlf ++ data ++ Bytes.crlf

/-- The chunk of size zero and the empty line, which end the body. -/
def lastChunk : Bytes := [48] ++ Bytes.crlf ++ Bytes.crlf

end Chunked
end Http1Client
