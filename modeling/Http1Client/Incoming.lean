/-
# A response as it arrives

`Incoming` is what a client knows of the response it reads: whether it is
before the head or inside the body, and which rules hold for both. Asked for
the next event it takes bytes off the front of what has arrived and gives out
the head once, then the pieces of the body. Interim responses are taken and
passed over.

A head may have 8192 bytes. When the reading of a head stops behind its
status line, the response as far as it was read is kept (`salvaged`).

Key definitions: `Incoming`, `Incoming.next`, `Incoming.nextEnd`, `takeHead`.
Key theorems: `takeHead_length`, `Incoming.size_next`.
-/
import Http1Client.Head.Scan
import Http1Client.Response.Framing
import Http1Client.Body.Decoder

namespace Http1Client

/-- What arrives of a response. -/
inductive Event where
  | head (response : Response) (framing : Framing)
  | piece (p : Piece)
  deriving DecidableEq

/-! ### One head -/

namespace Head

/-- The most bytes a head may have. -/
def sizeLimit : Nat := 8192

/-- No head has fewer bytes than `HTTP/1.1 200` and two line ends. -/
def leastSize : Nat := 16

/-- The response that a status line begins, if its code is one. -/
def StatusLine.response? (l : StatusLine) : Option Response :=
  (StatusCode.ofNat? l.code).map fun status =>
    { status := some status, reason := Bytes.toText (Bytes.trim l.reason), version := l.version }

end Head

/-- What became of a try to take a head: the head with its framing, the
response to keep, and the bytes that are left. -/
structure HeadTaken where
  progress : Progress (Response × Framing)
  salvaged : Option Response
  rest : Bytes

/-- Frames a head whose lines are good, and takes it. -/
def frameHead (toHead : Bool) (salvaged : Option Response) (response : Response) (rest : Bytes) :
    HeadTaken :=
  match response.framing toHead with
  | .error fault => ⟨.fail (.badLength fault), some response, rest⟩
  | .ok framing => ⟨.item (response, framing), salvaged, rest⟩

open Head in
/-- Takes one head, interim or final, off the front of the bytes. `salvaged`
is the response kept so far. -/
def takeHead (toHead : Bool) (salvaged : Option Response) (b : Bytes) : HeadTaken :=
  if Bytes.isShorter leastSize b then ⟨.need, salvaged, b⟩
  else match scanHead b with
    | .open =>
      if b.length ≤ sizeLimit then ⟨.need, salvaged, b⟩
      else ⟨.fail (.headTooLarge b.length sizeLimit), salvaged, b⟩
    | .malformed fault line => ⟨.fail fault.toError, line.bind StatusLine.response?, b⟩
    | .complete line fields rest =>
      match line.response? with
      | none => ⟨.fail (.badStatusLine s!"{line.code}: invalid status code"), salvaged, b⟩
      | some bare =>
        if b.length - rest.length ≤ sizeLimit then
          frameHead toHead salvaged { bare with fields := .ofList fields } rest
        else ⟨.fail (.headTooLarge (b.length - rest.length) sizeLimit), some bare, b⟩

theorem frameHead_rest {toHead : Bool} {salvaged : Option Response} {response : Response}
    {rest : Bytes} : (frameHead toHead salvaged response rest).rest = rest := by
  unfold frameHead
  split <;> rfl

/-- A head that is taken takes bytes. -/
theorem takeHead_length {toHead : Bool} {salvaged kept : Option Response} {b rest : Bytes}
    {head : Response × Framing} (h : takeHead toHead salvaged b = ⟨.item head, kept, rest⟩) :
    rest.length < b.length := by
  unfold takeHead at h
  split at h
  · simp at h
  · split at h
    · split at h <;> simp at h
    · simp at h
    · next hs =>
      have hl := Head.scanHead_length hs
      split at h
      · simp at h
      · split at h
        · rw [show rest = _ from (congrArg HeadTaken.rest h).symm, frameHead_rest]
          exact hl
        · simp at h

/-! ### The whole response -/

/-- What is known of a response while it arrives. -/
structure Incoming where
  /-- Does it answer a `HEAD`? -/
  toHead : Bool := false
  /-- The largest chunk that is taken. -/
  chunkLimit : Nat := Chunked.defaultLimit
  /-- The state of the body, between the head and the body's end. -/
  body : Option BodyDecoder := none
  /-- The response whose head stopped behind its status line, if one did. -/
  salvaged : Option Response := none
  deriving DecidableEq

namespace Incoming

/-- Takes heads until there is a final one. -/
def nextHead (s : Incoming) (b : Bytes) : Progress Event × Incoming × Bytes :=
  match _taken : takeHead s.toHead s.salvaged b with
  | ⟨.need, salvaged, rest⟩ => (.need, { s with salvaged }, rest)
  | ⟨.fail e, salvaged, rest⟩ => (.fail e, { s with salvaged }, rest)
  | ⟨.item (response, framing), salvaged, rest⟩ =>
    if response.isInterim then nextHead { s with salvaged } rest
    else
      (.item (.head response framing),
        { s with salvaged, body := some (BodyDecoder.ofFraming s.chunkLimit framing) }, rest)
termination_by b.length
decreasing_by exact takeHead_length _taken

/-- The state after a body decoder was asked: its end closes the body. -/
def afterPiece (s : Incoming) (d : BodyDecoder) : Progress Piece → Incoming
  | .item .finish => { s with body := none }
  | _ => { s with body := some d }

/-- A piece as an event. -/
def pieceEvent : Progress Piece → Progress Event
  | .need => .need
  | .item p => .item (.piece p)
  | .fail e => .fail e

theorem pieceEvent_eq_need {p : Progress Piece} : pieceEvent p = .need ↔ p = .need := by
  cases p <;> simp [pieceEvent]

theorem pieceEvent_eq_fail {p : Progress Piece} {e : DecodeError} :
    pieceEvent p = .fail e ↔ p = .fail e := by
  cases p <;> simp [pieceEvent]

theorem pieceEvent_eq_piece {p : Progress Piece} {q : Piece} :
    pieceEvent p = .item (.piece q) ↔ p = .item q := by
  cases p <;> simp [pieceEvent]

theorem pieceEvent_ne_head (p : Progress Piece) (response : Response) (framing : Framing) :
    pieceEvent p ≠ .item (.head response framing) := by
  cases p <;> simp [pieceEvent]

/-- The next event of the response, the state after it and the bytes that are
left. -/
def next (s : Incoming) (b : Bytes) : Progress Event × Incoming × Bytes :=
  match s.body with
  | none => s.nextHead b
  | some d =>
    match d.decode b with
    | (p, d', rest) => (pieceEvent p, s.afterPiece d' p, rest)

theorem next_of_body {s : Incoming} {d : BodyDecoder} (hd : s.body = some d) (b : Bytes) :
    s.next b = (pieceEvent (d.decode b).1, s.afterPiece (d.decode b).2.1 (d.decode b).1,
      (d.decode b).2.2) := by
  rw [next, hd]

theorem next_of_no_body {s : Incoming} (hd : s.body = none) (b : Bytes) :
    s.next b = s.nextHead b := by
  rw [next, hd]

/-- The same when the stream has ended. -/
def nextEnd (s : Incoming) (b : Bytes) : Progress Event × Incoming × Bytes :=
  match s.body with
  | none =>
    match s.nextHead b with
    | (.need, s', rest) =>
      (.fail (.cutShort
        s!"connection closed with {rest.length} bytes of incomplete response head"), s', rest)
    | r => r
  | some d =>
    match d.decodeEnd b with
    | (p, d', rest) => (pieceEvent p, s.afterPiece d' p, rest)

/-- The size of what is to be decoded: the bytes, and a chunk that is due. -/
def size (s : Incoming) (b : Bytes) : Nat := 2 * b.length + (s.body.any BodyDecoder.inData).toNat

theorem nextHead_ne_piece (s : Incoming) (b : Bytes) (p : Piece) :
    (s.nextHead b).1 ≠ .item (.piece p) := by
  fun_induction nextHead s b <;> simp_all

/-- Giving out data leaves less to decode. -/
theorem size_next {s s' : Incoming} {b x rest : Bytes}
    (h : s.next b = (.item (.piece (.data x)), s', rest)) : s'.size rest < s.size b := by
  unfold next at h
  split at h
  · exact absurd (congrArg Prod.fst h) (nextHead_ne_piece s b _)
  · next d hd =>
    split at h
    next p d' rest' hp =>
      simp only [Prod.mk.injEq] at h
      obtain ⟨h1, rfl, rfl⟩ := h
      cases p with
      | need => simp [pieceEvent] at h1
      | fail e => simp [pieceEvent] at h1
      | item q =>
        simp only [pieceEvent, Progress.item.injEq, Event.piece.injEq] at h1
        subst h1
        have := BodyDecoder.decode_data_length hp
        simpa [size, afterPiece, hd] using this

/-- Gives the kept response away. -/
def takeSalvaged (s : Incoming) : Option Response × Incoming :=
  (s.salvaged, { s with salvaged := none })

end Incoming
end Http1Client
