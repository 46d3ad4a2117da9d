/-
# Reading a body with nothing but its decoder

Past the head, a receiver reads the body as a machine does that has a decoder of
the body, a buffer, and nothing else (`BodyReader`). There is no search for a head
in it, so no head can be found inside the body or missed in front of it, and where
the stream ends it hands over no data.

A receiver inside the body is such a machine with the rest of what a receiver
knows around it (`Receiver.pollBody_eq`): every question for data is answered as
the machine answers it, asks the wire what the machine asks it, and leaves the
receiver around the machine that is left. In particular, no byte behind the head
is ever searched for another one.

Key definitions: `BodyDecoder.drain`, `BodyReader`, `BodyReader.poll`,
`Receiver.around`.
Key theorems: `Incoming.drain_eq`, `Receiver.drain_eq`, `Receiver.pollBody_eq`.
-/
import Http1Client.Proofs.Buffering

namespace Http1Client

/-! ### The machine -/

/-- Gives out data until there is at least `limit` of it, the body ends or more
bytes are needed; `got` is how much there is already. -/
def BodyDecoder.drain (limit : Option Nat) (got : Nat) (d : BodyDecoder) (b : Bytes) :
    Except DecodeError (Bytes × Bool) × BodyDecoder × Bytes :=
  if limit.all (got < ·) then
    match _given : d.decode b with
    | (.item (.data x), d', rest) =>
      match drain limit (got + x.length) d' rest with
      | (.ok (data, last), d'', rest') => (.ok (x ++ data, last), d'', rest')
      | (.error e, d'', rest') => (.error e, d'', rest')
    | (.item .finish, d', rest) => (.ok ([], true), d', rest)
    | (.fail e, d', rest) => (.error e, d', rest)
    | (.need, d', rest) => (.ok ([], false), d', rest)
  else (.ok ([], false), d, b)
termination_by 2 * b.length + d.inData.toNat
decreasing_by exact BodyDecoder.decode_data_length _given

/-- A decoder of a body, with the bytes that it is to decode and the most bytes
that are read at once. -/
structure BodyReader where
  decoder : BodyDecoder
  room : Nat
  buffer : Bytes

namespace BodyReader

/-- Puts bytes that were read behind those in the buffer. -/
def receive (m : BodyReader) (b : Bytes) : BodyReader := { m with buffer := m.buffer ++ b }

/-- Hands over data from the buffer, at least `limit` of it if there is so much. -/
def drain (m : BodyReader) (limit : Option Nat) : Except DecodeError Delivery × BodyReader :=
  match m.decoder.drain limit 0 m.buffer with
  | (.error e, decoder, buffer) => (.error e, { m with decoder, buffer })
  | (.ok (data, last), decoder, buffer) => (.ok ⟨data, last⟩, { m with decoder, buffer })

/-- Reads until the buffer holds `target` bytes. -/
def fill (target : Nat) (m : BodyReader) (w : Wire) :
    Poll (Except DecodeError Unit) × BodyReader × Wire :=
  if m.buffer.length < target then
    match _read : w.read (min m.room (target - m.buffer.length)) with
    | (.wait again, w') => (.wait again, m, w')
    | (.ready (.error e), w') => (.ready (.error (.io e)), m, w')
    | (.ready (.ok []), w') =>
      (.ready (.error (.cutShort
        s!"connection closed with {target - m.buffer.length} body bytes outstanding")), m, w')
    | (.ready (.ok (x :: xs)), w') => fill target (m.receive (x :: xs)) w'
  else (.ready (.ok ()), m, w)
termination_by w.readSize
decreasing_by exact Wire.readSize_read (List.cons_ne_nil x xs) _read

/-- Asks for data of a body of which `left` bytes are still to be given out. -/
def pollLength (left size : Nat) (m : BodyReader) (w : Wire) :
    Poll (Except DecodeError Delivery) × BodyReader × Wire :=
  let target := m.buffer.length + min (left - m.buffer.length) (size - m.buffer.length)
  match fill target m w with
  | (.wait again, m', w') => (.wait again, m', w')
  | (.ready (.error e), m', w') => (.ready (.error e), m', w')
  | (.ready (.ok ()), m', w') =>
    match m'.drain none with
    | (result, m'') => (.ready result, m'', w')

/-- Asks for data of a chunked body. -/
def pollChunks (size : Nat) (m : BodyReader) (w : Wire) :
    Poll (Except DecodeError Delivery) × BodyReader × Wire :=
  match m.drain (some (max size 1)) with
  | (.error e, m') => (.ready (.error e), m', w)
  | (.ok d, m') =>
    if d.data ≠ [] ∨ d.last then (.ready (.ok d), m', w)
    else
      match _read : w.read m'.room with
      | (.wait again, w') => (.wait again, m', w')
      | (.ready (.error e), w') => (.ready (.error (.io e)), m', w')
      | (.ready (.ok []), w') =>
        (.ready (.error (.cutShort "connection closed before the last chunk")), m', w')
      | (.ready (.ok (x :: xs)), w') => pollChunks size (m'.receive (x :: xs)) w'
termination_by w.readSize
decreasing_by exact Wire.readSize_read (List.cons_ne_nil x xs) _read

/-- Asks for data of a body that ends with the connection. -/
def pollUntilClose (size : Nat) (m : BodyReader) (w : Wire) :
    Poll (Except DecodeError Delivery) × BodyReader × Wire :=
  if m.buffer = [] then
    match w.read (min m.room (max size 1)) with
    | (.wait again, w') => (.wait again, m, w')
    | (.ready (.error e), w') => (.ready (.error (.io e)), m, w')
    | (.ready (.ok []), w') =>
      (.ready (.ok .finished), { m with decoder := .untilClose true }, w')
    | (.ready (.ok b), w') =>
      match (m.receive b).drain none with
      | (result, m') => (.ready result, m', w')
  else
    match m.drain none with
    | (result, m') => (.ready result, m', w)

/-- Asks for data of the body, about `size` bytes of it. -/
def poll (size : Nat) (m : BodyReader) (w : Wire) :
    Poll (Except DecodeError Delivery) × BodyReader × Wire :=
  match m.decoder with
  | .length left => pollLength left size m w
  | .chunked _ => pollChunks size m w
  | .untilClose _ => pollUntilClose size m w
  | .empty =>
    match m.drain none with
    | (result, m') => (.ready result, m', w)

end BodyReader

/-! ### The machine inside a receiver -/

/-- Is the body complete with what was answered? -/
def Poll.isLast : Poll (Except DecodeError Delivery) → Bool
  | .ready (.ok d) => d.last
  | _ => false

namespace Incoming

variable {s s' : Incoming} {d : BodyDecoder} {limit : Option Nat} {got : Nat} {b : Bytes}

/-- What is known of the response when data was taken out of its body. -/
def afterDrain (s : Incoming) (result : Except DecodeError (Bytes × Bool)) (d : BodyDecoder) :
    Incoming :=
  match result with
  | .ok (_, true) => { s with body := none }
  | _ => { s with body := some d }

theorem next_of_decode {p : Progress Piece} {d' : BodyDecoder} {rest : Bytes}
    (hbody : s.body = some d) (h : d.decode b = (p, d', rest)) :
    s.next b = (pieceEvent p, s.afterPiece d' p, rest) := by
  rw [next_of_body hbody, h]

theorem drain_eq (hbody : s.body = some d) : s.drain limit got b =
    ((d.drain limit got b).1,
      s.afterDrain (d.drain limit got b).1 (d.drain limit got b).2.1,
      (d.drain limit got b).2.2) := by
  fun_induction BodyDecoder.drain limit got d b generalizing s with
  | case1 got d b hl x d₁ rest₁ hdecode data last d₂ rest₂ hrest ih =>
    have hnext := next_of_decode hbody hdecode
    have hdrain := ih (s := s.afterPiece d₁ (.item (.data x))) rfl
    rw [drain_of_wanted hl, hnext]
    dsimp only [pieceEvent]
    rw [hdrain, hrest]
    cases last <;> rfl
  | case2 got d b hl x d₁ rest₁ hdecode e d₂ rest₂ hrest ih =>
    have hnext := next_of_decode hbody hdecode
    have hdrain := ih (s := s.afterPiece d₁ (.item (.data x))) rfl
    rw [drain_of_wanted hl, hnext]
    dsimp only [pieceEvent]
    rw [hdrain, hrest]
    rfl
  | case3 got d b hl d₁ rest₁ hdecode =>
    rw [drain_of_wanted hl, next_of_decode hbody hdecode]
    rfl
  | case4 got d b hl e d₁ rest₁ hdecode =>
    rw [drain_of_wanted hl, next_of_decode hbody hdecode]
    rfl
  | case5 got d b hl d₁ rest₁ hdecode =>
    rw [drain_of_wanted hl, next_of_decode hbody hdecode]
    rfl
  | case6 got d b hl =>
    rw [drain, if_neg hl]
    show _ = (_, { s with body := some d }, _)
    rw [← hbody]

end Incoming

namespace Receiver

variable {r : Receiver} {d : BodyDecoder} {m m' : BodyReader} {w : Wire} {size : Nat}

/-- What of a receiver reads the body, with the decoder in this state. -/
def reader (r : Receiver) (d : BodyDecoder) : BodyReader := ⟨d, r.room, r.buffer⟩

/-- The receiver around a machine, inside the body or behind the last delivery. -/
def around (r : Receiver) (m : BodyReader) : Bool → Receiver
  | false => { r with incoming := { r.incoming with body := some m.decoder }, buffer := m.buffer }
  | true => finish { r with incoming := { r.incoming with body := none }, buffer := m.buffer }

/-- The answer of a machine as that of the receiver around it. -/
def answered (r : Receiver) (a : Poll (Except DecodeError Delivery) × BodyReader × Wire) :
    Poll (Except DecodeError Delivery) × Receiver × Wire :=
  (a.1, r.around a.2.1 a.1.isLast, a.2.2)

/-- The receiver is inside the body, around the machine. -/
structure IsAround (r : Receiver) (m : BodyReader) : Prop where
  openAt : r.OpenAt m.decoder
  room : m.room = r.room
  buffer : m.buffer = r.buffer

theorem OpenAt.isAround (h : r.OpenAt d) : r.IsAround (r.reader d) := ⟨h, rfl, rfl⟩

theorem IsAround.eq (h : r.IsAround m) : r.around m false = r := by
  rw [around, h.buffer, ← h.openAt.body]

/-- The same receiver around what its machine has become. -/
theorem IsAround.next (h : r.IsAround m) (hroom : m'.room = m.room) :
    (r.around m' false).IsAround m' :=
  ⟨⟨rfl, h.openAt.unfinished, h.openAt.room⟩, hroom.trans h.room, rfl⟩

theorem IsAround.receive (h : r.IsAround m) (b : Bytes) :
    (r.receive b).IsAround (m.receive b) := by
  refine ⟨⟨h.openAt.body, h.openAt.unfinished, h.openAt.room⟩, h.room, ?_⟩
  rw [BodyReader.receive, Receiver.receive, h.buffer]

/-! What a receiver had around it does not matter to what it has around another
machine. -/

theorem answered_around (r : Receiver) (m : BodyReader)
    (a : Poll (Except DecodeError Delivery) × BodyReader × Wire) :
    (r.around m false).answered a = r.answered a := by
  rw [answered, answered]
  cases a.1.isLast <;> rfl

theorem answered_receive (r : Receiver) (b : Bytes)
    (a : Poll (Except DecodeError Delivery) × BodyReader × Wire) :
    (r.receive b).answered a = r.answered a := by
  rw [answered, answered]
  cases a.1.isLast <;> rfl

/-- Data is taken out of the buffer by the machine. -/
theorem drain_eq {limit : Option Nat} {result : Except DecodeError Delivery} (h : r.IsAround m)
    (hdrain : m.drain limit = (result, m')) :
    r.drain limit = (result, r.around m' (Poll.ready result).isLast) ∧ m'.room = m.room := by
  rw [BodyReader.drain] at hdrain
  rw [drain, Incoming.drain_eq h.openAt.body, ← h.buffer]
  rcases hd : m.decoder.drain limit 0 m.buffer with ⟨e | ⟨data, last⟩, d', rest⟩
  · rw [hd] at hdrain
    cases hdrain
    exact ⟨rfl, rfl⟩
  · rw [hd] at hdrain
    cases hdrain
    cases last <;> exact ⟨rfl, rfl⟩

/-- What a machine hands over from its buffer, the receiver around it does. -/
theorem answered_drain (h : r.IsAround m) (limit : Option Nat) (w : Wire) :
    (.ready (r.drain limit).1, (r.drain limit).2, w) =
      r.answered (.ready (m.drain limit).1, (m.drain limit).2, w) := by
  rw [(drain_eq h rfl).1]
  rfl

/-- Where nothing is taken out, the receiver is still inside the body. -/
theorem drain_nil_eq {limit : Option Nat} {d : Delivery} (h : r.IsAround m)
    (hdrain : m.drain limit = (.ok d, m')) (hnil : ¬ (d.data ≠ [] ∨ d.last = true)) :
    r.drain limit = (.ok d, r.around m' false) ∧ (r.around m' false).IsAround m' := by
  obtain ⟨hr, hroom⟩ := drain_eq h hdrain
  have hlast : (Poll.ready (.ok d)).isLast = false := by
    rw [Poll.isLast, ← Bool.not_eq_true]
    exact fun hlast => hnil (.inr hlast)
  rw [hlast] at hr
  exact ⟨hr, h.next hroom⟩

theorem room_fill (target : Nat) (m : BodyReader) (w : Wire) :
    (m.fill target w).2.1.room = m.room := by
  fun_induction BodyReader.fill target m w with
  | case4 m w hlt x xs w₁ hread ih => exact ih
  | _ => rfl

theorem fill_eq {target : Nat} (h : r.IsAround m) : fill target r w =
    ((m.fill target w).1, r.around (m.fill target w).2.1 false, (m.fill target w).2.2) := by
  fun_induction BodyReader.fill target m w generalizing r with
  | case1 m w hlt again w₁ hread =>
    rw [h.room, h.buffer] at hread
    rw [fill_of_lt (h.buffer ▸ hlt), hread, h.eq]
  | case2 m w hlt e w₁ hread =>
    rw [h.room, h.buffer] at hread
    rw [fill_of_lt (h.buffer ▸ hlt), hread, h.eq]
  | case3 m w hlt w₁ hread =>
    rw [h.room, h.buffer] at hread
    rw [fill_of_lt (h.buffer ▸ hlt), hread, h.eq, h.buffer]
  | case4 m w hlt x xs w₁ hread ih =>
    rw [h.room, h.buffer] at hread
    rw [fill_of_read (h.buffer ▸ hlt) hread]
    exact ih (h.receive _)
  | case5 m w hge =>
    rw [fill, if_neg (h.buffer ▸ hge), h.eq]

theorem pollLength_eq {left : Nat} (h : r.IsAround m) :
    pollLength left size r w = r.answered (m.pollLength left size w) := by
  have htarget : r.fillTarget left size =
      m.buffer.length + min (left - m.buffer.length) (size - m.buffer.length) := by
    rw [fillTarget, h.buffer]
  rw [pollLength, htarget, fill_eq h, BodyReader.pollLength]
  generalize m.buffer.length + _ = target
  have hroom := room_fill target m w
  rcases hfill : BodyReader.fill target m w with ⟨(e | _) | again, m₁, w₁⟩
  · rfl
  · rw [hfill] at hroom
    have hdrain := answered_drain (h.next hroom) none w₁
    rw [answered_around] at hdrain
    exact hdrain
  · rfl

/-- A chunked body is cut short where the stream ends. -/
theorem drainAtEnd_chunked (hc : r.incoming.chunking = some true)
    (hneed : r.incoming.next r.buffer = (.need, r.incoming, r.buffer)) : r.drainAtEnd =
      (.error (.cutShort "connection closed before the last chunk"), r) := by
  obtain ⟨c, hbody⟩ := chunked_of_chunking hc
  have hdecode : BodyDecoder.decode (.chunked c) r.buffer = (.need, .chunked c, r.buffer) :=
    Incoming.decode_of_next hbody hneed
  simp only [BodyDecoder.decode, Prod.mk.injEq, BodyDecoder.chunked.injEq] at hdecode
  have hend : c.decodeEnd r.buffer =
      (.fail (.cutShort "connection closed before the last chunk"), c, r.buffer) := by
    have hneed' : c.decode r.buffer = (.need, c, r.buffer) :=
      Prod.ext hdecode.1 (Prod.ext hdecode.2.1 hdecode.2.2)
    rw [ChunkedDecoder.decodeEnd, hneed']
  have hsame : { r.incoming with body := some (.chunked c) } = r.incoming := by rw [← hbody]
  rw [drainAtEnd, Incoming.nextEnd, hbody]
  simp only [BodyDecoder.decodeEnd, hend, Incoming.pieceEvent, Incoming.afterPiece, hsame]

theorem pollChunks_eq (h : r.IsAround m) (hc : r.incoming.chunking = some true) :
    pollChunks size r w = r.answered (m.pollChunks size w) := by
  have hsize : 0 < max size 1 := by omega
  -- The machine reads on, and every reading leaves another receiver around it.
  fun_induction BodyReader.pollChunks size m w generalizing r with
  | case1 m w e m₁ hdrain =>
    rw [pollChunks, (drain_eq h hdrain).1]
    rfl
  | case2 m w d m₁ hdrain hgiven =>
    rw [pollChunks, (drain_eq h hdrain).1]
    dsimp only
    rw [if_pos hgiven]
    rfl
  | case3 m w d m₁ hdrain hnil again w₁ hread =>
    obtain ⟨hr, h₁⟩ := drain_nil_eq h hdrain hnil
    rw [h₁.room] at hread
    rw [pollChunks_of_nil hr hnil, hread]
    rfl
  | case4 m w d m₁ hdrain hnil e w₁ hread =>
    obtain ⟨hr, h₁⟩ := drain_nil_eq h hdrain hnil
    rw [h₁.room] at hread
    rw [pollChunks_of_nil hr hnil, hread]
    rfl
  | case5 m w d m₁ hdrain hnil w₁ hread =>
    obtain ⟨hr, h₁⟩ := drain_nil_eq h hdrain hnil
    have hopen := (open_of_drain_nil hc hr hnil).1
    have hneed : (r.around m₁ false).incoming.next m₁.buffer =
        (.need, (r.around m₁ false).incoming, m₁.buffer) := by
      obtain ⟨data, last⟩ := d
      obtain ⟨rfl, rfl⟩ : data = [] ∧ last = false := by simpa using hnil
      exact next_of_drain hsize hr
    rw [h₁.room] at hread
    rw [pollChunks_of_nil hr hnil, hread]
    dsimp only
    rw [drainAtEnd_chunked hopen hneed]
    rfl
  | case6 m w d m₁ hdrain hnil x xs w₁ hread ih =>
    obtain ⟨hr, h₁⟩ := drain_nil_eq h hdrain hnil
    have hopen := (open_of_drain_nil hc hr hnil).1
    rw [h₁.room] at hread
    rw [pollChunks_of_read hr hnil hread, ih (h₁.receive _) hopen, answered_receive,
      answered_around]

theorem pollUntilClose_eq {ended : Bool} (h : r.IsAround m) (hd : m.decoder = .untilClose ended) :
    pollUntilClose size r w = r.answered (m.pollUntilClose size w) := by
  by_cases hnil : m.buffer = []
  · have hend : r.drainAtEnd = (.ok .finished, r.around m true) := by
      rw [drainAtEnd, Incoming.nextEnd, h.openAt.body, hd, ← h.buffer, hnil, around, hnil]
      rfl
    rw [pollUntilClose, BodyReader.pollUntilClose, if_pos hnil, if_pos (h.buffer ▸ hnil), ← h.room]
    rcases w.read (min m.room (max size 1)) with ⟨(e | b) | again, w₁⟩
    · show (_, r, w₁) = (_, r.around m false, w₁)
      rw [h.eq]
    · cases b with
      | nil =>
        dsimp only
        rw [hend]
        rfl
      | cons x xs =>
        have hdrain := answered_drain (h.receive (x :: xs)) none w₁
        rw [answered_receive] at hdrain
        exact hdrain
    · show (_, r, w₁) = (_, r.around m false, w₁)
      rw [h.eq]
  · rw [pollUntilClose, BodyReader.pollUntilClose, if_neg hnil, if_neg (h.buffer ▸ hnil)]
    exact answered_drain h none w

/-- A receiver inside the body reads it as the machine does that is in it. -/
theorem pollBody_eq (h : r.OpenAt d) (size : Nat) (w : Wire) :
    r.pollBody size w = r.answered ((r.reader d).poll size w) := by
  have haround := h.isAround
  have hunfinished : ¬ r.finished = true := by
    rw [h.unfinished]
    exact Bool.false_ne_true
  rw [pollBody, if_neg hunfinished, h.body]
  cases d with
  | length left => exact pollLength_eq haround
  | chunked c => exact pollChunks_eq haround (by rw [Incoming.chunking, h.body]; rfl)
  | untilClose ended => exact pollUntilClose_eq haround rfl
  | empty => exact answered_drain haround none w

end Receiver

end Http1Client
