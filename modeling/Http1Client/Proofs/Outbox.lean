/-
# Requests in a row

An outbox takes messages, heads and pieces of bodies in any order, and puts the
bytes for those that it does not refuse into one buffer. Whatever it is given,
the buffer holds requests one behind the other, each a `Letter` with a head and
the body that was written behind it, and the next head is taken only where the
last letter is done with (`Outbox.holds_putAll`).

A letter that is done with has the body that its framing wants, but for one
case: the end of a body that is short of its declared length is refused and
still ends the letter. So there are as many letters that are cut short as ends
that were refused there, and no other refusal changes anything
(`Outbox.put_refused`).

Key definitions: `Message`, `Outbox`, `Outbox.put`, `Letter`,
`Framing.IsComplete`, `Outbox.Holds`.
Key theorems: `BodyEncoder.Begun.push`, `Outbox.Holds.put`,
`Outbox.holds_putAll`.
-/
import Http1Client.Proofs.Body.Writing
import Http1Client.Proofs.Head.Printing

namespace Http1Client

/-! ### Messages -/

/-- What is given to send. -/
inductive Message where
  | head (h : RequestHead) (framing : Framing)
  | piece (p : Piece)

/-- The bytes to send for a message, and the state after it. -/
def Outgoing.push (o : Outgoing) : Message → Except EncodeError Bytes × Outgoing
  | .head h framing => o.pushHead h framing
  | .piece p => o.pushPiece p

/-- The writing of requests into a buffer. -/
structure Outbox where
  outgoing : Outgoing := {}
  buffer : Bytes := []
  deriving DecidableEq

namespace Outbox

/-- Takes a message, and puts the bytes for it into the buffer. -/
def put (b : Outbox) (m : Message) : Except EncodeError Unit × Outbox :=
  match b.outgoing.push m with
  | (.ok bytes, o) => (.ok (), { outgoing := o, buffer := b.buffer ++ bytes })
  | (.error e, o) => (.error e, { b with outgoing := o })

/-- Takes messages one after the other, also behind one that is refused. -/
def putAll (b : Outbox) (ms : List Message) : Outbox := ms.foldl (fun b m => (b.put m).2) b

/-- Does the message end the body that is under way before it has its length? -/
def abandons (b : Outbox) (m : Message) : Bool :=
  match b.outgoing.body, m with
  | some (.length (_ + 1)), .piece .finish => true
  | _, _ => false

/-- How many of the messages end a body before it has its length. -/
def abandoned : Outbox → List Message → Nat
  | _, [] => 0
  | b, m :: ms => (b.abandons m).toNat + abandoned (b.put m).2 ms

theorem putAll_cons (b : Outbox) (m : Message) (ms : List Message) :
    b.putAll (m :: ms) = (b.put m).2.putAll ms := rfl

end Outbox

/-! ### Bodies -/

namespace Framing

/-- The bytes are a whole body, as the framing has it. -/
def IsComplete : Framing → Bytes → Prop
  | length n, b => b.length = n
  | chunked, b => ∃ ds, Chunked.IsPlainBody ds b
  | untilClose, _ => False
  | empty, b => b = []

/-- How many bytes of the declared length are missing. -/
def missing : Framing → Bytes → Nat
  | length n, b => n - b.length
  | _, _ => 0

theorem IsComplete.missing {f : Framing} {b : Bytes} (h : f.IsComplete b) : f.missing b = 0 := by
  cases f with
  | length n =>
    have hlen : b.length = n := h
    simp [Framing.missing, hlen]
  | _ => rfl

end Framing

namespace BodyEncoder

/-- These bytes are written of a body that is framed so, and more may come. -/
inductive Begun : Framing → Bytes → BodyEncoder → Prop where
  | length {n left : Nat} {b : Bytes} : 0 < n → b.length + left = n →
      Begun (.length n) b (.length left)
  | chunked {ds chunks : List Bytes} : List.Forall₂ Chunked.IsPlainChunk ds chunks →
      Begun .chunked chunks.flatten (.chunked false)
  | zero : Begun (.length 0) [] .empty
  | empty : Begun .empty [] .empty

/-- How many bytes of a declared length are still due. -/
def due : BodyEncoder → Nat
  | length left => left
  | _ => 0

variable {f : Framing} {b : Bytes} {e : BodyEncoder}

theorem begun_ofFraming (h : ofFraming f = .ok e) : Begun f [] e := by
  cases f with
  | length n =>
    rw [ofFraming] at h
    obtain rfl := Except.ok.inj h
    split
    · next hn =>
      subst hn
      exact .zero
    · next hn => exact .length (Nat.pos_of_ne_zero hn) (Nat.zero_add n)
  | chunked =>
    obtain rfl := Except.ok.inj h
    exact .chunked .nil
  | untilClose => simp [ofFraming] at h
  | empty =>
    obtain rfl := Except.ok.inj h
    exact .empty

theorem Begun.missing (h : Begun f b e) : f.missing b = e.due := by
  cases h with
  | length _ hlen =>
    simp only [Framing.missing, due]
    omega
  | _ => rfl

/-- What can come of a piece: data goes behind what is written, the end
completes the body, and a refusal changes nothing. -/
inductive Pushed (f : Framing) (b : Bytes) (e : BodyEncoder) :
    Piece → Except EncodeError Bytes × BodyEncoder → Prop where
  | data {x bytes : Bytes} {e' : BodyEncoder} : Begun f (b ++ bytes) e' →
      Pushed f b e (.data x) (.ok bytes, e')
  | finish {bytes : Bytes} {e' : BodyEncoder} : e.due = 0 → f.IsComplete (b ++ bytes) →
      Pushed f b e .finish (.ok bytes, e')
  | overLong {x : Bytes} {error : EncodeError} : Pushed f b e (.data x) (.error error, e)
  | short {error : EncodeError} : 0 < e.due → Pushed f b e .finish (.error error, e)

/-- What comes of a piece of a body that is under way. -/
theorem Begun.push (h : Begun f b e) (p : Piece) : Pushed f b e p (e.push p) := by
  have hnone : Pushed f b e (.data []) (.ok [], e) := .data (by rwa [List.append_nil])
  cases h with
  | @length n left b hn hlen =>
    match p with
    | .data [] => exact hnone
    | .data (x :: xs) =>
      rw [BodyEncoder.push]
      split
      · refine .data (.length hn ?_)
        rw [List.length_append]
        omega
      · exact .overLong
      · simp
    | .finish =>
      rw [BodyEncoder.push]
      split
      · next h0 => exact .finish h0 (by simp [Framing.IsComplete]; omega)
      · next h0 => exact .short (Nat.pos_of_ne_zero h0)
  | @chunked ds chunks hchunks =>
    match p with
    | .data [] => exact hnone
    | .data (x :: xs) =>
      have hne := List.cons_ne_nil x xs
      rw [push_chunk hne]
      have hmore : Chunked.IsPlainChunk (x :: xs) (Chunked.encodeChunk (x :: xs)) :=
        Chunked.isPlainChunk_iff.mpr ⟨hne, rfl⟩
      have hbegun := Begun.chunked (List.rel_append hchunks (.cons hmore .nil))
      exact .data (by simpa using hbegun)
    | .finish => exact .finish rfl ⟨ds, chunks, hchunks, rfl⟩
  | zero =>
    match p with
    | .data [] => exact hnone
    | .data (x :: xs) => exact .overLong
    | .finish => exact .finish rfl rfl
  | empty =>
    match p with
    | .data [] => exact hnone
    | .data (x :: xs) => exact .overLong
    | .finish => exact .finish rfl rfl

/-- A refusal changes nothing, and an end is refused only where bytes are due. -/
theorem push_refused {p : Piece} {e' : BodyEncoder} {error : EncodeError}
    (h : e.push p = (.error error, e')) : e' = e ∧ (p = .finish → 0 < e.due) := by
  unfold push at h
  split at h
  · cases h
  · cases h
  · split at h <;> cases h
    exact ⟨rfl, by simp⟩
  · split at h <;> cases h
    exact ⟨rfl, fun _ => Nat.pos_of_ne_zero ‹_›⟩
  · cases h
  · cases h
  · cases h
    exact ⟨rfl, by simp⟩
  · cases h

end BodyEncoder

/-! ### Letters -/

/-- A request in a buffer: its head, printed for a framing, and what is written
of the body behind it. -/
structure Letter where
  head : RequestHead
  framing : Framing
  printed : Bytes
  isPrint : head.print framing = .ok printed
  body : Bytes := []

namespace Letter

def bytes (l : Letter) : Bytes := l.printed ++ l.body

/-- The letter with more of its body. -/
def write (l : Letter) (b : Bytes) : Letter := { l with body := l.body ++ b }

theorem bytes_write (l : Letter) (b : Bytes) : (l.write b).bytes = l.bytes ++ b :=
  (List.append_assoc ..).symm

/-- The body is complete, as the framing has it. -/
def IsWhole (l : Letter) : Prop := l.framing.IsComplete l.body

/-- The body is shorter than it was declared. -/
def isCutShort (l : Letter) : Bool := decide (0 < l.framing.missing l.body)

theorem IsWhole.isCutShort {l : Letter} (h : l.IsWhole) : l.isCutShort = false := by
  simp [Letter.isCutShort, Framing.IsComplete.missing h]

end Letter

namespace Outbox

/-- The buffer holds these letters that are done with and, behind them, at most
one that is under way. -/
structure Holds (b : Outbox) (sent : List Letter) (current : Option Letter) : Prop where
  buffer : b.buffer = (sent ++ current.toList).flatMap Letter.bytes
  ended : ∀ l ∈ sent, l.IsWhole ∨ l.isCutShort = true
  begun : Option.Rel (fun l e => BodyEncoder.Begun l.framing l.body e) current b.outgoing.body

section Put

variable {b b' : Outbox} {m : Message} {error : EncodeError} {sent : List Letter}
  {current : Option Letter}

theorem put_of_ok {bytes : Bytes} {o : Outgoing} (h : b.outgoing.push m = (.ok bytes, o)) :
    b.put m = (.ok (), { outgoing := o, buffer := b.buffer ++ bytes }) := by
  rw [put, h]

theorem put_of_error {o : Outgoing} (h : b.outgoing.push m = (.error error, o)) :
    b.put m = (.error error, { b with outgoing := o }) := by
  rw [put, h]

/-- A head is refused inside a body, and a piece outside of one. -/
theorem put_head_of_some {e : BodyEncoder} (hb : b.outgoing.body = some e) (h : RequestHead)
    (framing : Framing) : b.put (.head h framing) = (.error .outOfTurn, b) :=
  put_of_error (by rw [Outgoing.push, Outgoing.pushHead, hb])

theorem put_piece_of_none (hb : b.outgoing.body = none) (p : Piece) :
    b.put (.piece p) = (.error .outOfTurn, b) :=
  put_of_error (by rw [Outgoing.push, Outgoing.pushPiece, hb])

/-- Between two requests, a head begins a letter or is refused. -/
theorem put_head_of_none (hb : b.outgoing.body = none) (h : RequestHead) (framing : Framing) :
    (∃ error, b.put (.head h framing) = (.error error, b)) ∨
      ∃ bytes e, h.print framing = .ok bytes ∧ BodyEncoder.ofFraming framing = .ok e ∧
        b.put (.head h framing) =
          (.ok (), { outgoing := { body := some e }, buffer := b.buffer ++ bytes }) := by
  cases he : BodyEncoder.ofFraming framing with
  | error error =>
    exact .inl ⟨error, put_of_error (by rw [Outgoing.push, Outgoing.pushHead, hb, he])⟩
  | ok e =>
    cases hprint : h.print framing with
    | error error =>
      exact .inl ⟨error, put_of_error (by simp [Outgoing.push, Outgoing.pushHead, hb, he, hprint])⟩
    | ok bytes =>
      refine .inr ⟨bytes, e, rfl, rfl, put_of_ok ?_⟩
      simp [Outgoing.push, Outgoing.pushHead, hb, he, hprint]

theorem push_piece {e : BodyEncoder} (hb : b.outgoing.body = some e) (p : Piece) :
    b.outgoing.push (.piece p) =
      ((e.push p).1, { body := if p.isFinish then none else some (e.push p).2 }) := by
  rw [Outgoing.push, Outgoing.pushPiece, hb]

/-- To end a body is to abandon it where bytes of it are due. -/
theorem abandons_finish {e : BodyEncoder} (hb : b.outgoing.body = some e) :
    b.abandons (.piece .finish) = decide (0 < e.due) := by
  unfold abandons
  rw [hb]
  cases e with
  | length left => cases left <;> rfl
  | _ => rfl

theorem abandons_data (x : Bytes) : b.abandons (.piece (.data x)) = false := by
  unfold abandons
  split
  · next h => simp at h
  · rfl

theorem abandons_head (h : RequestHead) (framing : Framing) :
    b.abandons (.head h framing) = false := by
  unfold abandons
  split
  · next h => simp at h
  · rfl

theorem abandons_of_none (hb : b.outgoing.body = none) (m : Message) : b.abandons m = false := by
  unfold abandons
  rw [hb]

theorem Holds.body_of_none (h : b.Holds sent none) : b.outgoing.body = none := by
  have hbegun := h.begun
  generalize b.outgoing.body = body at hbegun
  cases hbegun
  rfl

theorem Holds.body_of_some {l : Letter} (h : b.Holds sent (some l)) :
    ∃ e, b.outgoing.body = some e ∧ BodyEncoder.Begun l.framing l.body e := by
  have hbegun := h.begun
  generalize b.outgoing.body = body at hbegun
  cases hbegun with
  | some hl => exact ⟨_, rfl, hl⟩

/-- Behind an end that is refused, the letter is done with and cut short. -/
theorem Holds.abandon {l : Letter} (h : b.Holds sent (some l)) (hl : l.isCutShort = true) :
    Holds { b with outgoing := {} } (sent ++ [l]) none where
  buffer := by simpa using h.buffer
  ended x hx := by
    rcases List.mem_append.mp hx with hx | hx
    · exact h.ended x hx
    · rw [List.mem_singleton.mp hx]
      exact .inr hl
  begun := .none

/-- Behind its end, a letter is done with and whole. -/
theorem Holds.complete {l : Letter} {bytes : Bytes} (h : b.Holds sent (some l))
    (hl : (l.write bytes).IsWhole) :
    Holds { outgoing := {}, buffer := b.buffer ++ bytes } (sent ++ [l.write bytes]) none where
  buffer := by simp [h.buffer, Letter.bytes_write]
  ended x hx := by
    rcases List.mem_append.mp hx with hx | hx
    · exact h.ended x hx
    · rw [List.mem_singleton.mp hx]
      exact .inl hl
  begun := .none

/-- The message may end letters and begin one, and cuts one short only where it
abandons it. -/
def Keeps (b : Outbox) (m : Message) (sent : List Letter) : Prop :=
  ∃ more current', (b.put m).2.Holds (sent ++ more) current' ∧
    more.countP Letter.isCutShort = (b.abandons m).toNat

theorem Holds.keeps_of_refused (h : b.Holds sent current) (hm : b.abandons m = false)
    (hput : b.put m = (.error error, b)) : b.Keeps m sent := by
  refine ⟨[], current, ?_, by rw [hm]; rfl⟩
  rwa [hput, List.append_nil]

/-- A message between two requests. -/
theorem Holds.put_between (h : b.Holds sent none) (m : Message) : b.Keeps m sent := by
  have hb := h.body_of_none
  have hnone := abandons_of_none hb m
  cases m with
  | piece p => exact h.keeps_of_refused hnone (put_piece_of_none hb p)
  | head head framing =>
    rcases put_head_of_none hb head framing with ⟨error, hput⟩ | ⟨bytes, e, hp, he, hput⟩
    · exact h.keeps_of_refused hnone hput
    · refine ⟨[], some { head, framing, printed := bytes, isPrint := hp }, ?_, by rw [hnone]; rfl⟩
      rw [hput]
      refine ⟨?_, by simpa using h.ended, .some (BodyEncoder.begun_ofFraming he)⟩
      simpa [Letter.bytes] using h.buffer

/-- A message inside the body of a request. -/
theorem Holds.put_inside {l : Letter} (h : b.Holds sent (some l)) (m : Message) :
    b.Keeps m sent := by
  obtain ⟨e, hb, hl⟩ := h.body_of_some
  cases m with
  | head head framing =>
    exact h.keeps_of_refused (abandons_head ..) (put_head_of_some hb head framing)
  | piece p =>
    have hpush := push_piece hb p
    have hpushed := hl.push p
    rcases hr : e.push p with ⟨r, e'⟩
    rw [hr] at hpush hpushed
    cases hpushed with
    | @data x bytes _ hl' =>
      refine ⟨[], some (l.write bytes), ?_, by rw [abandons_data]; rfl⟩
      rw [put_of_ok hpush, List.append_nil]
      refine ⟨?_, h.ended, .some hl'⟩
      simp [h.buffer, Letter.bytes_write]
    | @finish bytes _ hdue hwhole =>
      have hcut : (l.write bytes).isCutShort = false := Letter.IsWhole.isCutShort hwhole
      refine ⟨[l.write bytes], none, ?_, by simp [abandons_finish hb, hdue, hcut]⟩
      rw [put_of_ok hpush]
      exact h.complete hwhole
    | @overLong x error =>
      have hput : b.put (.piece (.data x)) = (.error error, b) := by
        rw [put_of_error hpush]
        simp [Piece.isFinish, ← Outgoing.eq_of_body hb]
      exact h.keeps_of_refused (abandons_data x) hput
    | @short error hdue =>
      have hcut : l.isCutShort = true := by simpa [Letter.isCutShort, hl.missing] using hdue
      refine ⟨[l], none, ?_, by simp [abandons_finish hb, hdue, hcut]⟩
      rw [put_of_error hpush]
      exact h.abandon hcut

/-- A message keeps what the buffer holds: a letter begins, goes on or is
done with. -/
theorem Holds.put (h : b.Holds sent current) (m : Message) : b.Keeps m sent := by
  cases current with
  | none => exact h.put_between m
  | some l => exact h.put_inside m

/-- A refusal writes nothing, and it changes nothing unless it abandons the
body that is under way. -/
theorem put_refused (h : b.put m = (.error error, b')) :
    b'.buffer = b.buffer ∧ (b' = b ∨ b.abandons m = true ∧ b'.outgoing.body = none) := by
  rcases hb : b.outgoing.body with - | e
  · cases m with
    | piece p =>
      rw [put_piece_of_none hb] at h
      cases h
      exact ⟨rfl, .inl rfl⟩
    | head head framing =>
      rcases put_head_of_none hb head framing with ⟨error, hput⟩ | ⟨bytes, e, -, -, hput⟩
      all_goals
        rw [hput] at h
        cases h
      exact ⟨rfl, .inl rfl⟩
  · cases m with
    | head head framing =>
      rw [put_head_of_some hb] at h
      cases h
      exact ⟨rfl, .inl rfl⟩
    | piece p =>
      have hpush := push_piece hb p
      rcases hr : e.push p with ⟨r, e'⟩
      rw [hr] at hpush
      cases r with
      | ok bytes => simp [put_of_ok hpush] at h
      | error fault =>
        obtain ⟨rfl, hp⟩ := BodyEncoder.push_refused hr
        rw [put_of_error hpush] at h
        cases h
        refine ⟨rfl, ?_⟩
        cases p with
        | data x => exact .inl (by simp [Piece.isFinish, ← Outgoing.eq_of_body hb])
        | finish => exact .inr ⟨by simpa [abandons_finish hb] using hp rfl, rfl⟩

/-- A head that is not refused begins a letter, and none was under way. -/
theorem Holds.head_ok (h : b.Holds sent current) {head : RequestHead} {framing : Framing}
    (hput : b.put (.head head framing) = (.ok (), b')) : current = none := by
  cases current with
  | none => rfl
  | some l =>
    obtain ⟨e, hb, -⟩ := h.body_of_some
    rw [put_head_of_some hb] at hput
    cases hput

theorem Holds.isSending (h : b.Holds sent current) :
    b.outgoing.isSending = current.isSome := by
  cases current with
  | none => rw [Outgoing.isSending, h.body_of_none, Option.isSome_none, Option.isSome_none]
  | some l =>
    obtain ⟨e, hb, -⟩ := h.body_of_some
    rw [Outgoing.isSending, hb, Option.isSome_some, Option.isSome_some]

end Put

/-! ### Messages one after the other -/

theorem Holds.putAll : ∀ (ms : List Message) {b : Outbox}
    {current : Option Letter} {sent : List Letter}, b.Holds sent current →
      ∃ more current', (b.putAll ms).Holds (sent ++ more) current' ∧
        more.countP Letter.isCutShort = abandoned b ms
  | [], b, current, sent, h => ⟨[], current, by rwa [List.append_nil], rfl⟩
  | m :: ms, b, current, sent, h => by
    obtain ⟨more, current', hput, hcount⟩ := h.put m
    obtain ⟨more', current'', hrest, hcount'⟩ := Holds.putAll ms hput
    refine ⟨more ++ more', current'', ?_, ?_⟩
    · rwa [putAll_cons, ← List.append_assoc]
    · rw [List.countP_append, hcount, hcount', abandoned]

/-- **Requests stay framed**, whatever is given to send. The buffer holds letters
that are done with and at most one that is under way, and a head is taken only
between them. As many letters are cut short as bodies were abandoned, and all
others are whole. A refusal writes nothing, and leaves the state as it is unless
it abandons a body. -/
theorem holds_putAll (ms : List Message) : ∃ sent current,
    (putAll {} ms).Holds sent current ∧
      (putAll {} ms).outgoing.isSending = current.isSome ∧
      sent.countP Letter.isCutShort = abandoned {} ms ∧
      (∀ head framing b', (putAll {} ms).put (.head head framing) = (.ok (), b') →
        current = none) ∧
      ∀ m error b', (putAll {} ms).put m = (.error error, b') →
        b'.buffer = (putAll {} ms).buffer ∧
          (b' = putAll {} ms ∨ (putAll {} ms).abandons m = true ∧ b'.outgoing.body = none) := by
  have hstart : Holds {} [] none := ⟨rfl, by simp, .none⟩
  obtain ⟨sent, current, h, hcount⟩ := Holds.putAll ms hstart
  exact ⟨sent, current, h, h.isSending, hcount, fun _ _ _ => h.head_ok, fun _ _ _ => put_refused⟩

/-- The end of a body of which all five bytes are due is refused, and the next
head goes straight behind the first. -/
theorem end_refused : ∃ head b₁ error b₂ b₃,
    put {} (.head head (.length 5)) = (.ok (), b₁) ∧ b₁.outgoing.isSending = true ∧
      b₁.put (.piece .finish) = (.error error, b₂) ∧ b₂.outgoing.isSending = false ∧
      b₂.put (.head head (.length 5)) = (.ok (), b₃) ∧ b₃.buffer = b₁.buffer ++ b₁.buffer := by
  let head : RequestHead :=
    { method := ⟨Bytes.ofText "GET", by decide +kernel, by decide +kernel⟩
      uri := { authority := some ['a'] } }
  obtain ⟨value, hvalue⟩ : ∃ value, FieldValue.ofBytes? (Bytes.utf8 ['a']) = some value :=
    Option.isSome_iff_exists.mp (by decide +kernel)
  obtain ⟨printed, hprint⟩ : ∃ printed, head.print (.length 5) = .ok printed :=
    ⟨_, RequestHead.print_of_host rfl hvalue rfl (.length 5)⟩
  have hhead : ∀ b : Outbox, b.outgoing.body = none → b.put (.head head (.length 5)) =
      (.ok (), { outgoing := { body := some (.length 5) }, buffer := b.buffer ++ printed }) := by
    intro b hb
    rw [put_of_ok]
    simp [Outgoing.push, Outgoing.pushHead, hb, BodyEncoder.ofFraming, hprint]
  exact ⟨head, _, _, _, _, hhead {} rfl, rfl, rfl, rfl, hhead _ rfl, rfl⟩

end Outbox
end Http1Client
