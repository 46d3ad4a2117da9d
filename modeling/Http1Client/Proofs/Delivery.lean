/-
# The body is delivered exactly

A `Reading` asks a receiver for the head until it has it, and then for data,
again and again. Whatever the wire answers, and whatever sizes are asked for,
the data that was handed over is a front part of the body of the response, and
all of it once the receiver has said so (`Reading.data_run`). A question that
is not ready or that the transport failed may be asked again: no byte is lost
by that. `Framing.bodyOf` says what the body is; of a chunked body, which is laid
out in its bytes, it is the data of the chunks (`Framing.bodyOf_chunked`).

What holds between two questions is `Reading.Exact`: the data handed over and
the data in the bytes ahead make up the body.

Key definitions: `Framing.bodyOf`, `Reading`, `Reading.ask`, `Reading.AskTurn`,
`Reading.Exact`.
Key theorems: `Framing.bodyOf_chunked`, `Reading.askTurn`, `Reading.exact_ask`,
`Reading.data_run`.
-/
import Http1Client.Proofs.Body.Layout
import Http1Client.Proofs.Reception

namespace Http1Client

open Arrival

/-- The body that stands at the front of the bytes behind a head, or as much of
it as is there. -/
def Framing.bodyOf : Framing → Bytes → Bytes
  | length n, tail => tail.take n
  | chunked, tail => (Chunked.chunksIn tail).flatten
  | untilClose, tail => tail
  | empty, _ => []

/-- Where a whole chunked body stands at the front, it is the data of its chunks. -/
theorem Framing.bodyOf_chunked {limit : Nat} {ds : List Bytes} {body : Bytes}
    (h : Chunked.IsChunkedBody limit ds body) (rest : Bytes) :
    chunked.bodyOf (body ++ rest) = ds.flatten := by
  obtain ⟨hbody, -⟩ := Chunked.isChunkedBody_iff.mp h
  rw [bodyOf, Chunked.chunksIn_of_body hbody]

theorem BodyDecoder.dataIn_ofFraming (limit : Nat) (f : Framing) (b : Bytes) :
    (ofFraming limit f).dataIn b = f.bodyOf b := by
  cases f <;> rfl

/-- The reading of one response: the receiver and its wire, what has been handed
over, whether that was said to be all, and the errors on the way. -/
structure Reading where
  receiver : Receiver
  wire : Wire
  head : Option (Response × Framing) := none
  data : Bytes := []
  last : Bool := false
  errors : List DecodeError := []

namespace Reading

/-- The reading of the response to a request, which was a `HEAD` or not. -/
def start (toHead : Bool) (room chunkLimit : Nat) (wire : Wire) : Reading :=
  { receiver := .ofRequest toHead room chunkLimit, wire }

/-- Asks for the head, or behind it for data, about `size` bytes of it. -/
def ask (s : Reading) (size : Nat) : Reading :=
  match s.head with
  | none =>
    match s.receiver.pollHead s.wire with
    | (.ready (.ok head), receiver, wire) => { s with receiver, wire, head := some head }
    | (.ready (.error e), receiver, wire) => { s with receiver, wire, errors := e :: s.errors }
    | (.wait _, receiver, wire) => { s with receiver, wire }
  | some _ =>
    match s.receiver.pollBody size s.wire with
    | (.ready (.ok given), receiver, wire) =>
      { s with receiver, wire, data := s.data ++ given.data, last := s.last || given.last }
    | (.ready (.error e), receiver, wire) => { s with receiver, wire, errors := e :: s.errors }
    | (.wait _, receiver, wire) => { s with receiver, wire }

/-- Asks again and again. -/
def run (s : Reading) (sizes : List Nat) : Reading := sizes.foldl ask s

/-- The bytes ahead: those in the buffer, and those still on the wire. -/
def ahead (s : Reading) : Bytes := s.receiver.buffer ++ s.wire.unread

/-! ### Questions for data -/

section Ask

variable {s : Reading} {head : Response × Framing} {size : Nat} {r : Receiver} {w : Wire}

theorem ask_of_given {given : Delivery} (h : s.head = some head)
    (hpoll : s.receiver.pollBody size s.wire = (.ready (.ok given), r, w)) :
    s.ask size = { s with
      receiver := r, wire := w, data := s.data ++ given.data, last := s.last || given.last } := by
  simp only [Reading.ask, h, hpoll]

theorem ask_of_error {e : DecodeError} (h : s.head = some head)
    (hpoll : s.receiver.pollBody size s.wire = (.ready (.error e), r, w)) :
    s.ask size = { s with receiver := r, wire := w, errors := e :: s.errors } := by
  simp only [Reading.ask, h, hpoll]

theorem ask_of_wait {again : Bool} (h : s.head = some head)
    (hpoll : s.receiver.pollBody size s.wire = (.wait again, r, w)) :
    s.ask size = { s with receiver := r, wire := w } := by
  simp only [Reading.ask, h, hpoll]

theorem wire_ask (h : s.head = some head) (size : Nat) :
    (s.ask size).wire = (s.receiver.pollBody size s.wire).2.2 := by
  rcases hpoll : s.receiver.pollBody size s.wire with ⟨(e | given) | again, r, w⟩
  · rw [ask_of_error h hpoll]
  · rw [ask_of_given h hpoll]
  · rw [ask_of_wait h hpoll]

end Ask

/-- What a question for data can come to, past the head: data is handed over and
the body is still open; or the body is handed over, up to its end or to the end
of the stream; or a fault is found. -/
inductive AskTurn (d : BodyDecoder) (s : Reading) : Reading → Prop where
  | inside {s' : Reading} {d' : BodyDecoder} {x : Bytes} : s'.head = s.head →
      s'.receiver.OpenAt d' → s'.last = s.last → s'.data = s.data ++ x →
      d.dataIn s.ahead = x ++ d'.dataIn s'.ahead → (s.wire.EndsLast → s'.wire.EndsLast) →
      AskTurn d s s'
  | after {s' : Reading} {x rest : Bytes} : s'.head = s.head → s'.receiver.finished = true →
      s'.data = s.data ++ x → d.dataIn s.ahead = x ++ rest →
      (s.wire.EndsLast → rest = [] ∧ s'.wire.EndsLast) → AskTurn d s s'
  | fault {s' : Reading} {fault : BodyFault} : .badBody fault ∈ s'.errors → AskTurn d s s'

/-- What a question for data comes to. -/
theorem askTurn {s : Reading} {head : Response × Framing} {d : BodyDecoder} (size : Nat)
    (hhead : s.head = some head) (hopen : s.receiver.OpenAt d) : AskTurn d s (s.ask size) := by
  rcases hpoll : s.receiver.pollBody size s.wire with ⟨p, r, w⟩
  cases Receiver.pollBody_turn hopen hpoll with
  | waits hm =>
    rw [ask_of_wait hhead hpoll]
    exact .inside rfl hm.openAt rfl (List.append_nil _).symm hm.dataIn hm.endsLast
  | data hm =>
    rw [ask_of_given hhead hpoll]
    exact .inside rfl hm.openAt (Bool.or_false _) rfl hm.dataIn hm.endsLast
  | last hf =>
    rw [ask_of_given hhead hpoll]
    exact .after rfl hf.finished rfl (hf.dataIn.trans (List.append_nil _).symm)
      fun he => ⟨rfl, hf.endsLast he⟩
  | @closed ended r₁ _ w₁ _ hm hb hend hf =>
    rw [ask_of_given hhead hpoll]
    refine .after rfl hf rfl hm.dataIn fun he => ?_
    obtain ⟨hnone, he'⟩ := hend.endsLast (hm.endsLast he)
    refine ⟨?_, he'⟩
    rw [hb, show w₁.unread = [] from hnone]
    simp [BodyDecoder.dataIn]
  | broken hm =>
    rw [ask_of_error hhead hpoll]
    exact .inside rfl hm.openAt rfl (List.append_nil _).symm hm.dataIn hm.endsLast
  | cut hm hend =>
    rw [ask_of_error hhead hpoll]
    refine .inside rfl hm.openAt rfl (List.append_nil _).symm ?_
      fun he => (hend.endsLast (hm.endsLast he)).2
    rw [ahead, hm.dataIn, ← hend.unread]
    rfl
  | fault =>
    rw [ask_of_error hhead hpoll]
    exact .fault (List.mem_cons_self ..)

/-! ### The account of the body -/

/-- The data handed over and the data ahead make up the body. -/
inductive Exact (toHead : Bool) (response : Response) (framing : Framing) (tail : Bytes)
    (s : Reading) : Prop where
  | before : s.head = none → s.receiver.BeforeHead toHead → s.data = [] → s.last = false →
      Heads toHead s.ahead response framing tail → Exact toHead response framing tail s
  | inside {d : BodyDecoder} : s.head = some (response, framing) → s.receiver.OpenAt d →
      s.last = false → framing.bodyOf tail = s.data ++ d.dataIn s.ahead →
      Exact toHead response framing tail s
  | after : s.head = some (response, framing) → s.receiver.finished = true →
      framing.bodyOf tail = s.data → Exact toHead response framing tail s

variable {toHead : Bool} {response : Response} {framing : Framing} {tail : Bytes} {s : Reading}

theorem exact_start {room chunkLimit : Nat} {w : Wire}
    (h : Heads toHead w.unread response framing tail) :
    Exact toHead response framing tail (start toHead room chunkLimit w) :=
  .before rfl (Receiver.beforeHead_ofRequest ..) rfl rfl h

/-- One question for the head keeps account of the body. -/
theorem exact_ask_head (size : Nat) (hnone : s.head = none) (hr : s.receiver.BeforeHead toHead)
    (hdata : s.data = []) (hlast : s.last = false)
    (hheads : Heads toHead s.ahead response framing tail)
    (he : s.wire.EndsLast) (hio : ∀ e ∈ (s.ask size).errors, e.isIo = true) :
    Exact toHead response framing tail (s.ask size) ∧ (s.ask size).wire.EndsLast := by
  rcases hpoll : s.receiver.pollHead s.wire with ⟨p, r, w⟩
  simp only [ask, hnone, hpoll] at hio ⊢
  rw [← List.append_nil s.ahead, ahead, List.append_assoc] at hheads
  cases Receiver.pollHead_turn hr hpoll with
  | waits hg hn _ =>
    have hrest := hr.heads_of_need hg hn hheads
    rw [List.append_nil] at hrest
    exact ⟨.before rfl (hr.withBuffer _) hdata hlast hrest, hg.endsLast he⟩
  | found hg hn =>
    obtain ⟨rfl, rfl, htail, hopen⟩ := hr.heads_of_found hg hn hheads
    refine ⟨.inside rfl hopen hlast ?_, hg.endsLast he⟩
    rw [hdata, BodyDecoder.dataIn_ofFraming, htail, List.append_nil]
    rfl
  | broken hg hn _ =>
    have hrest := hr.heads_of_need hg hn hheads
    rw [List.append_nil] at hrest
    exact ⟨.before rfl (hr.withBuffer _) hdata hlast hrest, hg.endsLast he⟩
  | cut hg hend hn _ =>
    have hrest := hr.heads_of_need hg hn hheads
    rw [List.append_nil, ← hend.unread] at hrest
    obtain ⟨-, he'⟩ := hend.endsLast (hg.endsLast he)
    exact ⟨.before rfl (hr.withBuffer _) hdata hlast hrest, he'⟩
  | fault _ hne =>
    have := hio _ (List.mem_cons_self ..)
    rw [hne] at this
    simp at this

/-- One question for data keeps account of the body. -/
theorem exact_ask_body {d : BodyDecoder} (size : Nat) (hhead : s.head = some (response, framing))
    (hopen : s.receiver.OpenAt d) (hlast : s.last = false)
    (hbody : framing.bodyOf tail = s.data ++ d.dataIn s.ahead)
    (he : s.wire.EndsLast) (hio : ∀ e ∈ (s.ask size).errors, e.isIo = true) :
    Exact toHead response framing tail (s.ask size) ∧ (s.ask size).wire.EndsLast := by
  cases askTurn size hhead hopen with
  | inside hsame hopen' hlast' hdata hahead hend =>
    refine ⟨.inside (hsame.trans hhead) hopen' (hlast'.trans hlast) ?_, hend he⟩
    rw [hbody, hahead, hdata, List.append_assoc]
  | after hsame hfinished hdata hahead hend =>
    obtain ⟨rfl, he'⟩ := hend he
    refine ⟨.after (hsame.trans hhead) hfinished ?_, he'⟩
    rw [hbody, hahead, hdata, List.append_nil]
  | fault hfault =>
    have := hio _ hfault
    simp [DecodeError.isIo] at this

/-- One question keeps account of the body, unless the response is faulty. -/
theorem exact_ask (size : Nat) (h : Exact toHead response framing tail s) (he : s.wire.EndsLast)
    (hio : ∀ e ∈ (s.ask size).errors, e.isIo = true) :
    Exact toHead response framing tail (s.ask size) ∧ (s.ask size).wire.EndsLast := by
  cases h with
  | before h1 h2 h3 h4 h5 => exact exact_ask_head size h1 h2 h3 h4 h5 he hio
  | inside h1 h2 h3 h4 => exact exact_ask_body size h1 h2 h3 h4 he hio
  | after h1 h2 h3 =>
    simp only [ask, h1, Receiver.pollBody, h2, if_true]
    exact ⟨.after rfl h2 (by simpa [Delivery.finished] using h3), he⟩

/-- The errors so far stay. -/
theorem errors_ask (s : Reading) (size : Nat) : ∀ e ∈ s.errors, e ∈ (s.ask size).errors := by
  intro e he
  unfold ask
  split <;> split <;> simp [he]

theorem errors_run : ∀ (sizes : List Nat) (s : Reading), ∀ e ∈ s.errors, e ∈ (s.run sizes).errors
  | [], _, _, he => he
  | size :: sizes, s, e, he => errors_run sizes (s.ask size) e (errors_ask s size e he)

theorem exact_run : ∀ (sizes : List Nat) {s : Reading}, Exact toHead response framing tail s →
    s.wire.EndsLast → (∀ e ∈ (s.run sizes).errors, e.isIo = true) →
    Exact toHead response framing tail (s.run sizes)
  | [], _, h, _, _ => h
  | size :: sizes, s, h, he, hio => by
    have hio' : ∀ e ∈ (s.ask size).errors, e.isIo = true :=
      fun e hmem => hio e (errors_run sizes _ e hmem)
    obtain ⟨h', he'⟩ := exact_ask size h he hio'
    exact exact_run sizes h' he' hio

/-- What was handed over is the front of the body, and all of it if that was said. -/
theorem Exact.handed {s : Reading} (h : Exact toHead response framing tail s) :
    s.data <+: framing.bodyOf tail ∧ (s.last = true → s.data = framing.bodyOf tail) := by
  cases h with
  | before _ _ hdata hlast _ =>
    rw [hdata, hlast]
    exact ⟨List.nil_prefix, nofun⟩
  | inside _ _ hlast hbody =>
    rw [hlast]
    exact ⟨⟨_, hbody.symm⟩, nofun⟩
  | after _ _ hbody =>
    rw [hbody]
    exact ⟨List.prefix_refl _, fun _ => rfl⟩

/-- **The body is delivered exactly**, however the bytes arrive and however the
receiver is asked. -/
theorem data_run {room chunkLimit : Nat} {w : Wire} (sizes : List Nat)
    (hheads : Heads toHead w.unread response framing tail) (hend : w.EndsLast)
    (hio : ∀ e ∈ ((start toHead room chunkLimit w).run sizes).errors, e.isIo = true) :
    let s := (start toHead room chunkLimit w).run sizes
    s.data <+: framing.bodyOf tail ∧ (s.last = true → s.data = framing.bodyOf tail) ∧
      ∀ limit ds body rest, framing = .chunked → Chunked.IsChunkedBody limit ds body →
        tail = body ++ rest → s.data <+: ds.flatten ∧ (s.last = true → s.data = ds.flatten) := by
  intro s
  have hexact := exact_run sizes (exact_start hheads) hend hio
  obtain ⟨hfront, hall⟩ := hexact.handed
  refine ⟨hfront, hall, ?_⟩
  rintro limit ds body rest rfl hlayout rfl
  rw [Framing.bodyOf_chunked hlayout] at hfront hall
  exact ⟨hfront, hall⟩

/-- A response that is cut into pieces and interrupted. -/
def pieces : Wire :=
  { arriving := [
      .bytes (Incoming.shortHeads.take 50), .act .pause,
      .bytes (Incoming.shortHeads.drop 50 ++ Bytes.ofText "h"), .act (.fail ⟨.interrupted, none⟩),
      .bytes (Bytes.ofText "i"), .act .zero] }

/-- The head of a chunked body. -/
def chunkedHead : Response :=
  { status := StatusCode.ofNat? 200
    reason := "OK"
    fields := .ofList [(.transferEncoding, .chunked)] }

/-- A chunked body with an extension and a trailer line. -/
def extended : Bytes := Bytes.ofText "2;x\r\nhi\r\n0\r\nA: b\r\n\r\n"

/-- The body behind its head, cut and interrupted, and more behind it. -/
def chunkedPieces : Wire :=
  { arriving := [
      .bytes (Bytes.ofText "HTTP/1.1 200 OK\r\nTransfer-Encoding: chunked\r\n\r\n2;x\r\nh"),
      .act .pause, .bytes (Bytes.ofText "i\r"), .act (.fail ⟨.interrupted, none⟩),
      .bytes (Bytes.ofText "\n0\r\nA: b\r\n\r"), .bytes (Bytes.ofText "\nmore"), .act .zero] }

theorem isChunkedBody_extended : Chunked.IsChunkedBody 8 [Bytes.ofText "hi"] extended := by
  have hsize : Chunked.IsSizeLine (Bytes.ofText "2;x\r\n") 2 :=
    ⟨⟨[50], [], [59, 120], rfl, .digit rfl, by simp, .inr ⟨[120], rfl, by decide⟩, by decide⟩,
      by decide⟩
  have hzero : Chunked.IsSizeLine (Bytes.ofText "0\r\n") 0 :=
    ⟨⟨[48], [], [], rfl, .digit rfl, by simp, .inl rfl, by decide⟩, by decide⟩
  have hfield : Chunked.IsTrailerLine (Bytes.ofText "A: b\r\n") :=
    ⟨Bytes.ofText "A: b", rfl, by decide, by decide, by decide⟩
  refine ⟨[Bytes.ofText "2;x\r\nhi\r\n"], Bytes.ofText "0\r\n", [Bytes.ofText "A: b\r\n"],
    .cons ⟨_, hsize, by decide, by decide, rfl⟩ .nil, hzero, ?_, rfl⟩
  exact List.forall_mem_singleton.mpr hfield

theorem data_run_pieces :
    (((start false 16 8 pieces).run [4, 4, 4, 4]).last = true ∧
      ((start false 16 8 pieces).run [4, 4, 4, 4]).data = Bytes.ofText "hi") ∧
    ((start false 16 8 chunkedPieces).run [4, 4, 4, 4, 4]).last = true ∧
      ((start false 16 8 chunkedPieces).run [4, 4, 4, 4, 4]).data = Bytes.ofText "hi" := by
  constructor
  · have hlast : ((start false 16 8 pieces).run [4, 4, 4, 4]).last = true := by decide +kernel
    have hio : ∀ e ∈ ((start false 16 8 pieces).run [4, 4, 4, 4]).errors, e.isIo = true := by
      decide +kernel
    have hheads : Heads false pieces.unread Incoming.shortHead (.length 2) (Bytes.ofText "hi") := by
      rw [show pieces.unread = Incoming.shortHeads ++ Bytes.ofText "hi" by decide +kernel]
      exact Incoming.heads_short
    have hend : pieces.EndsLast := by trivial
    exact ⟨hlast, (data_run [4, 4, 4, 4] hheads hend hio).2.1 hlast⟩
  · have hlast : ((start false 16 8 chunkedPieces).run [4, 4, 4, 4, 4]).last = true := by
      decide +kernel
    have hio : ∀ e ∈ ((start false 16 8 chunkedPieces).run [4, 4, 4, 4, 4]).errors,
        e.isIo = true := by
      decide +kernel
    have hhead : ({} : Incoming).nextHead chunkedPieces.unread =
        (.item (.head chunkedHead .chunked), { body := some (.chunked {}) },
          extended ++ Bytes.ofText "more") := by
      decide +kernel
    have hend : chunkedPieces.EndsLast := by trivial
    obtain ⟨-, -, hchunked⟩ :=
      data_run [4, 4, 4, 4, 4] (Incoming.heads_of_nextHead hhead) hend hio
    exact ⟨hlast, (hchunked _ _ _ _ rfl isChunkedBody_extended rfl).2 hlast⟩

end Reading
end Http1Client
