/-
# Where the bytes are cut does not matter

An `Intake` decodes a response as a caller does: it puts each segment behind
the bytes it has and takes events until more bytes are needed, the body is
complete or the bytes are no response. Two intakes of one byte string agree
(`Intake.feedAll_agree`), however the string was cut: on the head, on the data,
on the chunks of a chunked body, on the end, and on the bytes that are left.
Only the error for a head of too many bytes may stand for another one, since
whether a head is too long is known before it is complete.

The reason is that an event that was given out is given out with more bytes
behind it too (`Incoming.next_append_of_need` and its companions), so that
feeding two segments and feeding them as one are alike (`Intake.alike_feed`).

Key definitions: `Intake`, `Intake.feed`, `Intake.feedAll`, `Intake.Agree`.
Key theorems: `Intake.alike_feed`, `Intake.feedAll_agree`.
-/
import Http1Client.Proofs.Events

namespace Http1Client

/-! ### An intake -/

/-- How the decoding of a response stands. -/
inductive Standing where
  | open
  | complete
  | failed (e : DecodeError)
  deriving DecidableEq

/-- A response that is decoded as its bytes come: the decoder, the bytes it has
not taken, what it has given out, and how it stands. -/
structure Intake where
  incoming : Incoming
  buffer : Bytes := []
  head : Option (Response × Framing) := none
  chunks : List Bytes := []
  standing : Standing := .open
  deriving DecidableEq

namespace Intake

/-- The intake of the response to a request, which was a `HEAD` or not. -/
def start (toHead : Bool) (chunkLimit : Nat) : Intake := { incoming := { toHead, chunkLimit } }

/-- Takes events until more bytes are needed or none will come any more. -/
def pull (k : Intake) : Intake :=
  if k.standing = .open then
    match _given : k.incoming.next k.buffer with
    | (.need, s, rest) => { k with incoming := s, buffer := rest }
    | (.fail e, s, rest) => { k with incoming := s, buffer := rest, standing := .failed e }
    | (.item (.head response framing), s, rest) =>
      pull { k with incoming := s, buffer := rest, head := some (response, framing) }
    | (.item (.piece (.data x)), s, rest) =>
      pull { k with incoming := s, buffer := rest, chunks := k.chunks ++ [x] }
    | (.item (.piece .finish), s, rest) =>
      { k with incoming := s, buffer := rest, standing := .complete }
  else k
termination_by k.incoming.size k.buffer
decreasing_by
  · exact Incoming.size_next_of_head _given
  · exact Incoming.size_next _given

/-- Puts a segment behind the bytes. -/
def append (k : Intake) (c : Bytes) : Intake := { k with buffer := k.buffer ++ c }

/-- Takes a segment in. -/
def feed (k : Intake) (c : Bytes) : Intake := (k.append c).pull

/-- Takes segments in, one after the other. -/
def feedAll (k : Intake) (segments : List Bytes) : Intake := segments.foldl feed k

/-! ### One event -/

section Pull

variable {k : Intake} {s : Incoming} {rest : Bytes}

theorem pull_of_closed (hk : k.standing ≠ .open) : k.pull = k := by
  rw [pull, if_neg hk]

theorem pull_of_need (hk : k.standing = .open) (h : k.incoming.next k.buffer = (.need, s, rest)) :
    k.pull = { k with incoming := s, buffer := rest } := by
  rw [pull, if_pos hk]
  split <;> simp_all

theorem pull_of_fail {e : DecodeError} (hk : k.standing = .open)
    (h : k.incoming.next k.buffer = (.fail e, s, rest)) :
    k.pull = { k with incoming := s, buffer := rest, standing := .failed e } := by
  rw [pull, if_pos hk]
  split <;> simp_all

theorem pull_of_head {response : Response} {framing : Framing} (hk : k.standing = .open)
    (h : k.incoming.next k.buffer = (.item (.head response framing), s, rest)) :
    k.pull = pull { k with incoming := s, buffer := rest, head := some (response, framing) } := by
  conv => lhs; rw [pull, if_pos hk]
  split <;> simp_all

theorem pull_of_data {x : Bytes} (hk : k.standing = .open)
    (h : k.incoming.next k.buffer = (.item (.piece (.data x)), s, rest)) :
    k.pull = pull { k with incoming := s, buffer := rest, chunks := k.chunks ++ [x] } := by
  conv => lhs; rw [pull, if_pos hk]
  split <;> simp_all

theorem pull_of_finish (hk : k.standing = .open)
    (h : k.incoming.next k.buffer = (.item (.piece .finish), s, rest)) :
    k.pull = { k with incoming := s, buffer := rest, standing := .complete } := by
  rw [pull, if_pos hk]
  split <;> simp_all

/-- Only the next event counts. -/
theorem pull_congr {b : Bytes} (hk : k.standing = .open)
    (h : s.next b = k.incoming.next k.buffer) :
    pull { k with incoming := s, buffer := b } = k.pull := by
  rcases hn : k.incoming.next k.buffer with ⟨p, t, r⟩
  rw [hn] at h
  cases p with
  | need => rw [pull_of_need hk hn, pull_of_need (k := { k with incoming := s, buffer := b }) hk h]
  | fail e =>
    rw [pull_of_fail hk hn, pull_of_fail (k := { k with incoming := s, buffer := b }) hk h]
  | item event =>
    cases event with
    | head response framing =>
      rw [pull_of_head hk hn, pull_of_head (k := { k with incoming := s, buffer := b }) hk h]
    | piece q =>
      cases q with
      | data x =>
        rw [pull_of_data hk hn, pull_of_data (k := { k with incoming := s, buffer := b }) hk h]
      | finish =>
        rw [pull_of_finish hk hn, pull_of_finish (k := { k with incoming := s, buffer := b }) hk h]

end Pull

/-! ### What holds while an intake goes on -/

/-- The head and the body that is open fit each other, and no chunk has come
before the head. -/
structure Orderly (k : Intake) : Prop where
  chunking : k.standing = .open → k.incoming.chunking = k.head.map (·.2.isChunked)
  chunks : k.standing = .open → k.head = none → k.chunks = []

theorem orderly_start (toHead : Bool) (chunkLimit : Nat) : Orderly (start toHead chunkLimit) :=
  ⟨fun _ => rfl, fun _ _ => rfl⟩

theorem Orderly.append {k : Intake} (h : Orderly k) (c : Bytes) : Orderly (k.append c) :=
  ⟨h.chunking, h.chunks⟩

theorem Orderly.head {k : Intake} {s : Incoming} {rest : Bytes} {response : Response}
    {framing : Framing} (h : k.incoming.next k.buffer = (.item (.head response framing), s, rest)) :
    Orderly { k with incoming := s, buffer := rest, head := some (response, framing) } :=
  ⟨fun _ => (Incoming.chunking_next_of_head h).1, fun _ h' => by simp at h'⟩

theorem Orderly.data {k : Intake} (hk : Orderly k) {s : Incoming} {rest x : Bytes}
    (h : k.incoming.next k.buffer = (.item (.piece (.data x)), s, rest)) :
    Orderly { k with incoming := s, buffer := rest, chunks := k.chunks ++ [x] } := by
  obtain ⟨h1, h2⟩ := Incoming.chunking_next_of_data h
  refine ⟨fun ho => h1.trans (hk.chunking ho), fun ho hn => ?_⟩
  rw [hk.chunking ho, show k.head = none from hn] at h2
  exact absurd rfl h2

theorem Orderly.pull {k : Intake} (hk : Orderly k) : Orderly k.pull := by
  fun_induction Intake.pull k with
  | case1 k ho s rest h =>
    have hsame := Incoming.chunking_next_of_need h
    exact ⟨fun _ => hsame.trans (hk.chunking ho), fun _ => hk.chunks ho⟩
  | case2 k ho e s rest h => exact ⟨nofun, nofun⟩
  | case3 k ho response framing s rest h ih => exact ih (.head h)
  | case4 k ho x s rest h ih => exact ih (hk.data h)
  | case5 k ho s rest h => exact ⟨nofun, nofun⟩
  | case6 k ho => exact hk

/-! ### Alike intakes -/

/-- The second intake may have been fed with longer segments than the first.
They have given the same out, though the second may have cut the data of a
body that is not chunked into fewer pieces, and may have seen more of a head
that the first has given up for its size. -/
structure Alike (k l : Intake) : Prop where
  head : k.head = l.head
  data : k.chunks.flatten = l.chunks.flatten
  chunks : k.head.map (·.2.isChunked) = some true → k.chunks = l.chunks
  standing : k.standing = l.standing ∨
    ∃ e e', k.standing = .failed e ∧ l.standing = .failed e' ∧ e.isHeadTooLarge = true
  left : (∀ e, k.standing ≠ .failed e) → k.incoming = l.incoming ∧ k.buffer = l.buffer

namespace Alike

variable {k l m : Intake}

theorem refl (k : Intake) : Alike k k := ⟨rfl, rfl, fun _ => rfl, .inl rfl, fun _ => ⟨rfl, rfl⟩⟩

theorem trans (h : Alike k l) (h' : Alike l m) : Alike k m := by
  refine ⟨h.head.trans h'.head, h.data.trans h'.data, fun hc => ?_, ?_, fun hf => ?_⟩
  · exact (h.chunks hc).trans (h'.chunks (h.head ▸ hc))
  · rcases h.standing with hs | ⟨e, e', hk, hl, he⟩
    · rw [hs]
      exact h'.standing
    · right
      rcases h'.standing with hs' | ⟨_, e'', -, hm, -⟩
      · exact ⟨e, e', hk, hs' ▸ hl, he⟩
      · exact ⟨e, e'', hk, hm, he⟩
  · rcases h.standing with hs | ⟨e, _, hk, -⟩
    · obtain ⟨h1, h2⟩ := h.left hf
      obtain ⟨h3, h4⟩ := h'.left (hs ▸ hf)
      exact ⟨h1.trans h3, h2.trans h4⟩
    · exact absurd hk (hf e)

theorem of_open (h : Alike k l) (ho : k.standing = .open) :
    l.standing = .open ∧ l.incoming = k.incoming ∧ l.buffer = k.buffer := by
  obtain ⟨h1, h2⟩ := h.left (by simp [ho])
  rcases h.standing with hs | ⟨e, _, hk, -⟩
  · exact ⟨hs ▸ ho, h1.symm, h2.symm⟩
  · rw [ho] at hk
    simp at hk

theorem complete_iff (h : Alike k l) : k.standing = .complete ↔ l.standing = .complete := by
  rcases h.standing with hs | ⟨_, _, hk, hl, -⟩
  · rw [hs]
  · simp [hk, hl]

theorem failed_iff (h : Alike k l) :
    (∃ e, k.standing = .failed e) ↔ ∃ e, l.standing = .failed e := by
  rcases h.standing with hs | ⟨e, e', hk, hl, -⟩
  · rw [hs]
  · exact ⟨fun _ => ⟨e', hl⟩, fun _ => ⟨e, hk⟩⟩

/-- Alike intakes stay alike when they take what they have. -/
theorem pull (hk : Orderly k) (hl : Orderly l) (h : Alike k l) : Alike k.pull l.pull := by
  fun_induction Intake.pull k generalizing l with
  | case1 k ho s rest hn =>
    obtain ⟨hlo, h1, h2⟩ := h.of_open ho
    rw [pull_of_need hlo (by rw [h1, h2]; exact hn)]
    exact ⟨h.head, h.data, h.chunks, h.standing, fun _ => ⟨rfl, rfl⟩⟩
  | case2 k ho e s rest hn =>
    obtain ⟨hlo, h1, h2⟩ := h.of_open ho
    rw [pull_of_fail hlo (by rw [h1, h2]; exact hn)]
    exact ⟨h.head, h.data, h.chunks, .inl rfl, fun _ => ⟨rfl, rfl⟩⟩
  | case3 k ho response framing s rest hn ih =>
    obtain ⟨hlo, h1, h2⟩ := h.of_open ho
    have hn' : l.incoming.next l.buffer = (.item (.head response framing), s, rest) := by
      rw [h1, h2]
      exact hn
    have hnone : k.head = none := by
      have := hk.chunking ho
      rw [(Incoming.chunking_next_of_head hn).2] at this
      simpa using this.symm
    rw [pull_of_head hlo hn']
    refine ih (.head hn) (.head hn') ⟨rfl, h.data, fun _ => ?_, h.standing, fun _ => ⟨rfl, rfl⟩⟩
    exact (hk.chunks ho hnone).trans (hl.chunks hlo (h.head ▸ hnone)).symm
  | case4 k ho x s rest hn ih =>
    obtain ⟨hlo, h1, h2⟩ := h.of_open ho
    have hn' : l.incoming.next l.buffer = (.item (.piece (.data x)), s, rest) := by
      rw [h1, h2]
      exact hn
    rw [pull_of_data hlo hn']
    refine ih (hk.data hn) (hl.data hn')
      ⟨h.head, ?_, fun hc => ?_, h.standing, fun _ => ⟨rfl, rfl⟩⟩
    · show (k.chunks ++ [x]).flatten = (l.chunks ++ [x]).flatten
      rw [List.flatten_append, List.flatten_append, h.data]
    · exact congrArg (· ++ [x]) (h.chunks hc)
  | case5 k ho s rest hn =>
    obtain ⟨hlo, h1, h2⟩ := h.of_open ho
    rw [pull_of_finish hlo (by rw [h1, h2]; exact hn)]
    exact ⟨h.head, h.data, h.chunks, .inl rfl, fun _ => ⟨rfl, rfl⟩⟩
  | case6 k ho =>
    have hlo : l.standing ≠ .open := by
      rcases h.standing with hs | ⟨_, _, -, hl', -⟩
      · exact hs ▸ ho
      · simp [hl']
    rw [pull_of_closed hlo]
    exact h

end Alike

/-- Two segments and one. To take what is there and then a segment, and to
take both at once, is alike. -/
theorem alike_feed {k : Intake} (hk : Orderly k) (c : Bytes) :
    Alike (k.pull.feed c) (k.feed c) := by
  fun_induction pull k with
  | case1 k ho s rest hn =>
    have hc : feed { k with incoming := s, buffer := rest } c = k.feed c :=
      pull_congr (k := k.append c) ho (Incoming.next_append_of_need hn c).symm
    rw [hc]
    exact .refl _
  | case2 k ho e s rest hn =>
    obtain ⟨e', s', rest', hn', he⟩ := Incoming.next_append_of_fail hn c
    rw [feed, pull_of_closed (by simp [append]), feed, pull_of_fail (k := k.append c) ho hn']
    refine ⟨rfl, rfl, fun _ => rfl, ?_, fun hf => absurd rfl (hf e)⟩
    rcases he with rfl | he
    · exact .inl rfl
    · exact .inr ⟨e, e', rfl, rfl, he⟩
  | case3 k ho response framing s rest hn ih =>
    have hn' := Incoming.next_append_of_head hn c
    rw [show k.feed c = _ from pull_of_head (k := k.append c) ho hn']
    exact ih (.head hn)
  | case4 k ho x s rest hn ih =>
    have hk' := hk.data hn
    refine (ih hk').trans ?_
    rcases Incoming.next_append_of_data hn c with hn' | ⟨hplain, y, s', rest', h1, h2⟩
    · rw [show k.feed c = _ from pull_of_data (k := k.append c) ho hn']
      exact .refl _
    · -- The data is one piece or two: it is the same data, and no chunk.
      rw [show k.feed c = _ from pull_of_data (k := k.append c) ho h2,
        feed, pull_of_data (by exact ho) h1]
      refine .pull ((hk'.append c).data h1) ((hk.append c).data h2)
        ⟨rfl, by simp [append], fun hc => ?_, .inl rfl, fun _ => ⟨rfl, rfl⟩⟩
      exact absurd ((hk'.chunking ho).trans hc) hplain
  | case5 k ho s rest hn =>
    have hn' := Incoming.next_append_of_finish hn c
    rw [feed, pull_of_closed (by simp [append]), feed, pull_of_finish (k := k.append c) ho hn']
    exact .refl _
  | case6 k ho => exact .refl _

/-! ### Segments -/

/-- Fed with segments one after the other, and fed with all of their bytes. -/
theorem alike_feedAll : ∀ (segments : List Bytes) {k : Intake}, Orderly k →
    Alike (k.pull.feedAll segments) (k.feed segments.flatten)
  | [], k, _ => by
    have hnil : k.feed [].flatten = k.pull := by simp [feed, append]
    rw [hnil]
    exact .refl _
  | c :: cs, k, hk => by
    have hrest : Alike ((k.pull.append c).pull.feedAll cs) ((k.pull.append c).feed cs.flatten) :=
      alike_feedAll cs (hk.pull.append c)
    have hboth : (k.pull.append c).feed cs.flatten = k.pull.feed (c :: cs).flatten := by
      simp [feed, append, List.append_assoc]
    rw [hboth] at hrest
    exact hrest.trans (alike_feed hk _)

theorem pull_start (toHead : Bool) (chunkLimit : Nat) :
    (start toHead chunkLimit).pull = start toHead chunkLimit := by
  have h : (start toHead chunkLimit).incoming.next [] =
      (.need, (start toHead chunkLimit).incoming, []) := by
    rw [Incoming.next_of_no_body rfl]
    exact Incoming.nextHead_of_need rfl
  exact pull_of_need rfl h

/-- What two intakes of one response have in common. -/
structure Agree (k l : Intake) : Prop where
  head : k.head = l.head
  data : k.chunks.flatten = l.chunks.flatten
  chunks : ∀ response, k.head = some (response, .chunked) → k.chunks = l.chunks
  complete : k.standing = .complete ↔ l.standing = .complete
  failed : (∃ e, k.standing = .failed e) ↔ ∃ e, l.standing = .failed e
  error : ∀ e e', k.standing = .failed e → l.standing = .failed e' →
    e = e' ∨ e.isHeadTooLarge = true ∨ e'.isHeadTooLarge = true
  left : (∀ e, k.standing ≠ .failed e) → k.buffer = l.buffer

/-- Intakes that are alike to one and the same agree. -/
theorem Alike.agree {k l m : Intake} (hk : Alike k m) (hl : Alike l m) : Agree k l where
  head := hk.head.trans hl.head.symm
  data := hk.data.trans hl.data.symm
  chunks response h := by
    have h' : l.head = some (response, .chunked) := hl.head.trans (hk.head.symm.trans h)
    exact (hk.chunks (by rw [h]; rfl)).trans (hl.chunks (by rw [h']; rfl)).symm
  complete := hk.complete_iff.trans hl.complete_iff.symm
  failed := hk.failed_iff.trans hl.failed_iff.symm
  error e e' h h' := by
    rcases hk.standing with h1 | ⟨_, _, h1, -, he⟩
    · rcases hl.standing with h2 | ⟨_, _, h2, -, he⟩
      · rw [← h1, h, h'] at h2
        exact .inl (by simpa using h2.symm)
      · rw [h', Standing.failed.injEq] at h2
        exact .inr (.inr (h2 ▸ he))
    · rw [h, Standing.failed.injEq] at h1
      exact .inr (.inl (h1 ▸ he))
  left hf := by
    have hfl : ∀ e, l.standing ≠ .failed e := by
      intro e he
      obtain ⟨e', he'⟩ := hk.failed_iff.mpr (hl.failed_iff.mp ⟨e, he⟩)
      exact hf e' he'
    exact (hk.left hf).2.trans (hl.left hfl).2.symm

/-- **Where the bytes are cut does not matter.** Two ways to cut one byte
string give the same head, data, chunks, end and rest. -/
theorem feedAll_agree (toHead : Bool) (chunkLimit : Nat) {xs ys : List Bytes}
    (h : xs.flatten = ys.flatten) :
    Agree ((start toHead chunkLimit).feedAll xs) ((start toHead chunkLimit).feedAll ys) := by
  have hx := alike_feedAll xs (orderly_start toHead chunkLimit)
  have hy := alike_feedAll ys (orderly_start toHead chunkLimit)
  rw [pull_start] at hx hy
  rw [← h] at hy
  exact hx.agree hy

/-- Cut inside its status line, and not cut. -/
theorem feedAll_agree_cut :
    [Bytes.ofText "HTTP/1.1 20", Bytes.ofText "0 OK\r\ncontent-length: 2\r\n\r\nhi"].flatten =
        [Bytes.ofText "HTTP/1.1 200 OK\r\ncontent-length: 2\r\n\r\nhi"].flatten ∧
      Agree
        ((start false 8).feedAll
          [Bytes.ofText "HTTP/1.1 20", Bytes.ofText "0 OK\r\ncontent-length: 2\r\n\r\nhi"])
        ((start false 8).feedAll
          [Bytes.ofText "HTTP/1.1 200 OK\r\ncontent-length: 2\r\n\r\nhi"]) :=
  ⟨by decide, feedAll_agree false 8 (by decide)⟩

end Intake
end Http1Client
