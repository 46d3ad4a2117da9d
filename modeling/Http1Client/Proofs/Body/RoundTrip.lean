/-
# Chunks come back as they were written

A `ChunkIntake` decodes a chunked body as a caller does: it puts each feed
behind the bytes it has and takes chunks until more bytes are needed, the body
is complete or the bytes are no chunked body. How the bytes are cut into feeds
makes no difference at all (`ChunkIntake.feedAll_eq`), and a whole body at the
front of the bytes is taken to its end and no further
(`ChunkIntake.pull_of_body`).

So what a sender writes as a chunked body, of whatever bytes, is read back
chunk by chunk, and the bytes behind it stay (`ChunkIntake.feedAll_written`).

Key definitions: `ChunkIntake`, `ChunkIntake.feed`, `ChunkIntake.feedAll`.
Key theorems: `ChunkIntake.feed_pull`, `ChunkIntake.feedAll_eq`,
`ChunkIntake.pull_of_body`, `ChunkIntake.feedAll_written`.
-/
import Http1Client.Proofs.Segmentation
import Http1Client.Proofs.Body.Writing

namespace Http1Client

open Chunked

/-! ### A body in one piece -/

namespace ChunkedDecoder

variable {limit : Nat} {text b : Bytes}

/-- The trailer section is passed over, and ends the body. -/
theorem decode_trailer {t : Bytes} (ht : Trailer t) (rest : Bytes) :
    decode { limit, phase := .trailer } (t ++ rest) =
      (.item .finish, { limit, phase := .complete }, rest) := by
  induction ht with
  | done =>
    have hempty : IsLine [] := ⟨by simp, by decide⟩
    have hline : takeLine (Bytes.crlf ++ rest) = .line [] rest := takeLine_of_isLine hempty rest
    rw [decode_of_trailer rfl hline, if_pos rfl]
  | @field text t hne hline _ ih =>
    have htake : takeLine (text ++ Bytes.crlf ++ t ++ rest) = .line text (t ++ rest) := by
      rw [List.append_assoc]
      exact takeLine_of_isLine hline (t ++ rest)
    rw [decode_of_trailer rfl htake, if_neg hne]
    exact ih

/-- A size line that denotes zero begins the trailer section. -/
theorem decode_last {t : Bytes} (hline : IsLine text) (hsize : IsSize text 0) (ht : Trailer t)
    (rest : Bytes) : decode { limit } (text ++ Bytes.crlf ++ t ++ rest) =
      (.item .finish, { limit, phase := .complete }, rest) := by
  have htake : takeLine (text ++ Bytes.crlf ++ t ++ rest) = .line text (t ++ rest) := by
    rw [List.append_assoc]
    exact takeLine_of_isLine hline (t ++ rest)
  rw [decode_of_size rfl htake, parseSize_of_isSize hsize]
  dsimp only
  rw [if_pos (Nat.zero_le limit), if_pos rfl]
  exact decode_trailer ht rest

/-- A chunk that is not too large is given out when all of its data is there. -/
theorem decode_chunk {x : Bytes} (hline : IsLine text) (hsize : IsSize text x.length)
    (hx : x ≠ []) (hlimit : x.length ≤ limit) (rest : Bytes) :
    decode { limit } (text ++ Bytes.crlf ++ (x ++ rest)) =
      (.item (.data x), { limit, phase := .dataEnd }, rest) := by
  have hlen : x.length ≠ 0 := by simpa using hx
  rw [decode_of_size rfl (takeLine_of_isLine hline (x ++ rest)), parseSize_of_isSize hsize]
  dsimp only
  rw [if_pos hlimit, if_neg hlen, decode_of_data rfl (by simp), List.take_left, List.drop_left]

/-- Behind the data of a chunk the next size line is due. -/
theorem decode_dataEnd (b : Bytes) :
    decode { limit, phase := .dataEnd } (Bytes.crlf ++ b) = decode { limit } b := by
  show decode _ (Bytes.cr :: Bytes.lf :: b) = _
  rw [decode_of_dataEnd rfl, if_pos ⟨rfl, rfl⟩]

theorem decode_nil : decode { limit } [] = (.need, { limit }, []) := by
  rw [decode.eq_def]
  rfl

end ChunkedDecoder

/-! ### An intake of chunks -/

/-- A chunked body that is decoded as its bytes come: the decoder, the bytes it
has not taken, the chunks it has given out, and how it stands. -/
structure ChunkIntake where
  decoder : ChunkedDecoder
  buffer : Bytes := []
  chunks : List Bytes := []
  standing : Standing := .open
  deriving DecidableEq

namespace ChunkIntake

/-- The intake of a body whose chunks are not larger than `limit`. -/
def start (limit : Nat) : ChunkIntake := { decoder := { limit } }

/-- The intake of a body that is complete, with these chunks, and with `rest`
behind it. -/
def ended (limit : Nat) (chunks : List Bytes) (rest : Bytes) : ChunkIntake :=
  { decoder := { limit, phase := .complete }, buffer := rest, chunks, standing := .complete }

/-- Takes chunks until more bytes are needed or none will come any more. -/
def pull (k : ChunkIntake) : ChunkIntake :=
  if k.standing = .open then
    match _given : k.decoder.decode k.buffer with
    | (.need, d, rest) => { k with decoder := d, buffer := rest }
    | (.fail e, d, rest) => { k with decoder := d, buffer := rest, standing := .failed e }
    | (.item (.data x), d, rest) =>
      pull { k with decoder := d, buffer := rest, chunks := k.chunks ++ [x] }
    | (.item .finish, d, rest) => { k with decoder := d, buffer := rest, standing := .complete }
  else k
termination_by 2 * k.buffer.length + k.decoder.inData.toNat
decreasing_by
  obtain ⟨hdata, hlt⟩ := ChunkedDecoder.decode_data_length _ _ _given
  simpa [hdata] using hlt

/-- Puts bytes behind those that are there. -/
def append (k : ChunkIntake) (c : Bytes) : ChunkIntake := { k with buffer := k.buffer ++ c }

/-- Takes a feed in. -/
def feed (k : ChunkIntake) (c : Bytes) : ChunkIntake := (k.append c).pull

/-- Takes feeds in, one after the other. -/
def feedAll (k : ChunkIntake) (feeds : List Bytes) : ChunkIntake := feeds.foldl feed k

section Pull

variable {k : ChunkIntake} {d : ChunkedDecoder} {rest : Bytes}

theorem pull_of_closed (hk : k.standing ≠ .open) : k.pull = k := by
  rw [pull, if_neg hk]

theorem pull_of_need (hk : k.standing = .open) (h : k.decoder.decode k.buffer = (.need, d, rest)) :
    k.pull = { k with decoder := d, buffer := rest } := by
  rw [pull, if_pos hk]
  split <;> simp_all

theorem pull_of_fail {e : DecodeError} (hk : k.standing = .open)
    (h : k.decoder.decode k.buffer = (.fail e, d, rest)) :
    k.pull = { k with decoder := d, buffer := rest, standing := .failed e } := by
  rw [pull, if_pos hk]
  split <;> simp_all

theorem pull_of_data {x : Bytes} (hk : k.standing = .open)
    (h : k.decoder.decode k.buffer = (.item (.data x), d, rest)) :
    k.pull = pull { k with decoder := d, buffer := rest, chunks := k.chunks ++ [x] } := by
  conv => lhs; rw [pull, if_pos hk]
  split <;> simp_all

theorem pull_of_finish (hk : k.standing = .open)
    (h : k.decoder.decode k.buffer = (.item .finish, d, rest)) :
    k.pull = { k with decoder := d, buffer := rest, standing := .complete } := by
  rw [pull, if_pos hk]
  split <;> simp_all

/-- Only what the decoder makes of the bytes counts. -/
theorem pull_congr {b : Bytes} (hk : k.standing = .open)
    (h : d.decode b = k.decoder.decode k.buffer) :
    pull { k with decoder := d, buffer := b } = k.pull := by
  rcases hn : k.decoder.decode k.buffer with ⟨p, d', r⟩
  rw [hn] at h
  cases p with
  | need => rw [pull_of_need hk hn, pull_of_need (k := { k with decoder := d, buffer := b }) hk h]
  | fail e => rw [pull_of_fail hk hn, pull_of_fail (k := { k with decoder := d, buffer := b }) hk h]
  | item piece =>
    cases piece with
    | data x =>
      rw [pull_of_data hk hn, pull_of_data (k := { k with decoder := d, buffer := b }) hk h]
    | finish =>
      rw [pull_of_finish hk hn, pull_of_finish (k := { k with decoder := d, buffer := b }) hk h]

end Pull

/-! ### Feeds -/

/-- Two feeds and one. To take what is there and then a feed, and to take
both at once, is the same. -/
theorem feed_pull (k : ChunkIntake) (c : Bytes) : k.pull.feed c = k.feed c := by
  fun_induction pull k with
  | case1 k ho d rest hn =>
    exact pull_congr (k := k.append c) ho (ChunkedDecoder.decode_append_of_need hn c).symm
  | case2 k ho e d rest hn =>
    have hn' := ChunkedDecoder.decode_append_of_ne_need hn (by simp) c
    rw [feed, pull_of_closed (by simp [append]), feed, pull_of_fail (k := k.append c) ho hn']
    rfl
  | case3 k ho x d rest hn ih =>
    have hn' := ChunkedDecoder.decode_append_of_ne_need hn (by simp) c
    rw [ih, show k.feed c = _ from pull_of_data (k := k.append c) ho hn']
    rfl
  | case4 k ho d rest hn =>
    have hn' := ChunkedDecoder.decode_append_of_ne_need hn (by simp) c
    rw [feed, pull_of_closed (by simp [append]), feed, pull_of_finish (k := k.append c) ho hn']
    rfl
  | case5 k ho => rfl

theorem feedAll_pull : ∀ (feeds : List Bytes) (k : ChunkIntake),
    k.pull.feedAll feeds = k.feed feeds.flatten
  | [], k => by
    show k.pull = (k.append []).pull
    rw [append, List.append_nil]
  | c :: cs, k => by
    have hrest : (k.append c).pull.feedAll cs = (k.append c).feed cs.flatten :=
      feedAll_pull cs (k.append c)
    have hboth : (k.append c).feed cs.flatten = k.feed (c :: cs).flatten := by
      simp [feed, append, List.append_assoc]
    rw [← hboth, ← hrest]
    exact congrArg (feedAll · cs) (feed_pull k c)

/-- Only the bytes count, and not the feeds they come in. -/
theorem feedAll_eq (limit : Nat) (feeds : List Bytes) :
    (start limit).feedAll feeds = (start limit).feed feeds.flatten := by
  have hstart : (start limit).pull = start limit := pull_of_need rfl ChunkedDecoder.decode_nil
  have h := feedAll_pull feeds (start limit)
  rwa [hstart] at h

/-! ### Whole bodies -/

/-- A whole body is taken to its end, chunk by chunk, and what stands behind
it stays. -/
theorem pull_of_body {ds : List Bytes} {body : Bytes} (h : Body ds body) {limit : Nat}
    (hlimit : ∀ d ∈ ds, d.length ≤ limit) (seen : List Bytes) (rest : Bytes) :
    pull { decoder := { limit }, buffer := body ++ rest, chunks := seen } =
      ended limit (seen ++ ds) rest := by
  induction h generalizing seen with
  | last hline hsize ht =>
    rw [pull_of_finish rfl (ChunkedDecoder.decode_last hline hsize ht rest), List.append_nil]
    rfl
  | @chunk text x b ds hline hsize hx hbody ih =>
    have hle : x.length ≤ limit := hlimit x (List.mem_cons_self ..)
    have hdecode : ChunkedDecoder.decode { limit }
        (text ++ Bytes.crlf ++ (x ++ (Bytes.crlf ++ b)) ++ rest) =
          (.item (.data x), { limit, phase := .dataEnd }, Bytes.crlf ++ (b ++ rest)) := by
      have := ChunkedDecoder.decode_chunk hline hsize hx hle (Bytes.crlf ++ (b ++ rest))
      simpa only [List.append_assoc] using this
    rw [pull_of_data rfl hdecode]
    have hnext := pull_congr
      (k := { decoder := { limit }, buffer := b ++ rest, chunks := seen ++ [x] }) rfl
      (ChunkedDecoder.decode_dataEnd (b ++ rest))
    rw [hnext, ih (fun d hd => hlimit d (List.mem_cons_of_mem _ hd)), List.append_assoc]
    rfl

/-- What is written as a chunked body is read back, however it is fed. -/
theorem feedAll_encodeBody {limit : Nat} {ds : List Bytes} (hword : limit < Numeral.wordBound)
    (hds : ∀ d ∈ ds, d ≠ [] ∧ d.length ≤ limit) {feeds : List Bytes} {rest : Bytes}
    (hfeeds : feeds.flatten = encodeBody ds ++ rest) :
    (start limit).feedAll feeds = ended limit ds rest := by
  have hbody : Body ds (encodeBody ds) :=
    body_encodeBody fun d hd => ⟨(hds d hd).1, Nat.lt_of_le_of_lt (hds d hd).2 hword⟩
  rw [feedAll_eq, hfeeds]
  exact pull_of_body hbody (fun d hd => (hds d hd).2) [] rest

/-- **Chunks come back as they were written.** A body that a sender puts behind
a chunked head is read back in full pieces and a rest, and data that is pushed
piece by piece is read back but for what was empty; then the body ends, and the
bytes behind it stay. -/
theorem feedAll_written {limit : Nat} (hword : limit < Numeral.wordBound) (rest : Bytes) :
    (∀ (s s' : Sender) (h : RequestHead) (body : Bytes), s.putHead h .chunked = (.ok (), s') →
      min (max s.segment 1) body.length ≤ limit →
      ∃ written s'', s'.putBody body = (.ok (), s'') ∧ s''.buffer = s'.buffer ++ written ∧
        ∃ chunks, Cut (max s.segment 1) body chunks ∧
          ∀ feeds : List Bytes, feeds.flatten = written ++ rest →
            (start limit).feedAll feeds = ended limit chunks rest) ∧
    ∀ (e : BodyEncoder) (items : List Bytes), BodyEncoder.ofFraming .chunked = .ok e →
      (∀ d ∈ items, d.length ≤ limit) →
      ∃ written e', e.pushAll (items.map .data ++ [.finish]) = (.ok written, e') ∧
        ∀ feeds : List Bytes, feeds.flatten = written ++ rest →
          (start limit).feedAll feeds = ended limit (items.filter (· ≠ [])) rest := by
  constructor
  · intro s s' h body hput hlimit
    obtain ⟨bytes, e, -, he, -, rfl⟩ := Sender.putHead_eq_ok hput
    obtain rfl := Except.ok.inj he
    have hcut := cut_segments s.segment body
    refine ⟨_, _, Sender.putBody_chunked rfl body, rfl, _, hcut, fun feeds hfeeds => ?_⟩
    refine feedAll_encodeBody hword (fun d hd => ⟨hcut.ne_nil d hd, ?_⟩) hfeeds
    exact Nat.le_trans (hcut.length_le d hd) hlimit
  · intro e items he hlimit
    obtain rfl := Except.ok.inj he
    refine ⟨_, _, BodyEncoder.pushAll_chunks items, fun feeds hfeeds => ?_⟩
    refine feedAll_encodeBody hword (fun d hd => ?_) hfeeds
    obtain ⟨hmem, hne⟩ := List.mem_filter.mp hd
    exact ⟨by simpa using hne, hlimit d hmem⟩

/-- Five bytes that look like the end of a body, in pieces of two. -/
theorem feedAll_written_lookalike :
    8 < Numeral.wordBound ∧
      (start 8).feedAll [Bytes.ofText "2\r\n0\r\r", Bytes.ofText "\n2\r\n\n\r\r\n1\r\n\n\r\n0\r",
        Bytes.ofText "\n\r\nGET"] =
        ended 8 [Bytes.ofText "0\r", Bytes.ofText "\n\r", Bytes.ofText "\n"]
          (Bytes.ofText "GET") := by
  have hword : 8 < Numeral.wordBound := by decide
  obtain ⟨-, hitems⟩ := feedAll_written hword (Bytes.ofText "GET")
  obtain ⟨written, e', hpush, hfeed⟩ := hitems (.chunked false)
    [Bytes.ofText "0\r", [], Bytes.ofText "\n\r", Bytes.ofText "\n"] rfl (by decide)
  have hwritten : written = Bytes.ofText "2\r\n0\r\r\n2\r\n\n\r\r\n1\r\n\n\r\n0\r\n\r\n" := by
    rw [BodyEncoder.pushAll_chunks] at hpush
    have hbytes := Except.ok.inj (congrArg Prod.fst hpush)
    rw [← hbytes]
    decide +kernel
  subst hwritten
  exact ⟨hword, hfeed _ (by decide +kernel)⟩

end ChunkIntake
end Http1Client
