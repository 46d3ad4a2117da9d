/-
# Interim responses leave no trace

Any number of interim heads may stand in front of a response. To decode them and
the response behind them is to decode that response alone, cut at the same
places (`Intake.feedAll_behind`): the head, the framing, the data, the errors and
what the end of the stream comes to are the same, and so is the response that is
kept of a head that failed. Nothing is asked of the fields of an interim head.
Lengths that are no lengths, lengths that contradict each other and transfer
encodings change nothing, since such a head is framed as one without a body
before they are looked at.

An interim head whose lines end as they should has sixteen bytes
(`IsInterim.leastSize_le`), so it is taken as soon as it is there. Up to then the
search for the final head waits, and keeps what it has of it
(`Incoming.nextHead_of_cut`).

Key definitions: `Head.AreLines`, `IsInterim`, `behind`.
Key theorems: `IsInterim.leastSize_le`, `Incoming.nextHead_flatten`,
`Incoming.nextHead_of_cut`, `Intake.feedAll_behind`.
-/
import Http1Client.Proofs.Head.Salvaging
import Http1Client.Proofs.Segmentation

namespace Http1Client

open Head

/-! ### Lines -/

namespace Head

/-- The bytes are lines, each with a carriage return and a line feed at its end
and no other line feed in it. -/
def AreLines (p : Bytes) : Prop :=
  ∃ lines : List Bytes, (∀ l ∈ lines, Bytes.lf ∉ l) ∧ p = lines.flatMap (· ++ Bytes.crlf)

/-- Is the byte a carriage return or a line feed? -/
def isLineByte (x : UInt8) : Bool := x == Bytes.cr || x == Bytes.lf

/-- Each line feed has its carriage return. -/
theorem AreLines.count_le {p : Bytes} (h : AreLines p) :
    2 * p.count Bytes.lf ≤ p.countP isLineByte := by
  obtain ⟨lines, hlines, rfl⟩ := h
  induction lines with
  | nil => exact Nat.le_refl _
  | cons l lines ih =>
    have hline : (l ++ Bytes.crlf).count Bytes.lf = 1 := by
      rw [List.count_append, List.count_eq_zero.mpr (hlines l (.head _))]
      rfl
    have hends : 2 ≤ (l ++ Bytes.crlf).countP isLineByte := by
      rw [List.countP_append]
      exact Nat.le_add_left 2 _
    have hrest := ih fun l' hl' => hlines l' (.tail _ hl')
    rw [List.flatMap_cons, List.count_append, List.countP_append, hline]
    omega

theorem IsLineEnd.count {p : Bytes} (h : IsLineEnd p) : p.count Bytes.lf = 1 := by
  rcases h with rfl | rfl <;> rfl

/-- Behind the code stands a line end. -/
theorem IsReason.count_pos {p reason : Bytes} (h : IsReason p reason) : 1 ≤ p.count Bytes.lf := by
  obtain ⟨lineEnd, hend, ⟨rfl, -⟩ | ⟨text, rfl, -⟩⟩ := h
  · exact Nat.le_of_eq hend.count.symm
  · have hin : lineEnd.count Bytes.lf ≤ (32 :: (text ++ lineEnd)).count Bytes.lf :=
      ((List.suffix_append text lineEnd).trans (List.suffix_cons 32 _)).sublist.count_le _
    rw [hend.count] at hin
    exact hin

/-- The version and the code are twelve bytes, none of them part of a line end. -/
theorem IsOpening.count_le {p : Bytes} {version : Version} {code : Nat}
    (h : IsOpening p version code) : 12 ≤ p.countP fun x => !isLineByte x := by
  have hdigit : ∀ d < 10, isLineByte (Numeral.digit d) = false := by decide
  obtain ⟨empties, d1, h1, d2, h2, d3, h3, -, hversion, -, rfl⟩ := h
  have hcode : [32, Numeral.digit d1, Numeral.digit d2, Numeral.digit d3].countP
      (fun x => !isLineByte x) = 4 := by
    have hspace : isLineByte 32 = false := by decide
    simp [hdigit d1 h1, hdigit d2 h2, hdigit d3 h3, hspace]
  have hname : (Bytes.ofText version.text).countP (fun x => !isLineByte x) = 8 := by
    rcases hversion with rfl | rfl <;> decide
  rw [List.countP_append, List.countP_append, hcode, hname]
  omega

/-- A header section ends with an empty line. -/
theorem scanFields_count : ∀ {room : Nat} {b rest : Bytes} {fs : List (FieldName × FieldValue)},
    scanFields room b = .found fs rest → rest.count Bytes.lf < b.count Bytes.lf
  | room, [], rest, fs, h => by
    rw [scanFields.eq_def] at h
    cases h
  | room, x :: b, rest, fs, h => by
    rw [scanFields_cons] at h
    by_cases hx : x = Bytes.lf ∨ x = Bytes.cr
    · rw [if_pos hx] at h
      obtain ⟨_, b1, hend, h⟩ := andThen_found h
      cases h
      obtain ⟨p, hp, hb⟩ := scanLineEnd_eq_found_iff.mp hend
      rw [hb, List.count_append, hp.count]
      omega
    · rw [if_neg hx] at h
      obtain ⟨field, b1, hfield, h⟩ := andThen_found h
      obtain ⟨p, hb, -⟩ := settled_scanField.found hfield
      cases room with
      | zero => cases h
      | succ room =>
        obtain ⟨fields, b2, hfields, h⟩ := andThen_found (f := scanFields room) h
        cases h
        have hrest := scanFields_count hfields
        rw [hb, List.count_append]
        omega

/-- No complete head is shorter than sixteen bytes if its lines end as they
should. -/
theorem leastSize_le_of_complete {p : Bytes} {line : StatusLine}
    {fields : List (FieldName × FieldValue)} (h : scanHead p = .complete line fields [])
    (hlines : AreLines p) : leastSize ≤ p.length := by
  obtain ⟨opening, said, behind, rfl, hopening, hsaid, hfields⟩ := exists_of_complete h
  have htwelve := hopening.count_le
  have hstatus := hsaid.count_pos
  have hempty := scanFields_count hfields
  have hreturns := hlines.count_le
  have hlength := List.length_eq_countP_add_countP isLineByte (l := opening ++ (said ++ behind))
  simp only [List.count_append, List.countP_append, List.count_nil, Bool.not_eq_true,
    Bool.decide_eq_false] at hempty hreturns hlength
  show 16 ≤ _
  omega

end Head

/-! ### Interim heads -/

/-- The bytes are one interim head: they are scanned as a complete head, with an
interim code and any fields, they are not too many, and their lines end as they
should. -/
structure IsInterim (p : Bytes) : Prop where
  scan : ∃ line fields, scanHead p = .complete line fields [] ∧
    100 ≤ line.code ∧ line.code < 200 ∧ line.code ≠ 101
  size : p.length ≤ sizeLimit
  lines : AreLines p

namespace IsInterim

variable {p : Bytes}

theorem leastSize_le (h : IsInterim p) : leastSize ≤ p.length := by
  obtain ⟨line, fields, hscan, -⟩ := h.scan
  exact leastSize_le_of_complete hscan h.lines

/-- Whatever the fields say, an interim head is a head without a body. -/
theorem isHead (h : IsInterim p) (toHead : Bool) :
    ∃ response, IsHead toHead p response .empty ∧ response.isInterim = true := by
  obtain ⟨line, fields, hscan, hlower, hupper, hother⟩ := h.scan
  have hstatus : StatusCode.ofNat? line.code = some ⟨line.code, hlower, by omega⟩ :=
    dif_pos ⟨hlower, by omega⟩
  have hbare : line.response? = some (.ofStatusLine line.version ⟨line.code, hlower, by omega⟩
      line.reason) := by
    rw [StatusLine.response?, hstatus]
    rfl
  have hinterim : ({ Response.ofStatusLine line.version ⟨line.code, hlower, by omega⟩ line.reason
      with fields := .ofList fields } : Response).isInterim = true := by
    simp [Response.isInterim, Response.ofStatusLine, StatusCode.isInterim,
      StatusCode.isInformational, hupper, hother]
  exact ⟨_, ⟨line, fields, _, hscan, hbare, rfl,
    Response.framing_of_isInterim hinterim toHead, h.size⟩, hinterim⟩

end IsInterim

namespace Incoming

variable (s : Incoming)

/-- An interim head is passed over. -/
theorem nextHead_append_of_isInterim {p : Bytes} (hp : IsInterim p) (c : Bytes) :
    s.nextHead (p ++ c) = s.nextHead c := by
  obtain ⟨response, hhead, hinterim⟩ := hp.isHead s.toHead
  have hlong : leastSize ≤ (p ++ c).length := by
    have hleast := hp.leastSize_le
    rw [List.length_append]
    omega
  have htake : takeHead s.toHead s.salvaged (p ++ c) = ⟨.item (response, .empty), s.salvaged, c⟩ :=
    takeHead_eq_item_iff.mpr ⟨hlong, rfl, p, rfl, hhead⟩
  rw [nextHead_of_item htake, if_pos hinterim]

/-- So are any number of them. -/
theorem nextHead_flatten {heads : List Bytes} (h : ∀ p ∈ heads, IsInterim p) (c : Bytes) :
    s.nextHead (heads.flatten ++ c) = s.nextHead c := by
  induction heads with
  | nil => rfl
  | cons p ps ih =>
    rw [List.flatten_cons, List.append_assoc, nextHead_append_of_isInterim s (h p (.head _))]
    exact ih fun p' hp' => h p' (.tail _ hp')

theorem nextHead_nil : s.nextHead [] = (.need, s, []) := nextHead_of_need rfl

/-- The front of an interim head is no reason to stop. -/
theorem nextHead_of_front {q u : Bytes} (h : IsInterim (q ++ u)) (hu : u ≠ []) :
    s.nextHead q = (.need, s, q) := by
  obtain ⟨line, fields, hscan, -⟩ := h.scan
  exact nextHead_of_need (takeHead_front hscan hu h.size s.toHead s.salvaged)

/-- Where interim heads are cut, the search waits for the rest of the head
that was cut. -/
theorem nextHead_of_cut : ∀ {heads : List Bytes} {q u : Bytes}, (∀ p ∈ heads, IsInterim p) →
    heads.flatten = q ++ u → u ≠ [] →
    ∃ (heads' : List Bytes) (rest : Bytes), (∀ p ∈ heads', IsInterim p) ∧
      heads'.flatten = rest ++ u ∧ s.nextHead q = (.need, s, rest)
  | [], q, u, _, hcut, hu => absurd (List.append_eq_nil_iff.mp hcut.symm).2 hu
  | p :: ps, q, u, h, hcut, hu => by
    have hps : ∀ p' ∈ ps, IsInterim p' := fun p' hp' => h p' (.tail _ hp')
    rw [List.flatten_cons] at hcut
    rcases List.append_eq_append_iff.mp hcut with ⟨a, rfl, hrest⟩ | ⟨a, rfl, rfl⟩
    · obtain ⟨heads', rest, hheads', hflat, hneed⟩ := nextHead_of_cut hps hrest hu
      exact ⟨heads', rest, hheads', hflat,
        (nextHead_append_of_isInterim s (h p (.head _)) a).trans hneed⟩
    · by_cases ha : a = []
      · subst ha
        refine ⟨ps, [], hps, rfl, ?_⟩
        have hpass := nextHead_append_of_isInterim s (h _ (.head _)) []
        rw [List.append_nil, List.append_nil] at hpass
        rw [hpass, nextHead_nil]
      · exact ⟨(q ++ a) :: ps, q, h, by simp, nextHead_of_front s (h _ (.head _)) ha⟩

end Incoming

/-! ### The same places to cut -/

/-- What is left of the segments when their first `n` bytes are gone. Each of
them stays, if only as an empty one. -/
def behind : Nat → List Bytes → List Bytes
  | _, [] => []
  | n, c :: cs => c.drop n :: behind (n - c.length) cs

theorem behind_zero : ∀ cs : List Bytes, behind 0 cs = cs
  | [] => rfl
  | c :: cs => by rw [behind, List.drop_zero, Nat.zero_sub, behind_zero cs]

theorem flatten_behind : ∀ (n : Nat) (cs : List Bytes),
    (behind n cs).flatten = cs.flatten.drop n
  | n, [] => by rw [behind, List.flatten_nil, List.drop_nil]
  | n, c :: cs => by
    rw [behind, List.flatten_cons, List.flatten_cons, List.drop_append, flatten_behind]

theorem take_behind : ∀ (n i : Nat) (cs : List Bytes),
    (behind n cs).take i = behind n (cs.take i)
  | _, 0, _ => rfl
  | _, _ + 1, [] => rfl
  | n, i + 1, c :: cs => by
    rw [behind, List.take_succ_cons, List.take_succ_cons, behind, take_behind]

namespace Intake

/-- Only the bytes that are still to be taken may differ. -/
def SameButBytes (k l : Intake) : Prop := k = { l with buffer := k.buffer }

variable {toHead : Bool} {chunkLimit : Nat} {heads segments : List Bytes} {q u v b : Bytes}

/-- A segment that ends inside the interim heads is kept as far as it is the
front of one of them. -/
theorem feed_inside (hheads : ∀ p ∈ heads, IsInterim p) (hcut : heads.flatten = q ++ (u ++ v))
    (hv : v ≠ []) : ∃ (heads' : List Bytes) (rest : Bytes), (∀ p ∈ heads', IsInterim p) ∧
      heads'.flatten = rest ++ v ∧
        ((start toHead chunkLimit).append q).feed u = (start toHead chunkLimit).append rest := by
  rw [← List.append_assoc] at hcut
  obtain ⟨heads', rest, hheads', hflat, hneed⟩ :=
    Incoming.nextHead_of_cut (start toHead chunkLimit).incoming hheads hcut hv
  exact ⟨heads', rest, hheads', hflat, pull_of_need (k := (start toHead chunkLimit).append (q ++ u))
    rfl ((Incoming.next_of_no_body rfl _).trans hneed)⟩

/-- A segment that brings the rest of the interim heads counts from there on. -/
theorem feed_through (hheads : ∀ p ∈ heads, IsInterim p) (hcut : heads.flatten = q ++ u)
    (v : Bytes) : ((start toHead chunkLimit).append q).feed (u ++ v) =
      (start toHead chunkLimit).feed v := by
  have hpass : (start toHead chunkLimit).incoming.next v =
      (start toHead chunkLimit).incoming.next (q ++ (u ++ v)) := by
    rw [Incoming.next_of_no_body rfl, Incoming.next_of_no_body rfl, ← List.append_assoc, ← hcut,
      Incoming.nextHead_flatten _ hheads]
  exact (pull_congr (k := (start toHead chunkLimit).append (q ++ (u ++ v))) rfl hpass).symm

/-- An intake that has the front `q` of interim heads, of which `u` is still to
come, goes on as one that has nothing and to which `u` does not come. -/
theorem feedAll_cut : ∀ {segments heads : List Bytes} {q u : Bytes},
    (∀ p ∈ heads, IsInterim p) → heads.flatten = q ++ u → u ≠ [] →
    segments.flatten <+: u ++ b →
    let k := ((start toHead chunkLimit).append q).feedAll segments
    let l := (start toHead chunkLimit).feedAll (behind u.length segments)
    SameButBytes k l ∧ (u.length ≤ segments.flatten.length → k = l)
  | [], heads, q, u, _, _, hu, _ => by
    refine ⟨rfl, fun hle => ?_⟩
    exact absurd (List.eq_nil_of_length_eq_zero (Nat.le_zero.mp hle)) hu
  | x :: xs, heads, q, u, hheads, hcut, hu, hpre => by
    have hx : x <+: u ++ b := (List.prefix_append x _).trans hpre
    intro k l
    rcases Nat.lt_or_ge x.length u.length with hlt | hge
    · obtain ⟨v, rfl⟩ := List.prefix_of_prefix_length_le hx (List.prefix_append u b) hlt.le
      have hv : v ≠ [] := by
        rintro rfl
        simp at hlt
      obtain ⟨heads', rest, hheads', hflat, hfeed⟩ := feed_inside hheads hcut hv
      have hleft : (x ++ v).length - x.length = v.length := by
        rw [List.length_append]
        omega
      have hxs : xs.flatten <+: v ++ b := by
        rw [List.flatten_cons, List.append_assoc] at hpre
        exact (List.prefix_append_right_inj x).mp hpre
      have hk : k = ((start toHead chunkLimit).append rest).feedAll xs :=
        congrArg (feedAll · xs) hfeed
      have hl : l = (start toHead chunkLimit).feedAll (behind v.length xs) := by
        show (start toHead chunkLimit).feedAll (behind (x ++ v).length (x :: xs)) = _
        rw [behind, List.drop_of_length_le hlt.le, hleft]
        exact congrArg (feedAll · _) (pull_start toHead chunkLimit)
      obtain ⟨hsame, hwhole⟩ := feedAll_cut hheads' hflat hv hxs
      rw [hk, hl]
      refine ⟨hsame, fun hle => hwhole ?_⟩
      simp only [List.flatten_cons, List.length_append] at hle
      omega
    · obtain ⟨v, rfl⟩ := List.prefix_of_prefix_length_le (List.prefix_append u b) hx hge
      have hleft : u.length - (u ++ v).length = 0 := by
        rw [List.length_append]
        omega
      have hsame : k = l := by
        show _ = (start toHead chunkLimit).feedAll (behind u.length ((u ++ v) :: xs))
        rw [behind, List.drop_left, hleft, behind_zero]
        exact congrArg (feedAll · xs) (feed_through hheads hcut v)
      exact ⟨by rw [hsame]; rfl, fun _ => hsame⟩

/-- Part of interim heads and of the bytes behind them. -/
theorem feedAll_front (hheads : ∀ p ∈ heads, IsInterim p)
    (h : segments.flatten <+: heads.flatten ++ b) :
    let k := (start toHead chunkLimit).feedAll segments
    let l := (start toHead chunkLimit).feedAll (behind heads.flatten.length segments)
    SameButBytes k l ∧ (heads.flatten.length ≤ segments.flatten.length → k = l) := by
  by_cases hnone : heads.flatten = []
  · rw [hnone, List.length_nil, behind_zero]
    exact ⟨rfl, fun _ => rfl⟩
  · exact feedAll_cut hheads (List.nil_append _).symm hnone h

/-- **Interim responses leave no trace.** To decode interim heads and bytes
behind them is to decode these bytes alone, cut at the same places. While the
segments come in, the two intakes have the same head, data, error and response
kept; at the end they are the same, and so is what the end of the stream comes
to. -/
theorem feedAll_behind (toHead : Bool) (chunkLimit : Nat) {heads segments : List Bytes} {b : Bytes}
    (hheads : ∀ p ∈ heads, IsInterim p) (h : segments.flatten = heads.flatten ++ b) :
    let alone := behind heads.flatten.length segments
    let k := (start toHead chunkLimit).feedAll segments
    let l := (start toHead chunkLimit).feedAll alone
    alone.flatten = b ∧
      (∀ i, SameButBytes ((start toHead chunkLimit).feedAll (segments.take i))
        ((start toHead chunkLimit).feedAll (alone.take i))) ∧
      k = l ∧ k.incoming.nextEnd k.buffer = l.incoming.nextEnd l.buffer := by
  intro alone k l
  have hsame : k = l := by
    refine (feedAll_front hheads ⟨[], by rw [h, List.append_nil]⟩).2 ?_
    rw [h, List.length_append]
    omega
  refine ⟨?_, fun i => ?_, hsame, by rw [hsame]⟩
  · rw [flatten_behind, h, List.drop_left]
  · have hfront : (segments.take i).flatten <+: heads.flatten ++ b := by
      refine ⟨(segments.drop i).flatten, ?_⟩
      rw [← List.flatten_append, List.take_append_drop, h]
    rw [take_behind]
    exact (feedAll_front hheads hfront).1

/-- Two interim heads, the second with lengths that are none or contradict each
other, cut inside the first one and inside the response. -/
theorem feedAll_behind_hints :
    let hints := ["HTTP/1.1 103 Early Hints", "content-length: 5", "content-length: x", ""]
    let heads := [Bytes.ofText "HTTP/1.1 100 Continue\r\n\r\n",
      (hints.map Bytes.ofText).flatMap (· ++ Bytes.crlf)]
    let response := Bytes.ofText "HTTP/1.1 200 OK\r\ncontent-length: 2\r\n\r\nhi"
    let segments := [heads.flatten.take 5, heads.flatten.drop 5 ++ response.take 7, response.drop 7]
    (∀ p ∈ heads, IsInterim p) ∧ segments.flatten = heads.flatten ++ response ∧
      (start false 8).feedAll segments =
        (start false 8).feedAll (behind heads.flatten.length segments) := by
  intro hints heads response segments
  have hcontinue : IsInterim (Bytes.ofText "HTTP/1.1 100 Continue\r\n\r\n") :=
    { scan := ⟨{ version := .http11, code := 100, reason := Bytes.ofText "Continue" }, [],
        by decide +kernel, by decide⟩
      size := by decide +kernel
      lines := ⟨["HTTP/1.1 100 Continue", ""].map Bytes.ofText, by decide +kernel,
        by decide +kernel⟩ }
  have hhints : IsInterim ((hints.map Bytes.ofText).flatMap (· ++ Bytes.crlf)) :=
    { scan := ⟨{ version := .http11, code := 103, reason := Bytes.ofText "Early Hints" },
        [(.contentLength, ⟨Bytes.ofText "5", by decide +kernel⟩),
          (.contentLength, ⟨Bytes.ofText "x", by decide +kernel⟩)],
        by decide +kernel, by decide⟩
      size := by decide +kernel
      lines := ⟨hints.map Bytes.ofText, by decide +kernel, rfl⟩ }
  have hheads : ∀ p ∈ heads, IsInterim p := by
    simp only [heads, List.forall_mem_cons]
    exact ⟨hcontinue, hhints, nofun⟩
  have hcut : segments.flatten = heads.flatten ++ response := by
    simp only [segments, List.flatten_cons, List.flatten_nil, List.append_nil]
    rw [List.append_assoc, List.take_append_drop, ← List.append_assoc, List.take_append_drop]
  exact ⟨hheads, hcut, (feedAll_behind false 8 hheads hcut).2.2.1⟩

end Intake
end Http1Client
