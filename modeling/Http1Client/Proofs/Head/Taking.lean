/-
# Taking heads off growing bytes

`IsHead` says which bytes are a head, and what it says, without regard to how
they arrive; `Heads` says which bytes begin with any number of interim heads
and a final one. `takeHead` takes what `IsHead` describes as soon as sixteen
bytes are there (`takeHead_eq_item_iff`), and `Incoming.nextHead` what `Heads`
describes. Asked again with more bytes, either goes on where it stopped, gives
out the same head, or fails again; the error is the same one unless the head
was given up for its size before its fault was seen.

Key definitions: `IsHead`, `Heads`, `DecodeError.isHeadTooLarge`.
Key theorems: `takeHead_eq_item_iff`, `takeHead_append_of_fail`,
`Incoming.nextHead_append_of_need`, `Incoming.nextHead_append_of_item`,
`Incoming.nextHead_append_of_fail`, `Incoming.nextHead_item`,
`Incoming.heads_of_need`, `Incoming.heads_of_item`.
-/
import Http1Client.Incoming
import Http1Client.Proofs.Head.Settled

namespace Http1Client

open Head

/-- Was a head given up because it has too many bytes? -/
def DecodeError.isHeadTooLarge : DecodeError → Bool
  | headTooLarge _ _ => true
  | _ => false

/-- Is the error one of the transport, the end of the stream included? -/
def DecodeError.isIo : DecodeError → Bool
  | io _ => true
  | _ => false

/-- Is the error a fault of a head? -/
def DecodeError.isOfHead : DecodeError → Bool
  | badBody _ => false
  | io _ => false
  | _ => true

theorem DecodeError.isIo_of_isOfHead {e : DecodeError} (h : e.isOfHead = true) : e.isIo = false := by
  cases e <;> first | rfl | cases h

/-! ### One head -/

/-- The bytes are one head, of at most `sizeLimit` bytes, and it says this. -/
def IsHead (toHead : Bool) (p : Bytes) (response : Response) (framing : Framing) : Prop :=
  ∃ line fields bare, scanHead p = .complete line fields [] ∧ line.response? = some bare ∧
    response = { bare with fields := .ofList fields } ∧ response.framing toHead = .ok framing ∧
    p.length ≤ sizeLimit

theorem IsHead.scan_append {toHead : Bool} {p : Bytes} {response : Response} {framing : Framing}
    (h : IsHead toHead p response framing) (c : Bytes) :
    ∃ line fields bare, scanHead (p ++ c) = .complete line fields c ∧ line.response? = some bare ∧
      response = { bare with fields := .ofList fields } ∧
        response.framing toHead = .ok framing := by
  obtain ⟨line, fields, bare, h1, h2, h3, h4, -⟩ := h
  exact ⟨line, fields, bare, by simpa using scanHead_append_of_complete h1 c, h2, h3, h4⟩

/-- One head at most stands at the front of given bytes. -/
theorem IsHead.unique {toHead : Bool} {p p' c c' : Bytes} {response response' : Response}
    {framing framing' : Framing} (h : IsHead toHead p response framing)
    (h' : IsHead toHead p' response' framing') (he : p ++ c = p' ++ c') :
    response = response' ∧ framing = framing' ∧ c = c' := by
  obtain ⟨line, fields, bare, h1, h2, h3, h4⟩ := h.scan_append c
  obtain ⟨line', fields', bare', h1', h2', h3', h4'⟩ := h'.scan_append c'
  rw [he, h1'] at h1
  obtain ⟨rfl, rfl, rfl⟩ : line' = line ∧ fields' = fields ∧ c' = c := by simpa using h1
  rw [h2, Option.some.injEq] at h2'
  subst h2'
  obtain rfl : response = response' := h3.trans h3'.symm
  rw [h4] at h4'
  exact ⟨rfl, by simpa using h4', rfl⟩

/-- The framing of a head that is taken, and what it leaves as it was. -/
theorem frameHead_eq_item {toHead : Bool} {salvaged kept : Option Response} {response : Response}
    {rest rest' : Bytes} {head : Response × Framing}
    (h : frameHead toHead salvaged response rest = ⟨.item head, kept, rest'⟩) :
    head.1 = response ∧ response.framing toHead = .ok head.2 ∧ kept = salvaged ∧ rest' = rest := by
  unfold frameHead at h
  split at h
  · simp at h
  · next framing hf =>
    simp only [HeadTaken.mk.injEq, Progress.item.injEq] at h
    obtain ⟨rfl, rfl, rfl⟩ := h
    exact ⟨rfl, hf, rfl, rfl⟩

/-- A head is taken exactly if it stands in front and there are sixteen
bytes at least. -/
theorem takeHead_eq_item_iff {toHead : Bool} {salvaged kept : Option Response} {b rest : Bytes}
    {head : Response × Framing} : takeHead toHead salvaged b = ⟨.item head, kept, rest⟩ ↔
      leastSize ≤ b.length ∧ kept = salvaged ∧
        ∃ p, b = p ++ rest ∧ IsHead toHead p head.1 head.2 := by
  constructor
  · intro h
    unfold takeHead at h
    split at h
    · simp at h
    · next hl =>
      rw [Bool.not_eq_true, Bytes.isShorter_eq_false] at hl
      split at h
      · split at h <;> simp at h
      · simp at h
      · next line fields rest' hs =>
        split at h
        · simp at h
        · next bare hbare =>
          split at h
          · next hsize =>
            obtain ⟨h1, h2, h3, rfl⟩ := frameHead_eq_item h
            obtain ⟨p, rfl, hp⟩ := scanHead_complete hs
            refine ⟨hl, h3, p, rfl, line, fields, bare, by simpa using hp [], hbare, h1, ?_, ?_⟩
            · rw [h1, h2]
            · simpa using hsize
          · simp at h
  · rintro ⟨hl, rfl, p, rfl, hp⟩
    obtain ⟨line, fields, bare, h1, h2, h3, h4⟩ := hp.scan_append rest
    have hsize : (p ++ rest).length - rest.length ≤ sizeLimit := by
      obtain ⟨_, _, _, -, -, -, -, h5⟩ := hp
      simpa using h5
    rw [takeHead, if_neg (by simp [Bytes.isShorter_eq_false.mpr hl]), h1]
    simp only [h2, hsize, if_true, frameHead, ← h3, h4]

theorem takeHead_append_of_item {toHead : Bool} {salvaged kept : Option Response} {b rest : Bytes}
    {head : Response × Framing} (h : takeHead toHead salvaged b = ⟨.item head, kept, rest⟩)
    (c : Bytes) : takeHead toHead salvaged (b ++ c) = ⟨.item head, kept, rest ++ c⟩ := by
  obtain ⟨hl, hk, p, rfl, hp⟩ := takeHead_eq_item_iff.mp h
  refine takeHead_eq_item_iff.mpr ⟨?_, hk, p, List.append_assoc .., hp⟩
  rw [List.length_append]
  omega

/-- The front of a head is no reason to stop: more bytes are needed. -/
theorem takeHead_front {q u : Bytes} {line : StatusLine} {fields : List (FieldName × FieldValue)}
    (hscan : scanHead (q ++ u) = .complete line fields []) (hu : u ≠ [])
    (hsize : (q ++ u).length ≤ sizeLimit) (toHead : Bool) (salvaged : Option Response) :
    takeHead toHead salvaged q = ⟨.need, salvaged, q⟩ := by
  have hfits : q.length ≤ sizeLimit := by
    rw [List.length_append] at hsize
    omega
  by_cases hshort : Bytes.isShorter leastSize q
  · rw [takeHead, if_pos hshort]
  · rw [takeHead, if_neg hshort, scanHead_front hscan hu]
    exact if_pos hfits

/-- Nothing is taken and nothing forgotten where more bytes are needed. -/
theorem takeHead_eq_need {toHead : Bool} {salvaged kept : Option Response} {b rest : Bytes}
    (h : takeHead toHead salvaged b = ⟨.need, kept, rest⟩) : kept = salvaged ∧ rest = b := by
  unfold takeHead at h
  split at h
  · simpa [eq_comm] using h
  · split at h
    · split at h
      · simpa [eq_comm] using h
      · simp at h
    · simp at h
    · split at h
      · simp at h
      · split at h
        · unfold frameHead at h
          split at h <;> simp at h
        · simp at h

/-- A head fails for what it says, and then it fails so however many bytes are
behind it; or because it is not complete in more than `sizeLimit` bytes. -/
theorem takeHead_fail_cases {toHead : Bool} {salvaged : Option Response} {b : Bytes}
    {e : DecodeError} (h : (takeHead toHead salvaged b).progress = .fail e) :
    (∀ c, (takeHead toHead salvaged (b ++ c)).progress = .fail e) ∨
      (scanHead b = .open ∧ sizeLimit < b.length ∧ e.isHeadTooLarge = true) := by
  unfold takeHead at h
  split at h
  · simp at h
  · next hl =>
    have hshort : ∀ c, Bytes.isShorter leastSize (b ++ c) = false := by
      intro c
      rw [Bool.not_eq_true, Bytes.isShorter_eq_false] at hl
      rw [Bytes.isShorter_eq_false, List.length_append]
      omega
    split at h
    · next hs =>
      split at h
      · simp at h
      · next hsize =>
        right
        rw [Progress.fail.injEq] at h
        exact ⟨hs, by omega, by rw [← h]; rfl⟩
    · next fault line hs =>
      left
      intro c
      simp only [takeHead, hshort, scanHead_append_of_malformed hs c, Bool.false_eq_true, if_false]
      exact h
    · next line fields rest hs =>
      left
      intro c
      have hlen := scanHead_length hs
      have hsub : (b ++ c).length - (rest ++ c).length = b.length - rest.length := by
        simp only [List.length_append]
        omega
      simp only [takeHead, hshort, scanHead_append_of_complete hs c, Bool.false_eq_true, if_false,
        hsub]
      cases hbare : line.response? with
      | none => simpa only [hbare] using h
      | some bare =>
        simp only [hbare] at h ⊢
        split at h
        · next hsize =>
          rw [if_pos hsize]
          unfold frameHead at h ⊢
          split at h
          · next hf => simpa only [hf] using h
          · simp at h
        · next hsize => simpa only [if_neg hsize] using h

/-- A head that failed fails with more bytes too, and for the same reason
unless it was given up for its size. -/
theorem takeHead_append_of_fail {toHead : Bool} {salvaged : Option Response} {b : Bytes}
    {e : DecodeError} (h : (takeHead toHead salvaged b).progress = .fail e) (c : Bytes) :
    ∃ e', (takeHead toHead salvaged (b ++ c)).progress = .fail e' ∧
      (e = e' ∨ e.isHeadTooLarge = true) := by
  rcases takeHead_fail_cases h with h1 | ⟨hs, hsize, he⟩
  · exact ⟨e, h1 c, .inl rfl⟩
  · have hl : Bytes.isShorter leastSize (b ++ c) = false := by
      rw [Bytes.isShorter_eq_false, List.length_append, show leastSize = 16 from rfl]
      have : sizeLimit = 8192 := rfl
      omega
    suffices ∃ e', (takeHead toHead salvaged (b ++ c)).progress = .fail e' from
      this.imp fun e' h' => ⟨h', .inr he⟩
    simp only [takeHead, hl, Bool.false_eq_true, if_false]
    split
    · rw [if_neg (by rw [List.length_append]; omega)]
      exact ⟨_, rfl⟩
    · exact ⟨_, rfl⟩
    · next line fields rest hbc =>
      have hrest := length_rest_lt_of_open hs hbc
      split
      · exact ⟨_, rfl⟩
      · rw [if_neg (by rw [List.length_append]; omega)]
        exact ⟨_, rfl⟩

/-- The taking of a head fails with a fault of the head. -/
theorem isOfHead_of_takeHead_fail {toHead : Bool} {salvaged : Option Response} {b : Bytes}
    {e : DecodeError} (h : (takeHead toHead salvaged b).progress = .fail e) :
    e.isOfHead = true := by
  unfold takeHead at h
  split at h
  · simp at h
  · split at h
    · split at h
      · simp at h
      · cases h
        rfl
    · next fault line _ =>
      cases h
      cases fault <;> rfl
    · split at h
      · cases h
        rfl
      · split at h
        · unfold frameHead at h
          split at h
          · cases h
            rfl
          · simp at h
        · cases h
          rfl

/-! ### Interim heads and the final one -/

/-- The bytes begin with interim heads, any number of them, and a final head
that says this; `tail` is behind it. -/
inductive Heads (toHead : Bool) : Bytes → Response → Framing → Bytes → Prop where
  | final {p tail : Bytes} {response : Response} {framing : Framing} :
      IsHead toHead p response framing → response.isInterim = false →
      Heads toHead (p ++ tail) response framing tail
  | interim {p b tail : Bytes} {r response : Response} {f framing : Framing} :
      IsHead toHead p r f → r.isInterim = true → Heads toHead b response framing tail →
      Heads toHead (p ++ b) response framing tail

theorem Heads.append {toHead : Bool} {b tail : Bytes} {response : Response} {framing : Framing}
    (h : Heads toHead b response framing tail) (c : Bytes) :
    Heads toHead (b ++ c) response framing (tail ++ c) := by
  induction h with
  | final hp hi =>
    rw [List.append_assoc]
    exact .final hp hi
  | interim hp hi _ ih =>
    rw [List.append_assoc]
    exact .interim hp hi ih

/-- What stands behind a first head that is known. -/
theorem Heads.behind {toHead : Bool} {p b tail : Bytes} {r response : Response}
    {f framing : Framing} (h : Heads toHead (p ++ b) response framing tail)
    (hp : IsHead toHead p r f) :
    (r.isInterim = true ∧ Heads toHead b response framing tail) ∨
      (r.isInterim = false ∧ response = r ∧ framing = f ∧ tail = b) := by
  generalize hx : p ++ b = x at h
  cases h with
  | final hp' hi =>
    obtain ⟨rfl, rfl, rfl⟩ := hp.unique hp' hx
    exact .inr ⟨hi, rfl, rfl, rfl⟩
  | interim hp' hi hrest =>
    obtain ⟨rfl, rfl, rfl⟩ := hp.unique hp' hx
    exact .inl ⟨hi, hrest⟩

namespace Incoming

/-! ### One turn of the search for a final head -/

theorem nextHead_of_need {s : Incoming} {b rest : Bytes} {kept : Option Response}
    (h : takeHead s.toHead s.salvaged b = ⟨.need, kept, rest⟩) : s.nextHead b = (.need, s, b) := by
  obtain ⟨rfl, rfl⟩ := takeHead_eq_need h
  rw [nextHead]
  split <;> simp_all

theorem nextHead_of_fail {s : Incoming} {b : Bytes} {e : DecodeError}
    (h : (takeHead s.toHead s.salvaged b).progress = .fail e) : ∃ s' rest,
      s.nextHead b = (.fail e, s', rest) := by
  rw [nextHead]
  split <;> simp_all

theorem nextHead_of_item {s : Incoming} {b rest : Bytes} {kept : Option Response}
    {head : Response × Framing} (h : takeHead s.toHead s.salvaged b = ⟨.item head, kept, rest⟩) :
    s.nextHead b = if head.1.isInterim then s.nextHead rest
      else (.item (.head head.1 head.2),
        { s with body := some (BodyDecoder.ofFraming s.chunkLimit head.2) }, rest) := by
  obtain ⟨-, rfl, -⟩ := takeHead_eq_item_iff.mp h
  conv => lhs; rw [nextHead]
  split
  · next h' => simp [h] at h'
  · next h' => simp [h] at h'
  · next h' =>
    rw [h] at h'
    simp only [HeadTaken.mk.injEq, Progress.item.injEq] at h'
    obtain ⟨rfl, rfl, rfl⟩ := h'
    rfl

/-- The search by its turns: it has to wait, it fails, it passes an interim
head over, or it is done. -/
theorem nextHead_induct {motive : Incoming → Bytes → Prop}
    (need : ∀ (s : Incoming) (b : Bytes) kept rest,
      takeHead s.toHead s.salvaged b = ⟨.need, kept, rest⟩ → motive s b)
    (fail : ∀ (s : Incoming) (b : Bytes) e,
      (takeHead s.toHead s.salvaged b).progress = .fail e → motive s b)
    (interim : ∀ (s : Incoming) (b rest : Bytes) kept (head : Response × Framing),
      takeHead s.toHead s.salvaged b = ⟨.item head, kept, rest⟩ → head.1.isInterim = true →
      motive s rest → motive s b)
    (final : ∀ (s : Incoming) (b rest : Bytes) kept (head : Response × Framing),
      takeHead s.toHead s.salvaged b = ⟨.item head, kept, rest⟩ → head.1.isInterim = false →
      motive s b) (s : Incoming) (b : Bytes) : motive s b := by
  induction hn : b.length using Nat.strongRecOn generalizing b with
  | ind n ih =>
    cases ht : takeHead s.toHead s.salvaged b with
    | mk progress kept rest =>
      cases progress with
      | need => exact need s b _ _ ht
      | fail e => exact fail s b e (by rw [ht])
      | item head =>
        cases hi : head.1.isInterim with
        | false => exact final s b _ _ head ht hi
        | true => exact interim s b _ _ head ht hi (ih _ (hn ▸ takeHead_length ht) rest rfl)

theorem isOfHead_of_nextHead_fail {s s' : Incoming} {b rest : Bytes} {e : DecodeError}
    (h : s.nextHead b = (.fail e, s', rest)) : e.isOfHead = true := by
  induction s, b using nextHead_induct with
  | need s b kept rest' ht =>
    rw [nextHead_of_need ht] at h
    simp at h
  | fail s b e' ht =>
    obtain ⟨s'', rest', h'⟩ := nextHead_of_fail ht
    rw [h', Prod.mk.injEq, Progress.fail.injEq] at h
    exact h.1 ▸ isOfHead_of_takeHead_fail ht
  | interim s b rest' kept head ht hi ih =>
    rw [nextHead_of_item ht, if_pos hi] at h
    exact ih h
  | final s b rest' kept head ht hi =>
    rw [nextHead_of_item ht, if_neg (by simp [hi])] at h
    simp at h

/-- A final head that is found takes bytes. -/
theorem nextHead_length {s s' : Incoming} {b rest : Bytes} {event : Event}
    (h : s.nextHead b = (.item event, s', rest)) : rest.length < b.length := by
  induction s, b using nextHead_induct with
  | need s b kept rest' ht =>
    rw [nextHead_of_need ht] at h
    simp at h
  | fail s b e ht =>
    obtain ⟨s'', rest', h'⟩ := nextHead_of_fail ht
    rw [h'] at h
    simp at h
  | interim s b rest' kept head ht hi ih =>
    rw [nextHead_of_item ht, if_pos hi] at h
    exact Nat.lt_trans (ih h) (takeHead_length ht)
  | final s b rest' kept head ht hi =>
    rw [nextHead_of_item ht, if_neg (by simp [hi])] at h
    obtain ⟨-, -, rfl⟩ : _ ∧ _ ∧ rest' = rest := by simpa using h
    exact takeHead_length ht

/-- The head that is found stands behind interim heads, and opens its body. -/
theorem nextHead_item {s s' : Incoming} {b rest : Bytes} {event : Event}
    (h : s.nextHead b = (.item event, s', rest)) : ∃ response framing,
      event = .head response framing ∧ Heads s.toHead b response framing rest ∧
        s' = { s with body := some (BodyDecoder.ofFraming s.chunkLimit framing) } := by
  induction s, b using nextHead_induct with
  | need s b kept rest' ht =>
    rw [nextHead_of_need ht] at h
    simp at h
  | fail s b e ht =>
    obtain ⟨s'', rest', h'⟩ := nextHead_of_fail ht
    rw [h'] at h
    simp at h
  | interim s b rest' kept head ht hi ih =>
    rw [nextHead_of_item ht, if_pos hi] at h
    obtain ⟨-, -, p, rfl, hp⟩ := takeHead_eq_item_iff.mp ht
    obtain ⟨response, framing, he, hheads, hs⟩ := ih h
    exact ⟨response, framing, he, .interim hp hi hheads, hs⟩
  | final s b rest' kept head ht hi =>
    rw [nextHead_of_item ht, if_neg (by simp [hi])] at h
    obtain ⟨-, -, p, rfl, hp⟩ := takeHead_eq_item_iff.mp ht
    simp only [Prod.mk.injEq, Progress.item.injEq] at h
    obtain ⟨rfl, rfl, rfl⟩ := h
    exact ⟨_, _, rfl, .final hp hi, rfl⟩

/-- The search is right about the head that it finds. -/
theorem heads_of_nextHead {s s' : Incoming} {b rest : Bytes} {response : Response}
    {framing : Framing} (h : s.nextHead b = (.item (.head response framing), s', rest)) :
    Heads s.toHead b response framing rest := by
  obtain ⟨_, _, he, hheads, -⟩ := nextHead_item h
  cases he
  exact hheads

/-- A final head, for a body of two bytes. -/
def shortHead : Response :=
  { status := StatusCode.ofNat? 200
    reason := "OK"
    fields := .ofList [(.contentLength, ⟨Bytes.ofText "2", by decide +kernel⟩)] }

/-- The bytes of an interim head and the final one. -/
def shortHeads : Bytes :=
  Bytes.ofText "HTTP/1.1 100 Continue\r\n\r\nHTTP/1.1 200 OK\r\nContent-Length: 2\r\n\r\n"

theorem heads_short :
    Heads false (shortHeads ++ Bytes.ofText "hi") shortHead (.length 2) (Bytes.ofText "hi") := by
  have h : ({} : Incoming).nextHead (shortHeads ++ Bytes.ofText "hi") =
      (.item (.head shortHead (.length 2)), { body := some (.length 2) }, Bytes.ofText "hi") := by
    decide +kernel
  exact heads_of_nextHead h

/-! ### Asked again with more bytes -/

/-- Where more bytes are needed, they are all that is needed: the search goes
on behind the interim heads it has passed over. -/
theorem nextHead_append_of_need {s s' : Incoming} {b rest : Bytes}
    (h : s.nextHead b = (.need, s', rest)) (c : Bytes) :
    s' = s ∧ s.nextHead (b ++ c) = s.nextHead (rest ++ c) ∧ s.nextHead rest = (.need, s, rest) := by
  induction s, b using nextHead_induct with
  | need s b kept rest' ht =>
    rw [nextHead_of_need ht] at h
    obtain ⟨rfl, rfl⟩ : s = s' ∧ b = rest := by simpa using h
    exact ⟨rfl, rfl, nextHead_of_need ht⟩
  | fail s b e ht =>
    obtain ⟨s'', rest', h'⟩ := nextHead_of_fail ht
    rw [h'] at h
    simp at h
  | interim s b rest' kept head ht hi ih =>
    rw [nextHead_of_item ht, if_pos hi] at h
    rw [nextHead_of_item (takeHead_append_of_item ht c), if_pos hi]
    exact ih h
  | final s b rest' kept head ht hi =>
    rw [nextHead_of_item ht, if_neg (by simp [hi])] at h
    simp at h

/-- The final head is the same with more bytes behind it. -/
theorem nextHead_append_of_item {s s' : Incoming} {b rest : Bytes} {event : Event}
    (h : s.nextHead b = (.item event, s', rest)) (c : Bytes) :
    s.nextHead (b ++ c) = (.item event, s', rest ++ c) := by
  induction s, b using nextHead_induct with
  | need s b kept rest' ht =>
    rw [nextHead_of_need ht] at h
    simp at h
  | fail s b e ht =>
    obtain ⟨s'', rest', h'⟩ := nextHead_of_fail ht
    rw [h'] at h
    simp at h
  | interim s b rest' kept head ht hi ih =>
    rw [nextHead_of_item ht, if_pos hi] at h
    rw [nextHead_of_item (takeHead_append_of_item ht c), if_pos hi]
    exact ih h
  | final s b rest' kept head ht hi =>
    rw [nextHead_of_item ht, if_neg (by simp [hi])] at h
    rw [nextHead_of_item (takeHead_append_of_item ht c), if_neg (by simp [hi])]
    simp only [Prod.mk.injEq] at h ⊢
    exact ⟨h.1, h.2.1, by rw [h.2.2]⟩

theorem nextHead_append_of_fail {s s' : Incoming} {b rest : Bytes} {e : DecodeError}
    (h : s.nextHead b = (.fail e, s', rest)) (c : Bytes) :
    ∃ e' s'' rest', s.nextHead (b ++ c) = (.fail e', s'', rest') ∧
      (e = e' ∨ e.isHeadTooLarge = true) := by
  induction s, b using nextHead_induct with
  | need s b kept rest' ht =>
    rw [nextHead_of_need ht] at h
    simp at h
  | fail s b e' ht =>
    obtain ⟨s'', rest', h'⟩ := nextHead_of_fail ht
    obtain rfl : e' = e := by
      rw [h'] at h
      simpa using (congrArg Prod.fst h)
    obtain ⟨e2, h2, he⟩ := takeHead_append_of_fail ht c
    obtain ⟨s3, rest3, h3⟩ := nextHead_of_fail h2
    exact ⟨e2, s3, rest3, h3, he⟩
  | interim s b rest' kept head ht hi ih =>
    rw [nextHead_of_item ht, if_pos hi] at h
    rw [nextHead_of_item (takeHead_append_of_item ht c), if_pos hi]
    exact ih h
  | final s b rest' kept head ht hi =>
    rw [nextHead_of_item ht, if_neg (by simp [hi])] at h
    simp at h

/-! ### The search and what stands in front -/

/-- The heads that are passed over are interim heads of the stream. -/
theorem heads_of_need {s s' : Incoming} {b rest c tail : Bytes} {response : Response}
    {framing : Framing} (h : s.nextHead b = (.need, s', rest))
    (hc : Heads s.toHead (b ++ c) response framing tail) :
    Heads s.toHead (rest ++ c) response framing tail := by
  induction s, b using nextHead_induct with
  | need s b kept rest' ht =>
    rw [nextHead_of_need ht] at h
    obtain ⟨rfl, rfl⟩ : s = s' ∧ b = rest := by simpa using h
    exact hc
  | fail s b e ht =>
    obtain ⟨s'', rest', h'⟩ := nextHead_of_fail ht
    rw [h'] at h
    simp at h
  | interim s b rest' kept head ht hi ih =>
    rw [nextHead_of_item ht, if_pos hi] at h
    obtain ⟨-, -, p, rfl, hp⟩ := takeHead_eq_item_iff.mp ht
    rw [List.append_assoc] at hc
    rcases hc.behind hp with ⟨-, hrest⟩ | ⟨hi', -⟩
    · exact ih h hrest
    · rw [hi] at hi'
      simp at hi'
  | final s b rest' kept head ht hi =>
    rw [nextHead_of_item ht, if_neg (by simp [hi])] at h
    simp at h

/-- The head that is found is the final head of the stream, and all of the
stream behind it is left. -/
theorem heads_of_item {s s' : Incoming} {b rest c tail : Bytes} {response : Response}
    {framing : Framing} {event : Event} (h : s.nextHead b = (.item event, s', rest))
    (hc : Heads s.toHead (b ++ c) response framing tail) :
    event = .head response framing ∧ tail = rest ++ c ∧
      s' = { s with body := some (BodyDecoder.ofFraming s.chunkLimit framing) } := by
  induction s, b using nextHead_induct with
  | need s b kept rest' ht =>
    rw [nextHead_of_need ht] at h
    simp at h
  | fail s b e ht =>
    obtain ⟨s'', rest', h'⟩ := nextHead_of_fail ht
    rw [h'] at h
    simp at h
  | interim s b rest' kept head ht hi ih =>
    rw [nextHead_of_item ht, if_pos hi] at h
    obtain ⟨-, -, p, rfl, hp⟩ := takeHead_eq_item_iff.mp ht
    rw [List.append_assoc] at hc
    rcases hc.behind hp with ⟨-, hrest⟩ | ⟨hi', -⟩
    · exact ih h hrest
    · rw [hi] at hi'
      simp at hi'
  | final s b rest' kept head ht hi =>
    rw [nextHead_of_item ht, if_neg (by simp [hi])] at h
    obtain ⟨-, -, p, rfl, hp⟩ := takeHead_eq_item_iff.mp ht
    simp only [Prod.mk.injEq, Progress.item.injEq] at h
    obtain ⟨rfl, rfl, rfl⟩ := h
    rw [List.append_assoc] at hc
    rcases hc.behind hp with ⟨hi', -⟩ | ⟨-, rfl, rfl, rfl⟩
    · rw [hi] at hi'
      simp at hi'
    · exact ⟨rfl, rfl, rfl⟩

end Incoming
end Http1Client
