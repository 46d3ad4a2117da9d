/-
# The framing a head announces

A head tells the reader where its body ends: by a length, or by a transfer
encoding that mentions `chunked`. `Framing.IsAnnounced` says that the lines of
a block announce one framing and no other.

Of the lengths, a head announces what its body encoder goes by, whatever length
fields the caller gave, and none before a chunked body. A transfer encoding of
the caller's is left in the head. So the framing is announced alone unless a
caller's transfer encoding says `chunked` and another framing is asked for
(`Outgoing.announced_pushHead`); then both stand in the head
(`Outgoing.announced_twice`).

Key definitions: `Bytes.lengthValues`, `Bytes.mentionsChunked`,
`Framing.IsAnnounced`.
Key theorems: `RequestHead.lengthValues_announce`,
`RequestHead.mentionsChunked_announce`, `Outgoing.announced_pushHead`.
-/
import Http1Client.Sender
import Http1Client.Proofs.Head.FieldLines
import Http1Client.Proofs.Head.Printing

namespace Http1Client

namespace Bytes

/-- The lengths that the lines of a block declare. -/
def lengthValues (block : Bytes) : List Bytes := valuesIn FieldName.contentLength.bytes block

/-- Does a transfer encoding in the lines of a block mention `chunked`? -/
def mentionsChunked (block : Bytes) : Bool :=
  (valuesIn FieldName.transferEncoding.bytes block).any (mentions (ofText "chunked"))

end Bytes

namespace Framing

/-- The lengths that are declared for a body that is framed so. -/
def lengths : Framing → List Bytes
  | length n => [Numeral.decimal n]
  | empty => [Numeral.decimal 0]
  | _ => []

/-- The lines of a block announce this framing and no other. -/
def IsAnnounced (block : Bytes) : Framing → Prop
  | length n => block.lengthValues = [Numeral.decimal n] ∧ block.mentionsChunked = false
  | chunked => block.lengthValues = [] ∧ block.mentionsChunked = true
  | untilClose => False
  | empty => block.lengthValues = [Numeral.decimal 0] ∧ block.mentionsChunked = false

/-- A request body is announced by its lengths, and by whether its head mentions
`chunked`. -/
theorem isAnnounced_iff {f : Framing} {e : BodyEncoder} {block : Bytes}
    (he : BodyEncoder.ofFraming f = .ok e) :
    f.IsAnnounced block ↔ block.lengthValues = f.lengths ∧ block.mentionsChunked = f.isChunked := by
  cases f with
  | untilClose => cases he
  | _ => exact Iff.rfl

end Framing

namespace RequestHead

variable {h : RequestHead} {f : Fields}

theorem transferEncoding_ne_host : FieldName.transferEncoding ≠ .host := by decide

theorem transferEncoding_ne_contentLength :
    FieldName.transferEncoding ≠ .contentLength := by decide

theorem distinct_announce (hf : f.Distinct) (framing : Framing) :
    (h.announce f framing).Distinct := by
  cases framing with
  | length n => exact hf.insert _ _
  | chunked =>
    rw [RequestHead.announce]
    split
    · exact hf.remove _
    · exact (hf.insert _ _).remove _
  | untilClose => exact hf
  | empty => exact hf.insert _ _

/-- The lengths declared are those of the framing, whatever lengths the
caller gave. -/
theorem lengthValues_announce {framing : Framing} {e : BodyEncoder} (hf : f.Distinct)
    (he : BodyEncoder.ofFraming framing = .ok e) :
    (printFields (h.announce f framing)).lengthValues = framing.lengths := by
  have hvalues := valuesIn_printFields (distinct_announce (h := h) hf framing) .contentLength
  rw [Bytes.lengthValues, hvalues]
  cases framing with
  | length n =>
    rw [RequestHead.announce, Fields.values_insert_self]
    rfl
  | chunked =>
    have hnone : (h.announce f .chunked).values .contentLength = [] := by
      rw [RequestHead.announce]
      split
      · exact Fields.values_remove_self hf _
      · exact Fields.values_remove_self (hf.insert _ _) _
    rw [hnone]
    rfl
  | untilClose => cases he
  | empty =>
    rw [RequestHead.announce, Fields.values_insert_self]
    rfl

/-- A head mentions `chunked` where its body is chunked, and where the caller's
transfer encoding does. -/
theorem mentionsChunked_announce (hf : f.Distinct)
    (hsame : f.values .transferEncoding = h.fields.values .transferEncoding) (framing : Framing) :
    (printFields (h.announce f framing)).mentionsChunked = (framing.isChunked || h.isChunked) := by
  have hvalues := valuesIn_printFields (distinct_announce (h := h) hf framing) .transferEncoding
  have hmention : ∀ vs : List FieldValue, (vs.map FieldValue.bytes).any
      (Bytes.mentions (Bytes.ofText "chunked")) = vs.any (FieldValue.mentions "chunked") := by
    intro vs
    rw [List.any_map]
    rfl
  have hcaller : (f.values .transferEncoding).any (FieldValue.mentions "chunked") = h.isChunked := by
    rw [hsame]
    rfl
  have hne := transferEncoding_ne_contentLength
  rw [Bytes.mentionsChunked, hvalues, hmention]
  cases framing with
  | length n => rw [RequestHead.announce, Fields.values_insert_ne f hne, hcaller]; rfl
  | chunked =>
    rw [RequestHead.announce]
    by_cases hchunked : h.isChunked = true
    · rw [if_pos hchunked, Fields.values_remove_ne hf hne, hcaller, hchunked]
      rfl
    · have hgiven : (FieldValue.mentions "chunked" .chunked) = true := by decide
      rw [if_neg hchunked, Fields.values_remove_ne (hf.insert _ _) hne, Fields.values_insert_self,
        List.any_cons, hgiven]
      rfl
  | untilClose => exact hcaller
  | empty => rw [RequestHead.announce, Fields.values_insert_ne f hne, hcaller]; rfl

/-- What a head that can be printed goes out as. -/
theorem eq_of_print {framing : Framing} {bytes : Bytes} (hprint : h.print framing = .ok bytes) :
    ∃ host value, h.uri.host = some host ∧ FieldValue.ofBytes? (Bytes.utf8 host) = some value ∧
      bytes = h.requestLine ++ printFields (h.announce (h.fields.insert .host value) framing) := by
  unfold print at hprint
  split at hprint
  · cases hprint
  · next host hhost =>
    split at hprint
    · cases hprint
    · next value hvalue =>
      split at hprint
      · cases hprint
        exact ⟨host, value, hhost, hvalue, rfl⟩
      · cases hprint

/-- What the block of a printed head announces. -/
theorem announced_of_print {framing : Framing} {e : BodyEncoder} {bytes : Bytes}
    (hdistinct : h.fields.Distinct) (he : BodyEncoder.ofFraming framing = .ok e)
    (hprint : h.print framing = .ok bytes) : ∃ block, bytes = h.requestLine ++ block ∧
      block.lengthValues = framing.lengths ∧
      block.mentionsChunked = (framing.isChunked || h.isChunked) := by
  obtain ⟨-, value, -, -, rfl⟩ := eq_of_print hprint
  have hf : (h.fields.insert .host value).Distinct := hdistinct.insert _ _
  have hsame := Fields.values_insert_ne h.fields transferEncoding_ne_host value
  exact ⟨_, rfl, lengthValues_announce hf he, mentionsChunked_announce hf hsame framing⟩

theorem isChunked_framing (h : RequestHead) (n : Nat) : (h.framing n).isChunked = h.isChunked := by
  unfold framing
  by_cases hchunked : h.isChunked = true
  · rw [if_pos hchunked, hchunked]
    rfl
  · rw [if_neg hchunked, Bool.eq_false_iff.mpr hchunked]
    rfl

/-- The fields of a head that was built have each name once. -/
theorem distinct_of_build {q : Request} {method body : Bytes} {uri : String} {version : Version}
    {fields : List (Bytes × Bytes)} (h : Request.build method uri version fields body = .ok q) :
    q.head.fields.Distinct := by
  unfold Request.build at h
  split at h
  · cases h
  · cases h
  · cases h
  · next hbuild =>
    cases h
    unfold Fields.build at hbuild
    cases hchecked : fields.mapM Fields.check with
    | error e => simp [hchecked, Except.map] at hbuild
    | ok fs =>
      rw [hchecked] at hbuild
      cases hbuild
      exact Fields.distinct_ofList fs

end RequestHead

namespace Outgoing

/-- What it takes that a head is not refused. -/
theorem pushHead_eq_ok {o o' : Outgoing} {h : RequestHead} {framing : Framing} {bytes : Bytes}
    (hpush : o.pushHead h framing = (.ok bytes, o')) : ∃ e, h.print framing = .ok bytes ∧
      BodyEncoder.ofFraming framing = .ok e ∧ o'.body = some e := by
  unfold pushHead at hpush
  split at hpush
  · cases hpush
  · split at hpush
    · cases hpush
    · next e he =>
      split at hpush
      · cases hpush
      · next hprint =>
        cases hpush
        exact ⟨e, hprint, he, rfl⟩

/-- **The framing that is used is announced**, before whatever body a head is
not refused: the encoder that its body goes through is the one of the framing,
the lengths in its lines are those of the framing, and a transfer encoding in
them mentions `chunked` if the body is chunked. No other framing is announced
unless the caller's own transfer encoding says `chunked` where the framing is
another one, and that is never so for the framing that the head says. -/
theorem announced_pushHead {o o' : Outgoing} {h : RequestHead} {framing : Framing} {bytes : Bytes}
    (hdistinct : h.fields.Distinct) (hpush : o.pushHead h framing = (.ok bytes, o')) :
    (∀ s : Sender, s.outgoing = o →
      s.putHead h framing = (.ok (), { s with buffer := s.buffer ++ bytes, outgoing := o' })) ∧
    ∃ block e, bytes = h.requestLine ++ block ∧
      BodyEncoder.ofFraming framing = .ok e ∧ o'.body = some e ∧
      block.lengthValues = framing.lengths ∧
      block.mentionsChunked = (framing.isChunked || h.isChunked) ∧
      (framing.IsAnnounced block ↔ (h.isChunked = true → framing.isChunked = true)) ∧
      ∀ n, framing = h.framing n → framing.IsAnnounced block := by
  obtain ⟨e, hprint, he, hbody⟩ := pushHead_eq_ok hpush
  obtain ⟨block, hbytes, hlengths, hmention⟩ := RequestHead.announced_of_print hdistinct he hprint
  have hiff : framing.IsAnnounced block ↔ (h.isChunked = true → framing.isChunked = true) := by
    rw [Framing.isAnnounced_iff he, hmention]
    cases framing.isChunked <;> cases h.isChunked <;> simp [hlengths]
  refine ⟨fun s hs => ?_, block, e, hbytes, he, hbody, hlengths, hmention, hiff, fun n hn => ?_⟩
  · rw [Sender.putHead, hs, hpush]
  · rw [hiff, hn, RequestHead.isChunked_framing]
    exact id

/-- A head of which the caller gave both framings, in other letter cases. -/
def mixedHead : RequestHead where
  method := ⟨Bytes.ofText "POST", by decide +kernel, by decide +kernel⟩
  uri := { authority := some ['a'] }
  fields := .ofList [(.contentLength, .ofNat 10), (.contentLength, .ofNat 7),
    (.transferEncoding, ⟨Bytes.ofText "gzip", by decide +kernel⟩),
    (.transferEncoding, ⟨Bytes.ofText "Chunked", by decide +kernel⟩)]

theorem pushHead_mixedHead (framing : Framing) {e : BodyEncoder}
    (he : BodyEncoder.ofFraming framing = .ok e) :
    ∃ bytes, mixedHead.print framing = .ok bytes ∧
      pushHead {} mixedHead framing = (.ok bytes, { body := some e }) := by
  obtain ⟨value, hvalue⟩ : ∃ value, FieldValue.ofBytes? (Bytes.utf8 ['a']) = some value :=
    Option.isSome_iff_exists.mp (by decide +kernel)
  have hprint := RequestHead.print_of_host (h := mixedHead) rfl hvalue rfl framing
  exact ⟨_, hprint, by rw [pushHead, he, hprint]⟩

theorem announced_pushHead_mixedHead : ∃ block o',
    pushHead {} mixedHead .chunked = (.ok (mixedHead.requestLine ++ block), o') ∧
      o'.body = some (.chunked false) ∧ Framing.chunked.IsAnnounced block := by
  obtain ⟨bytes, -, hpush⟩ := pushHead_mixedHead .chunked rfl
  obtain ⟨-, block, e, rfl, -, -, -, -, hiff, -⟩ :=
    announced_pushHead (Fields.distinct_ofList _) hpush
  exact ⟨block, _, hpush, rfl, hiff.mpr fun _ => rfl⟩

/-- Where the caller's transfer encoding says `chunked`, a head is taken with a
length too, and both are announced. -/
theorem announced_twice : ∃ block o',
    mixedHead.fields.Distinct ∧
      pushHead {} mixedHead (.length 5) = (.ok (mixedHead.requestLine ++ block), o') ∧
      o'.body = some (.length 5) ∧ block.lengthValues = [Numeral.decimal 5] ∧
      block.mentionsChunked = true ∧ ¬ (Framing.length 5).IsAnnounced block := by
  have hdistinct : mixedHead.fields.Distinct := Fields.distinct_ofList _
  have he : BodyEncoder.ofFraming (.length 5) = .ok (.length 5) := rfl
  obtain ⟨bytes, hprint, hpush⟩ := pushHead_mixedHead (.length 5) he
  obtain ⟨block, rfl, hlengths, hmention⟩ := RequestHead.announced_of_print hdistinct he hprint
  have hboth : block.mentionsChunked = true := by
    rw [hmention]
    decide +kernel
  refine ⟨block, _, hdistinct, hpush, rfl, hlengths, hboth, fun hannounced => ?_⟩
  have hnone : block.mentionsChunked = false := hannounced.2
  rw [hboth] at hnone
  cases hnone

end Outgoing
end Http1Client
