/-
# What is left of a head that fails

The bytes that a reader has when it fails are interim heads that it passed over
and, behind them, the head that it was reading (`Incoming.fail_of_next`,
`Receiver.fault_of_pollHead`). What is kept of that head is read off its own
bytes.

Behind a status line the response is kept as far as it was read, with its fields
where all of them were (`Salvages`). One head is given up without that: one that
has not ended within its bounds, of which nothing is kept (`takeHead_salvages`).
Where the status line itself is broken there is nothing to keep. But a version
and a code in front of the fault are kept as a response, and a complete head
whose code is no status leaves what was kept before (`takeHead_forgets`).

Key definitions: `Response.ofStatusLine`, `Salvages`, `Forgets`, `Interims`.
Key theorems: `takeHead_salvages`, `takeHead_forgets`, `Incoming.fail_of_next`,
`Receiver.fault_of_pollHead`.
-/
import Http1Client.Proofs.Head.StatusLine
import Http1Client.Proofs.Reception

namespace Http1Client

open Head Arrival

/-- The response that a status line begins. -/
def Response.ofStatusLine (version : Version) (status : StatusCode) (reason : Bytes) :
    Response where
  status := some status
  reason := Bytes.toText (Bytes.trim reason)
  version := version

theorem StatusCode.ofNat?_code (status : StatusCode) :
    StatusCode.ofNat? status.code = some status := by
  rw [StatusCode.ofNat?, dif_pos ⟨status.lower, status.upper⟩]

theorem Head.StatusLine.response?_status (version : Version) (status : StatusCode)
    (reason : Bytes) : StatusLine.response? { version, code := status.code, reason } =
      some (.ofStatusLine version status reason) := by
  rw [StatusLine.response?, StatusCode.ofNat?_code]
  rfl

/-! ### Behind a status line -/

/-- What is kept of a head that fails behind its status line, which begins the
response `bare`: `behind` is what stands behind the status line, and `before` was
kept before. -/
inductive Salvages (bare : Response) (cur behind : Bytes) (before : Option Response) :
    DecodeError → Option Response → Prop where
  | field {fault : HeadFault} : scanFields fieldLimit behind = .bad fault →
      Salvages bare cur behind before fault.toError (some bare)
  | size {fields : List (FieldName × FieldValue)} {rest : Bytes} :
      scanFields fieldLimit behind = .found fields rest →
      sizeLimit < cur.length - rest.length →
      Salvages bare cur behind before (.headTooLarge (cur.length - rest.length) sizeLimit)
        (some bare)
  | length {fields : List (FieldName × FieldValue)} {rest : Bytes} {fault : LengthFault} :
      scanFields fieldLimit behind = .found fields rest →
      Salvages bare cur behind before (.badLength fault)
        (some { bare with fields := .ofList fields })
  /-- The head has not ended, and has too many bytes. -/
  | unended : scanFields fieldLimit behind = .short → sizeLimit < cur.length →
      Salvages bare cur behind before (.headTooLarge cur.length sizeLimit) before

variable {toHead : Bool} {before kept : Option Response} {cur rest : Bytes} {e : DecodeError}

/-- A head that fails behind its status line keeps the response as far as it
was read, unless it is given up before it ends. -/
theorem takeHead_salvages (h : takeHead toHead before cur = ⟨.fail e, kept, rest⟩)
    {p behind reason : Bytes} {version : Version} {status : StatusCode} (hcur : cur = p ++ behind)
    (hp : IsStatusLine p version status.code reason) :
    Salvages (.ofStatusLine version status reason) cur behind before e kept := by
  have hscan := scanHead_of_isStatusLine hp behind
  have hbare := StatusLine.response?_status version status reason
  rw [← hcur] at hscan
  unfold takeHead at h
  split at h
  · cases h
  · rw [hscan, scanSection] at h
    cases hfields : scanFields fieldLimit behind with
    | short =>
      simp only [hfields] at h
      split at h
      · cases h
      · next hsize =>
        cases h
        exact .unended hfields (by omega)
    | bad fault =>
      simp only [hfields] at h
      cases h
      rw [Option.bind_some, hbare]
      exact .field hfields
    | found fields rest' =>
      simp only [hfields, hbare] at h
      split at h
      · unfold frameHead at h
        split at h
        · cases h
          exact .length hfields
        · cases h
      · next hsize =>
        cases h
        exact .size hfields (by omega)

/-! ### Up to the status line -/

/-- What is kept where the status line is broken. -/
structure Forgets (cur : Bytes) (before kept : Option Response) : Prop where
  /-- Nothing, where there is no code. -/
  unopened : (∀ p behind version code, cur = p ++ behind → ¬ IsOpening p version code) →
    kept = none
  /-- The version and the status, where these stand in front of the fault. -/
  opened : ∀ p behind version (status : StatusCode), cur = p ++ behind →
    IsOpening p version status.code → kept = some (.ofStatusLine version status [])
  /-- Where the code is no status, nothing, or what was kept before if the head
  is complete. -/
  unstated : ∀ p behind version code, cur = p ++ behind → IsOpening p version code → code < 100 →
    kept = none ∨ kept = before ∧ ∃ line fields rest, scanHead cur = .complete line fields rest

/-- One opening at most stands in front. -/
theorem Head.IsOpening.unique {p p' behind behind' : Bytes} {version version' : Version}
    {code code' : Nat} (h : IsOpening p version code) (h' : IsOpening p' version' code')
    (heq : p ++ behind = p' ++ behind') : version = version' ∧ code = code' := by
  have h1 := scanOpening_eq_found_iff.mpr ⟨p, heq.symm, h⟩
  have h2 : scanOpening (p' ++ behind') = .found (version', code') behind' :=
    scanOpening_eq_found_iff.mpr ⟨p', rfl, h'⟩
  rw [h1] at h2
  cases h2
  exact ⟨rfl, rfl⟩

theorem isStatusLine_of_toError {fault : HeadFault} {words : String}
    (h : fault.toError = .badStatusLine words) : fault.isStatusLine = true := by
  cases fault <;> first | rfl | cases h

theorem StatusLine.response?_eq_none {line : Head.StatusLine} (h : line.response? = none)
    (status : StatusCode) : line.code ≠ status.code := by
  intro hcode
  rw [StatusLine.response?, hcode, StatusCode.ofNat?_code] at h
  cases h

/-- The code of a complete head is that of its opening. -/
theorem code_of_complete {line : Head.StatusLine} {fields : List (FieldName × FieldValue)}
    (h : scanHead cur = .complete line fields rest) : ∃ p behind, cur = p ++ behind ∧
      IsOpening p line.version line.code := by
  obtain ⟨p, said, behind, hcur, hp, -, -⟩ := exists_of_complete h
  exact ⟨p, said ++ behind, hcur, hp⟩

/-- Behind an opening it is enough to know what is kept for its code. -/
theorem Forgets.of_opening {p behind : Bytes} {version : Version} {code : Nat}
    (hcur : cur = p ++ behind) (hp : IsOpening p version code)
    (hopened : ∀ status : StatusCode, code = status.code →
      kept = some (.ofStatusLine version status []))
    (hunstated : code < 100 →
      kept = none ∨ kept = before ∧ ∃ line fields rest, scanHead cur = .complete line fields rest) :
    Forgets cur before kept where
  unopened hnone := absurd hp (hnone p behind version code hcur)
  opened p' behind' version' status hcur' hp' := by
    obtain ⟨rfl, hcode⟩ := hp.unique hp' (hcur.symm.trans hcur')
    exact hopened status hcode
  unstated p' behind' version' code' hcur' hp' hlt := by
    obtain ⟨-, rfl⟩ := hp.unique hp' (hcur.symm.trans hcur')
    exact hunstated hlt

/-- A head that fails at its status line keeps the version and the status
that stand in front of the fault, and nothing of a head that has none. -/
theorem takeHead_forgets {words : String}
    (h : takeHead toHead before cur = ⟨.fail (.badStatusLine words), kept, rest⟩) :
    Forgets cur before kept := by
  unfold takeHead at h
  split at h
  · cases h
  · split at h
    · split at h <;> cases h
    · next fault line hscan =>
      simp only [HeadTaken.mk.injEq, Progress.fail.injEq] at h
      obtain ⟨he, rfl, -⟩ := h
      rcases scanHead_fault hscan (isStatusLine_of_toError he) with
        ⟨rfl, hnone⟩ | ⟨version, code, behind, hfound, rfl⟩
      · have hopen : ∀ p behind version code, cur = p ++ behind → ¬ IsOpening p version code :=
          fun p behind version code hcur hp =>
            hnone _ _ (scanOpening_eq_found_iff.mpr ⟨p, hcur, hp⟩)
        exact ⟨fun _ => rfl, fun p b v s hcur hp => absurd hp (hopen p b v _ hcur),
          fun p b v n hcur hp => absurd hp (hopen p b v n hcur)⟩
      · obtain ⟨p, hcur, hp⟩ := scanOpening_eq_found_iff.mp hfound
        refine .of_opening hcur hp ?_ fun hlt => .inl ?_
        · rintro status rfl
          exact StatusLine.response?_status version status []
        · have hno : StatusCode.ofNat? code = none := dif_neg (by omega)
          rw [Option.bind_some, StatusLine.response?, hno]
          rfl
    · next line fields rest' hscan =>
      obtain ⟨p, behind, hcur, hp⟩ := code_of_complete hscan
      split at h
      · next hnone =>
        simp only [HeadTaken.mk.injEq, Progress.fail.injEq] at h
        obtain ⟨-, rfl, -⟩ := h
        exact .of_opening hcur hp
          (fun status hcode => absurd hcode (StatusLine.response?_eq_none hnone status))
          fun _ => .inr ⟨rfl, line, fields, rest', hscan⟩
      · split at h
        · unfold frameHead at h
          split at h <;> cases h
        · cases h

/-! ### The head that is being read -/

/-- The bytes are interim heads, one behind the other. -/
inductive Interims : Bytes → Prop where
  | none : Interims []
  | head {toHead : Bool} {p b : Bytes} {response : Response} {framing : Framing} :
      IsHead toHead p response framing → response.isInterim = true → Interims b →
      Interims (p ++ b)

/-- The bytes `b` are interim heads, `seen`, and behind them those of a head at
which the taking of heads fails: `before` was kept before, and `kept` is then. -/
structure BreaksAt (toHead : Bool) (before : Option Response) (b seen cur : Bytes)
    (e : DecodeError) (kept : Option Response) : Prop where
  interims : Interims seen
  split : b = seen ++ cur
  fails : ∃ rest, takeHead toHead before cur = ⟨.fail e, kept, rest⟩

theorem Interims.append {b c : Bytes} (h : Interims b) (hc : Interims c) : Interims (b ++ c) := by
  induction h with
  | none => exact hc
  | head hp hi _ ih =>
    rw [List.append_assoc]
    exact .head hp hi ih

/-- An interim response has no body. -/
theorem Response.framing_of_isInterim {response : Response} (h : response.isInterim = true)
    (toHead : Bool) : response.framing toHead = .ok .empty := by
  have hbodiless : response.isBodiless toHead = true := by
    unfold isInterim at h
    unfold isBodiless
    cases hs : response.status with
    | none => simp [hs] at h
    | some s =>
      simp only [hs, Option.any_some, StatusCode.isInterim, Bool.and_eq_true] at h
      simp [StatusCode.isBodiless, h.1]
  rw [framing, if_pos hbodiless]

/-- So an interim head is one whatever it answers. -/
theorem IsHead.of_isInterim {p : Bytes} {response : Response} {framing : Framing}
    (h : IsHead toHead p response framing) (hi : response.isInterim = true) (toHead' : Bool) :
    IsHead toHead' p response .empty := by
  obtain ⟨line, fields, bare, h1, h2, h3, -, h5⟩ := h
  exact ⟨line, fields, bare, h1, h2, h3, Response.framing_of_isInterim hi toHead', h5⟩

/-- No head stands where the taking of a head fails. -/
theorem not_isHead_of_fail (h : takeHead toHead before cur = ⟨.fail e, kept, rest⟩)
    {p b : Bytes} {response : Response} {framing : Framing} (hcur : cur = p ++ b) :
    ¬ IsHead toHead p response framing := by
  intro hp
  have hlong : leastSize ≤ cur.length := by
    unfold takeHead at h
    split at h
    · cases h
    · next hshort => exact Bytes.isShorter_eq_false.mp (by simpa using hshort)
  have htake : takeHead toHead before cur = ⟨.item (response, framing), before, b⟩ :=
    takeHead_eq_item_iff.mpr ⟨hlong, rfl, p, hcur, hp⟩
  rw [h] at htake
  cases htake

/-- The bytes break at one place only. -/
theorem BreaksAt.unique {b seen seen' cur cur' : Bytes} {e e' : DecodeError}
    {kept kept' : Option Response} (h : BreaksAt toHead before b seen cur e kept)
    (h' : BreaksAt toHead before b seen' cur' e' kept') : seen = seen' ∧ cur = cur' := by
  obtain ⟨hseen, rfl, rest, hfail⟩ := h
  obtain ⟨hseen', heq, rest', hfail'⟩ := h'
  induction hseen generalizing seen' with
  | none =>
    cases hseen' with
    | none => exact ⟨rfl, heq⟩
    | head hp hi _ =>
      rw [List.nil_append, List.append_assoc] at heq
      exact absurd (hp.of_isInterim hi toHead) (not_isHead_of_fail hfail heq)
  | head hp hi _ ih =>
    cases hseen' with
    | none =>
      rw [List.nil_append, List.append_assoc] at heq
      exact absurd (hp.of_isInterim hi toHead) (not_isHead_of_fail hfail' heq.symm)
    | head hp' hi' hseen' =>
      rw [List.append_assoc, List.append_assoc] at heq
      obtain ⟨-, -, hbehind⟩ := (hp.of_isInterim hi toHead).unique (hp'.of_isInterim hi' toHead) heq
      obtain ⟨rfl, rfl⟩ := ih hseen' hbehind
      exact ⟨by simpa using heq, rfl⟩

namespace Incoming

variable {s s' : Incoming} {b : Bytes}

/-- Where more bytes are needed, the heads passed over were interim heads. -/
theorem interims_of_need (h : s.nextHead b = (.need, s', rest)) :
    ∃ seen, Interims seen ∧ b = seen ++ rest := by
  induction s, b using nextHead_induct with
  | need s b kept rest' ht =>
    rw [nextHead_of_need ht] at h
    cases h
    exact ⟨[], .none, rfl⟩
  | fail s b e ht =>
    obtain ⟨s'', rest', h'⟩ := nextHead_of_fail ht
    rw [h'] at h
    cases h
  | interim s b rest' kept head ht hi ih =>
    rw [nextHead_of_item ht, if_pos hi] at h
    obtain ⟨-, -, p, rfl, hp⟩ := takeHead_eq_item_iff.mp ht
    obtain ⟨seen, hseen, rfl⟩ := ih h
    exact ⟨p ++ seen, .head hp hi hseen, (List.append_assoc ..).symm⟩
  | final s b rest' kept head ht hi =>
    rw [nextHead_of_item ht, if_neg (by simp [hi])] at h
    cases h

/-- Where the first head fails, the search fails so. -/
theorem nextHead_eq_fail {kept : Option Response}
    (h : takeHead s.toHead s.salvaged b = ⟨.fail e, kept, rest⟩) :
    s.nextHead b = (.fail e, { s with salvaged := kept }, rest) := by
  rw [nextHead]
  split
  · next h' =>
    rw [h] at h'
    cases h'
  · next h' =>
    rw [h] at h'
    cases h'
    rfl
  · next h' =>
    rw [h] at h'
    cases h'

/-- The search fails at the head behind interim heads, as that head fails. -/
theorem fail_of_nextHead (h : s.nextHead b = (.fail e, s', rest)) :
    ∃ seen cur, BreaksAt s.toHead s.salvaged b seen cur e s'.salvaged := by
  induction s, b using nextHead_induct with
  | need s b kept rest' ht =>
    rw [nextHead_of_need ht] at h
    cases h
  | fail s b e' ht =>
    obtain ⟨kept, rest', htake⟩ : ∃ kept rest',
        takeHead s.toHead s.salvaged b = ⟨.fail e', kept, rest'⟩ := by
      rw [← ht]
      exact ⟨_, _, rfl⟩
    rw [nextHead_eq_fail htake] at h
    cases h
    exact ⟨[], b, .none, rfl, _, htake⟩
  | interim s b rest' kept head ht hi ih =>
    rw [nextHead_of_item ht, if_pos hi] at h
    obtain ⟨-, -, p, rfl, hp⟩ := takeHead_eq_item_iff.mp ht
    obtain ⟨seen, cur, hseen, rfl, hcur⟩ := ih h
    exact ⟨p ++ seen, cur, .head hp hi hseen, (List.append_assoc ..).symm, hcur⟩
  | final s b rest' kept head ht hi =>
    rw [nextHead_of_item ht, if_neg (by simp [hi])] at h
    cases h

/-- A reader before the head fails at the head that it is reading, unless the
end of the stream cuts that head short. -/
theorem fail_of_next (hbody : s.body = none) (he : e.isIo = false)
    (h : s.next b = (.fail e, s', rest) ∨ s.nextEnd b = (.fail e, s', rest)) :
    ∃ seen cur, BreaksAt s.toHead s.salvaged b seen cur e s'.takeSalvaged.1 := by
  rcases h with h | h
  · rw [next_of_no_body hbody] at h
    exact fail_of_nextHead h
  · rw [nextEnd, hbody] at h
    dsimp only at h
    split at h
    · cases h
      cases he
    · exact fail_of_nextHead h

end Incoming

/-- What a fault of a head leaves is what the bytes leave that were there or
were read. -/
theorem Receiver.fault_of_pollHead {r r' : Receiver} {w w' : Wire} (h : r.BeforeHead toHead)
    (hr : r.pollHead w = (.ready (.error e), r', w')) (he : e.isIo = false) :
    ∃ y, Gives w.arriving y w'.arriving ∧
      r.incoming.nextHead (r.buffer ++ y) = (.fail e, r'.incoming, r'.buffer) := by
  obtain ⟨-, hb, -, hroom⟩ := h
  fun_induction pollHead r w with
  | case1 r w response framing s rest hn => cases hr
  | case2 r w piece s rest hn =>
    rw [Incoming.next_of_no_body hb] at hn
    exact absurd (congrArg Prod.fst hn) (Incoming.nextHead_ne_piece _ _ _)
  | case3 r w e' s rest hn =>
    cases hr
    rw [Incoming.next_of_no_body hb] at hn
    exact ⟨[], Gives.refl _, by rwa [List.append_nil]⟩
  | case4 r w s rest hn again w₁ hread => cases hr
  | case5 r w s rest hn e' w₁ hread =>
    cases hr
    cases he
  | case6 r w s rest hn w₁ hread result r₁ hend =>
    cases hr
    obtain ⟨rfl, hn', hrest⟩ := need_of_next hb hn
    obtain ⟨words, hcut⟩ := headAtEnd_of_need (r := { r with buffer := rest }) hb hrest
    rw [hcut] at hend
    cases hend
    cases he
  | case7 r w s rest hn x xs w₁ hread ih =>
    obtain ⟨rfl, hn', -⟩ := need_of_next hb hn
    rw [List.append_nil] at hn'
    cases Wire.handed_read hroom hread with
    | bytes hg =>
      obtain ⟨y, hg', hfail⟩ := ih hr hb hroom
      refine ⟨x :: xs ++ y, hg.trans hg', ?_⟩
      rw [(Incoming.nextHead_append_of_need hn' (x :: xs ++ y)).2.1, ← List.append_assoc]
      exact hfail

end Http1Client
