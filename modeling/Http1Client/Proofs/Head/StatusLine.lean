/-
# Which bytes are a status line

A status line is empty lines, a version, a space, three digits, and behind them
a line end, or a space, a reason and a line end. `IsOpening` is its part up to
the code and `IsStatusLine` all of it. The scans of a head find these in front
of the bytes, and nothing else (`scanOpening_eq_found_iff`,
`scanReason_eq_found_iff`), so behind a status line a scan of a head goes on
with the fields (`scanHead_of_isStatusLine`).

A fault up to the code leaves no status line, a fault behind it the version and
the code, and no fault of the fields is one of the status line.

Key definitions: `IsLineEnd`, `IsOpening`, `IsReason`, `IsStatusLine`.
Key theorems: `scanOpening_eq_found_iff`, `scanReason_eq_found_iff`,
`scanHead_of_isStatusLine`, `scanHead_fault`.
-/
import Http1Client.Proofs.Head.ReadBack

namespace Http1Client
namespace Head

/-! ### The grammar -/

/-- A line feed, which a carriage return may precede. -/
def IsLineEnd (p : Bytes) : Prop := p = [Bytes.lf] ∨ p = Bytes.crlf

/-- Empty lines, a version, a space and three digits that denote the code. -/
def IsOpening (p : Bytes) (version : Version) (code : Nat) : Prop :=
  ∃ empties : List Bytes, ∃ d1 < 10, ∃ d2 < 10, ∃ d3 < 10, (∀ l ∈ empties, IsLineEnd l) ∧
    (version = .http10 ∨ version = .http11) ∧ code = 100 * d1 + 10 * d2 + d3 ∧
    p = empties.flatten ++ (Bytes.ofText version.text ++
      [32, Numeral.digit d1, Numeral.digit d2, Numeral.digit d3])

/-- What may stand behind the code: a line end, or a space, a reason and a line
end. A reason with a byte outside ASCII is not kept. -/
def IsReason (p reason : Bytes) : Prop :=
  ∃ lineEnd, IsLineEnd lineEnd ∧ (p = lineEnd ∧ reason = [] ∨
    ∃ text, p = 32 :: (text ++ lineEnd) ∧ (∀ x ∈ text, Bytes.isValueByte x = true) ∧
      reason = if text.all (· < 128) then text else [])

/-- A status line with the empty lines in front of it. -/
def IsStatusLine (p : Bytes) (version : Version) (code : Nat) (reason : Bytes) : Prop :=
  ∃ opening behind, p = opening ++ behind ∧ IsOpening opening version code ∧
    IsReason behind reason

/-! ### Scans and grammar -/

variable {b rest : Bytes} {fault : HeadFault}

theorem scanLineEnd_eq_found_iff :
    scanLineEnd fault b = .found () rest ↔ ∃ p, IsLineEnd p ∧ b = p ++ rest := by
  constructor
  · intro h
    unfold scanLineEnd at h
    split at h
    · cases h
    · next x bs =>
      split at h
      · next hx =>
        cases h
        exact ⟨_, .inl rfl, by rw [hx]; rfl⟩
      · split at h
        · next hx =>
          split at h
          · cases h
          · next y bs' =>
            split at h
            · next hy =>
              cases h
              exact ⟨_, .inr rfl, by rw [hx, hy]; rfl⟩
            · cases h
        · cases h
  · rintro ⟨p, rfl | rfl, rfl⟩ <;> rfl

theorem skipEmptyLines_flatten : ∀ {empties : List Bytes}, (∀ l ∈ empties, IsLineEnd l) →
    ∀ b, skipEmptyLines (empties.flatten ++ b) = skipEmptyLines b
  | [], _, _ => rfl
  | l :: ls, h, b => by
    have hrest := skipEmptyLines_flatten (fun l' hl' => h l' (.tail _ hl')) b
    rw [List.flatten_cons, List.append_assoc]
    rcases h l (.head _) with rfl | rfl
    · rw [List.singleton_append, skipEmptyLines.eq_def]
      exact hrest
    · exact hrest

theorem exists_of_skipEmptyLines : ∀ {b rest : Bytes}, skipEmptyLines b = .found () rest →
    ∃ empties : List Bytes, (∀ l ∈ empties, IsLineEnd l) ∧ b = empties.flatten ++ rest
  | [], _, h => by cases h
  | [x], rest, h => by
    rw [skipEmptyLines] at h
    split at h
    · cases h
    · split at h
      · cases h
      · cases h
        exact ⟨[], List.forall_mem_nil _, rfl⟩
  | x :: y :: bs, rest, h => by
    rw [skipEmptyLines] at h
    split at h
    · next hx =>
      obtain ⟨empties, hall, hb⟩ := exists_of_skipEmptyLines h
      refine ⟨[Bytes.lf] :: empties, List.forall_mem_cons.mpr ⟨.inl rfl, hall⟩, ?_⟩
      rw [hb, hx]
      rfl
    · split at h
      · next hx =>
        split at h
        · next hy =>
          obtain ⟨empties, hall, hb⟩ := exists_of_skipEmptyLines h
          refine ⟨Bytes.crlf :: empties, List.forall_mem_cons.mpr ⟨.inr rfl, hall⟩, ?_⟩
          rw [hb, hx, hy]
          rfl
        · cases h
      · cases h
        exact ⟨[], List.forall_mem_nil _, rfl⟩

/-- No version begins with a line end. -/
theorem skipEmptyLines_version {version : Version} (h : version = .http10 ∨ version = .http11)
    (b : Bytes) : skipEmptyLines (Bytes.ofText version.text ++ b) =
      .found () (Bytes.ofText version.text ++ b) := by
  have hold : Bytes.ofText Version.http10.text = 72 :: Bytes.ofText "TTP/1.0" := by decide
  have hnew : Bytes.ofText Version.http11.text = 72 :: Bytes.ofText "TTP/1.1" := by decide
  rcases h with rfl | rfl
  · rw [hold]
    rfl
  · rw [hnew]
    rfl

theorem exists_of_scanVersion {version : Version} (h : scanVersion b = .found version rest) :
    (version = .http10 ∨ version = .http11) ∧ b = Bytes.ofText version.text ++ rest := by
  have hold : Bytes.ofText Version.http10.text = versionStem ++ [48] := by decide
  have hnew : Bytes.ofText Version.http11.text = versionStem ++ [49] := by decide
  unfold scanVersion at h
  split at h
  · split at h <;> cases h
  · split at h
    · next h0 =>
      cases h
      exact ⟨.inl rfl, by rw [hold, ← h0, List.take_append_drop]⟩
    · split at h
      · next h1 =>
        cases h
        exact ⟨.inr rfl, by rw [hnew, ← h1, List.take_append_drop]⟩
      · cases h

theorem exists_of_scanDigit {d : Nat} (h : scanDigit b = .found d rest) :
    d < 10 ∧ b = Numeral.digit d :: rest := by
  have hdigit : ∀ n < 256, Bytes.isDigit (UInt8.ofNat n) = true →
      n - 48 < 10 ∧ Numeral.digit (n - 48) = UInt8.ofNat n := by decide +kernel
  unfold scanDigit at h
  split at h
  · cases h
  · next x bs =>
    split at h
    · next hx =>
      cases h
      rw [← UInt8.ofNat_toNat (x := x)] at hx
      obtain ⟨hlt, hd⟩ := hdigit x.toNat x.toNat_lt hx
      exact ⟨hlt, by rw [hd, UInt8.ofNat_toNat]⟩
    · cases h

/-- A code is three digits behind a space. -/
theorem scanCode_eq_found_iff {code : Nat} : scanCode b = .found code rest ↔
    ∃ d1 < 10, ∃ d2 < 10, ∃ d3 < 10, code = 100 * d1 + 10 * d2 + d3 ∧
      b = 32 :: Numeral.digit d1 :: Numeral.digit d2 :: Numeral.digit d3 :: rest := by
  constructor
  · intro h
    cases b with
    | nil => cases h
    | cons x b =>
      rw [scanCode_cons] at h
      split at h
      · cases h
      · next hx =>
        obtain ⟨d1, b1, h1, h⟩ := andThen_found (f := scanDigit) h
        obtain ⟨d2, b2, h2, h⟩ := andThen_found h
        obtain ⟨d3, b3, h3, h⟩ := andThen_found h
        cases h
        obtain ⟨hlt1, rfl⟩ := exists_of_scanDigit h1
        obtain ⟨hlt2, rfl⟩ := exists_of_scanDigit h2
        obtain ⟨hlt3, rfl⟩ := exists_of_scanDigit h3
        obtain rfl := Decidable.not_not.mp hx
        exact ⟨d1, hlt1, d2, hlt2, d3, hlt3, rfl, rfl⟩
  · rintro ⟨d1, hlt1, d2, hlt2, d3, hlt3, rfl, rfl⟩
    rw [scanCode_cons, if_neg (by decide)]
    show scanDigits (Numeral.digit d1 :: Numeral.digit d2 :: Numeral.digit d3 :: rest) = _
    rw [scanDigits, andThen_of_found (scanDigit_digit hlt1 _),
      andThen_of_found (scanDigit_digit hlt2 _), andThen_of_found (scanDigit_digit hlt3 _)]

/-- The empty lines, the version and the code are found where they stand. -/
theorem scanOpening_eq_found_iff {version : Version} {code : Nat} :
    scanOpening b = .found (version, code) rest ↔
      ∃ p, b = p ++ rest ∧ IsOpening p version code := by
  constructor
  · intro h
    obtain ⟨_, b1, h1, h⟩ := andThen_found h
    obtain ⟨v, b2, h2, h⟩ := andThen_found h
    obtain ⟨n, b3, h3, h⟩ := andThen_found h
    cases h
    obtain ⟨empties, hempties, rfl⟩ := exists_of_skipEmptyLines h1
    obtain ⟨hversion, rfl⟩ := exists_of_scanVersion h2
    obtain ⟨d1, hlt1, d2, hlt2, d3, hlt3, hcode, rfl⟩ := scanCode_eq_found_iff.mp h3
    refine ⟨_, ?_, empties, d1, hlt1, d2, hlt2, d3, hlt3, hempties, hversion, hcode, rfl⟩
    simp
  · rintro ⟨p, rfl, empties, d1, hlt1, d2, hlt2, d3, hlt3, hempties, hversion, hcode, rfl⟩
    have hfound :
        scanCode ([32, Numeral.digit d1, Numeral.digit d2, Numeral.digit d3] ++ rest) =
          .found code rest :=
      scanCode_eq_found_iff.mpr ⟨d1, hlt1, d2, hlt2, d3, hlt3, hcode, rfl⟩
    have hskip := skipEmptyLines_version hversion
      ([32, Numeral.digit d1, Numeral.digit d2, Numeral.digit d3] ++ rest)
    rw [scanOpening, List.append_assoc, List.append_assoc]
    rw [andThen_of_found ((skipEmptyLines_flatten hempties _).trans hskip),
      andThen_of_found (scanVersion_text hversion _), andThen_of_found hfound]

/-- A line end is no part of a run of value bytes. -/
theorem scanRun_lineEnd {run lineEnd : Bytes} (hend : IsLineEnd lineEnd)
    (hrun : ∀ x ∈ run, Bytes.isValueByte x = true) (rest : Bytes) :
    scanRun Bytes.isValueByte (run ++ (lineEnd ++ rest)) =
      .found ⟨run, hrun⟩ (lineEnd ++ rest) := by
  rcases hend with rfl | rfl
  · exact scanRun_of_run hrun (by decide) rest
  · exact scanRun_of_run hrun (by decide) (Bytes.lf :: rest)

theorem exists_of_scanRun {p : UInt8 → Bool} {run : { run : Bytes // ∀ x ∈ run, p x = true }}
    (h : scanRun p b = .found run rest) : b = run.1 ++ rest := by
  unfold scanRun at h
  split at h
  · cases h
  · next x tail hx =>
    cases h
    rw [← hx, List.takeWhile_append_dropWhile]

/-- What stands behind the code is found where it stands. -/
theorem scanReason_eq_found_iff {reason : Bytes} :
    scanReason b = .found reason rest ↔ ∃ p, b = p ++ rest ∧ IsReason p reason := by
  constructor
  · intro h
    cases b with
    | nil => cases h
    | cons x b =>
      rw [scanReason_cons] at h
      split at h
      · next hx =>
        obtain ⟨run, b1, hrun, h⟩ := andThen_found (f := scanRun Bytes.isValueByte) h
        obtain ⟨_, b2, hend, h⟩ := andThen_found h
        cases h
        obtain ⟨lineEnd, hlineEnd, rfl⟩ := scanLineEnd_eq_found_iff.mp hend
        have hb := exists_of_scanRun hrun
        refine ⟨32 :: (run.1 ++ lineEnd), by simp [hx, hb], lineEnd, hlineEnd, .inr ?_⟩
        exact ⟨run.1, rfl, run.2, rfl⟩
      · obtain ⟨_, b1, hend, h⟩ := andThen_found h
        cases h
        obtain ⟨lineEnd, hlineEnd, hb⟩ := scanLineEnd_eq_found_iff.mp hend
        exact ⟨lineEnd, hb, lineEnd, hlineEnd, .inl ⟨rfl, rfl⟩⟩
  · rintro ⟨p, rfl, lineEnd, hlineEnd, ⟨rfl, rfl⟩ | ⟨text, rfl, htext, rfl⟩⟩
    · rcases hlineEnd with rfl | rfl <;> rfl
    · have hend : scanLineEnd .status (lineEnd ++ rest) = .found () rest :=
        scanLineEnd_eq_found_iff.mpr ⟨lineEnd, hlineEnd, rfl⟩
      have hreason :
          scanReasonText (text ++ (lineEnd ++ rest)) = .found (keptReason text) rest := by
        rw [scanReasonText, andThen_of_found (scanRun_lineEnd hlineEnd htext rest),
          andThen_of_found hend]
      rw [List.cons_append, List.append_assoc, scanReason_cons, if_pos rfl]
      exact hreason

/-- Behind a status line the fields are scanned. -/
theorem scanHead_of_isStatusLine {p : Bytes} {version : Version} {code : Nat} {reason : Bytes}
    (h : IsStatusLine p version code reason) (behind : Bytes) :
    scanHead (p ++ behind) = scanSection { version, code, reason } behind := by
  obtain ⟨opening, said, rfl, hopening, hsaid⟩ := h
  rw [scanHead_eq, List.append_assoc,
    headThen_of_found (scanOpening_eq_found_iff.mpr ⟨opening, rfl, hopening⟩), scanAfterCode_eq,
    headThen_of_found (scanReason_eq_found_iff.mpr ⟨said, rfl, hsaid⟩)]

/-- A complete head is a status line with its fields behind it. -/
theorem exists_of_complete {line : StatusLine} {fields : List (FieldName × FieldValue)}
    (h : scanHead b = .complete line fields rest) : ∃ opening said behind,
      b = opening ++ (said ++ behind) ∧ IsOpening opening line.version line.code ∧
        IsReason said line.reason ∧ scanFields fieldLimit behind = .found fields rest := by
  rw [scanHead_eq] at h
  unfold headThen at h
  split at h
  · cases h
  · cases h
  · next o b1 hfound =>
    dsimp only at h
    rw [scanAfterCode_eq] at h
    unfold headThen at h
    split at h
    · cases h
    · cases h
    · next reason b2 hreason =>
      dsimp only at h
      unfold scanSection at h
      split at h
      · cases h
      · cases h
      · next hfields =>
        cases h
        obtain ⟨opening, rfl, hopening⟩ := scanOpening_eq_found_iff.mp hfound
        obtain ⟨said, rfl, hsaid⟩ := scanReason_eq_found_iff.mp hreason
        exact ⟨opening, said, b2, rfl, hopening, hsaid, hfields⟩

/-! ### Faults -/

/-- Is this a fault of a status line? -/
def HeadFault.isStatusLine : HeadFault → Bool
  | version => true
  | status => true
  | _ => false

theorem scanLineEnd_fault {fault' : HeadFault} (h : scanLineEnd fault b = .bad fault') :
    fault' = fault := by
  unfold scanLineEnd at h
  split at h
  · cases h
  · split at h
    · cases h
    · split at h
      · split at h
        · cases h
        · split at h
          · cases h
          · cases h
            rfl
      · cases h
        rfl

theorem scanRun_ne_bad {p : UInt8 → Bool} : scanRun p b ≠ .bad fault := by
  unfold scanRun
  split <;> simp

theorem scanField_fault (h : scanField b = .bad fault) :
    fault = .fieldName ∨ fault = .fieldValue := by
  rw [scanField_eq] at h
  rcases andThen_bad h with h | ⟨name, b1, -, h⟩
  · left
    rw [scanName_eq] at h
    rcases andThen_bad h with h | ⟨run, b1, -, h⟩
    · exact absurd h scanRun_ne_bad
    · cases b1 with
      | nil => cases h
      | cons x rest =>
        dsimp only [scanColon] at h
        split at h
        · cases h
        · cases h
          rfl
  · right
    rcases andThen_bad h with h | ⟨value, b2, -, h⟩
    · rw [scanValue_eq] at h
      rcases andThen_bad h with h | ⟨run, b2, -, h⟩
      · exact absurd h scanRun_ne_bad
      · rcases andThen_bad h with h | ⟨_, _, -, h⟩
        · exact scanLineEnd_fault h
        · cases h
    · cases h

/-- No fault of the fields is one of the status line. -/
theorem scanFields_fault : ∀ {room : Nat} {b : Bytes}, scanFields room b = .bad fault →
    fault.isStatusLine = false
  | room, [], h => by
    rw [scanFields.eq_def] at h
    cases h
  | room, x :: b, h => by
    rw [scanFields_cons] at h
    split at h
    · rcases andThen_bad h with h | ⟨_, _, -, h⟩
      · rw [scanLineEnd_fault h]
        rfl
      · cases h
    · rcases andThen_bad h with h | ⟨field, b1, -, h⟩
      · rcases scanField_fault h with rfl | rfl <;> rfl
      · cases room with
        | zero =>
          cases h
          rfl
        | succ room =>
          rcases andThen_bad h with h | ⟨_, _, -, h⟩
          · exact scanFields_fault h
          · cases h

/-- A fault of a status line stands up to its code, and then no status line
is known, or behind it, and then the version and the code are. -/
theorem scanHead_fault {line : Option StatusLine} (h : scanHead b = .malformed fault line)
    (hfault : fault.isStatusLine = true) :
    line = none ∧ (∀ o rest, scanOpening b ≠ .found o rest) ∨
      ∃ version code rest, scanOpening b = .found (version, code) rest ∧
        line = some { version, code } := by
  rw [scanHead_eq] at h
  unfold headThen at h
  split at h
  · cases h
  · next hopening =>
    cases h
    exact .inl ⟨rfl, fun o rest hfound => by rw [hopening] at hfound; cases hfound⟩
  · next o rest hopening =>
    dsimp only at h
    rw [scanAfterCode_eq] at h
    unfold headThen at h
    split at h
    · cases h
    · cases h
      exact .inr ⟨o.1, o.2, rest, hopening, rfl⟩
    · dsimp only at h
      rw [scanSection_eq] at h
      unfold headThen at h
      split at h
      · cases h
      · next hfields =>
        cases h
        rw [scanFields_fault hfields] at hfault
        cases hfault
      · cases h

end Head
end Http1Client
