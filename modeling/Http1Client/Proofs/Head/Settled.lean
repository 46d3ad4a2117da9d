/-
# What a scan has settled stays settled

A scan from the front of growing bytes is asked again and again. It is settled
(`Settled`) if more bytes never change what it said: what it found it finds by
the bytes it took alone, whatever stands behind them, and a fault stays that
fault. A scan of a run is settled by one byte more, the first behind the run
(`Peeked`). A settled scan behind a settled one is settled, and so is one that
needs a byte behind a run (`Settled.andThen`, `Peeked.andThen`); every scan of
a head is put together in these two ways.

So one prefix of a byte string at most is a head, and whether a head stands at
the front of the bytes does not depend on how many of them are there.

Key definitions: `Settled`, `Peeked`, `andThen`, `scanRun`.
Key theorems: `scanHead_complete`, `scanHead_append_of_complete`,
`scanHead_append_of_malformed`, `length_rest_lt_of_open`.
-/
import Http1Client.Head.Scan

namespace Http1Client
namespace Head

variable {α β : Type}

/-- What the scan says does not change when there are more bytes. -/
structure Settled (scan : Bytes → Scan α) : Prop where
  found : ∀ {b a rest}, scan b = .found a rest →
    ∃ p, b = p ++ rest ∧ ∀ c, scan (p ++ c) = .found a c
  bad : ∀ {b fault}, scan b = .bad fault → ∀ c, scan (b ++ c) = .bad fault

/-- The same of a scan that looks at one byte more than it takes. -/
structure Peeked (scan : Bytes → Scan α) : Prop where
  found : ∀ {b a rest}, scan b = .found a rest →
    ∃ p x t, rest = x :: t ∧ b = p ++ x :: t ∧ ∀ c, scan (p ++ x :: c) = .found a (x :: c)
  bad : ∀ {b fault}, scan b = .bad fault → ∀ c, scan (b ++ c) = .bad fault

/-- What was found is found with more bytes behind it. -/
theorem Settled.found_append {scan : Bytes → Scan α} (h : Settled scan) {b rest : Bytes} {a : α}
    (hb : scan b = .found a rest) (c : Bytes) : scan (b ++ c) = .found a (rest ++ c) := by
  obtain ⟨p, rfl, hp⟩ := h.found hb
  rw [List.append_assoc, hp]

theorem Peeked.found_append {scan : Bytes → Scan α} (h : Peeked scan) {b rest : Bytes} {a : α}
    (hb : scan b = .found a rest) (c : Bytes) : scan (b ++ c) = .found a (rest ++ c) := by
  obtain ⟨p, x, t, rfl, rfl, hp⟩ := h.found hb
  rw [List.append_assoc, List.cons_append, hp]

/-! ### Scans put together -/

/-- Scans with `f` and then, behind what it took, with `g`. -/
def andThen (f : Bytes → Scan α) (g : α → Bytes → Scan β) (b : Bytes) : Scan β :=
  match f b with
  | .short => .short
  | .bad fault => .bad fault
  | .found a rest => g a rest

theorem andThen_of_found {f : Bytes → Scan α} {b rest : Bytes} {a : α} (h : f b = .found a rest)
    (g : α → Bytes → Scan β) : andThen f g b = g a rest := by
  simp [andThen, h]

/-- A fault of the second scan stays a fault if the first one still finds what
it found. -/
theorem andThen_bad {f : Bytes → Scan α} {g : α → Bytes → Scan β} {b : Bytes} {fault : HeadFault}
    (h : andThen f g b = .bad fault) :
    f b = .bad fault ∨ ∃ a rest, f b = .found a rest ∧ g a rest = .bad fault := by
  unfold andThen at h
  split at h
  · simp at h
  · next h1 => exact .inl (h1.trans (by simpa using h))
  · next a rest h1 => exact .inr ⟨a, rest, h1, h⟩

theorem andThen_found {f : Bytes → Scan α} {g : α → Bytes → Scan β} {b rest : Bytes} {k : β}
    (h : andThen f g b = .found k rest) :
    ∃ a rest1, f b = .found a rest1 ∧ g a rest1 = .found k rest := by
  unfold andThen at h
  split at h
  · simp at h
  · simp at h
  · next a rest1 h1 => exact ⟨a, rest1, h1, h⟩

theorem Settled.andThen {f : Bytes → Scan α} {g : α → Bytes → Scan β} (hf : Settled f)
    (hg : ∀ a, Settled (g a)) : Settled (andThen f g) where
  found := by
    intro b k rest h
    obtain ⟨a, rest1, h1, h2⟩ := andThen_found h
    obtain ⟨p, rfl, hp⟩ := hf.found h1
    obtain ⟨q, rfl, hq⟩ := (hg a).found h2
    refine ⟨p ++ q, (List.append_assoc ..).symm, fun c => ?_⟩
    rw [List.append_assoc, andThen_of_found (hp _), hq]
  bad := by
    intro b fault h c
    rcases andThen_bad h with h1 | ⟨a, rest, h1, h2⟩
    · simp [Head.andThen, hf.bad h1 c]
    · rw [andThen_of_found (hf.found_append h1 c), (hg a).bad h2 c]

/-- The second scan takes the byte that the first one looked at. -/
theorem Peeked.andThen {f : Bytes → Scan α} {g : α → Bytes → Scan β} (hf : Peeked f)
    (hg : ∀ a, Settled (g a)) (hnil : ∀ a, g a [] = .short) : Settled (andThen f g) where
  found := by
    intro b k rest h
    obtain ⟨a, rest1, h1, h2⟩ := andThen_found h
    obtain ⟨p, x, t, rfl, rfl, hp⟩ := hf.found h1
    obtain ⟨q, hq, hqc⟩ := (hg a).found h2
    cases q with
    | nil =>
      have h3 := hqc []
      rw [List.append_nil, hnil] at h3
      simp at h3
    | cons y q =>
      obtain ⟨rfl, rfl⟩ : x = y ∧ t = q ++ rest := by simpa using hq
      refine ⟨p ++ x :: q, by simp, fun c => ?_⟩
      rw [List.append_assoc, List.cons_append, andThen_of_found (hp _), ← List.cons_append, hqc]
  bad := by
    intro b fault h c
    rcases andThen_bad h with h1 | ⟨a, rest, h1, h2⟩
    · simp [Head.andThen, hf.bad h1 c]
    · rw [andThen_of_found (hf.found_append h1 c), (hg a).bad h2 c]

/-- The scan that takes nothing. -/
theorem settled_pure (a : α) : Settled (Scan.found a) where
  found := by
    intro b a' rest h
    injection h with h1 h2
    exact ⟨[], by simp [h2], fun c => by simp [h1]⟩
  bad := by simp

theorem settled_bad (fault : HeadFault) : Settled fun _ => (Scan.bad fault : Scan α) where
  found := by simp
  bad := fun h _ => h

/-- Scans behind the first byte. -/
def skipByte (f : Bytes → Scan α) : Bytes → Scan α
  | [] => .short
  | _ :: b => f b

theorem Settled.skipByte {f : Bytes → Scan α} (hf : Settled f) : Settled (skipByte f) where
  found := by
    intro b a rest h
    cases b with
    | nil => simp [Head.skipByte] at h
    | cons x b =>
      obtain ⟨p, rfl, hp⟩ := hf.found h
      exact ⟨x :: p, rfl, hp⟩
  bad := by
    intro b fault h c
    cases b with
    | nil => simp [Head.skipByte] at h
    | cons x b => exact hf.bad h c

/-- A scan that the first byte chooses, and that takes this byte. -/
theorem Settled.byFirst {f : Bytes → Scan α} {h : UInt8 → Bytes → Scan α} (hnil : f [] = .short)
    (hcons : ∀ x b, f (x :: b) = h x (x :: b)) (hs : ∀ x, Settled (h x))
    (hn : ∀ x, h x [] = .short) : Settled f where
  found := by
    intro b a rest hb
    cases b with
    | nil => simp [hnil] at hb
    | cons x b =>
      rw [hcons] at hb
      obtain ⟨p, he, hp⟩ := (hs x).found hb
      cases p with
      | nil =>
        have h1 := hp []
        rw [List.append_nil, hn] at h1
        simp at h1
      | cons y p =>
        obtain ⟨rfl, rfl⟩ : x = y ∧ b = p ++ rest := by simpa using he
        exact ⟨x :: p, rfl, fun c => by rw [List.cons_append, hcons, ← List.cons_append, hp]⟩
  bad := by
    intro b fault hb c
    cases b with
    | nil => simp [hnil] at hb
    | cons x b =>
      rw [hcons] at hb
      rw [List.cons_append, hcons, ← List.cons_append, (hs x).bad hb c]

/-! ### Runs -/

/-- Takes the run of a class, which ends where there is a byte outside it. -/
def scanRun (p : UInt8 → Bool) (b : Bytes) : Scan { run : Bytes // ∀ x ∈ run, p x = true } :=
  match b.dropWhile p with
  | [] => .short
  | x :: rest =>
    .found ⟨b.takeWhile p, fun _ hx => List.all_eq_true.mp List.all_takeWhile _ hx⟩ (x :: rest)

theorem peeked_scanRun (p : UInt8 → Bool) : Peeked (scanRun p) where
  found := by
    intro b run rest h
    unfold scanRun at h
    split at h
    · simp at h
    · next x t hd =>
      injection h with hrun hrest
      refine ⟨b.takeWhile p, x, t, hrest.symm, ?_, fun c => ?_⟩
      · rw [← hd, List.takeWhile_append_dropWhile]
      have hx : p x = false := by
        have := List.head?_dropWhile_not p b
        simpa [hd] using this
      have htake : ∀ y ∈ b.takeWhile p, p y = true :=
        fun y hy => List.all_eq_true.mp List.all_takeWhile y hy
      have h1 : (b.takeWhile p ++ x :: c).dropWhile p = x :: c := by
        rw [List.dropWhile_append_of_pos htake, List.dropWhile_cons_of_neg (by simp [hx])]
      have h2 : (b.takeWhile p ++ x :: c).takeWhile p = b.takeWhile p := by
        rw [List.takeWhile_append_of_pos htake, List.takeWhile_cons_of_neg (by simp [hx]),
          List.append_nil]
      simp only [scanRun, h1, h2, ← hrun]
  bad := by
    intro b fault h
    unfold scanRun at h
    split at h <;> simp at h

/-! ### Line ends -/

theorem cr_ne_lf : Bytes.cr ≠ Bytes.lf := by decide

theorem settled_scanLineEnd (fault : HeadFault) : Settled (scanLineEnd fault) where
  found := by
    intro b a rest h
    match b with
    | [] => simp [scanLineEnd] at h
    | x :: bs =>
      by_cases hx : x = Bytes.lf
      · subst hx
        simp only [scanLineEnd, if_true, Scan.found.injEq, true_and] at h
        exact ⟨[Bytes.lf], by simp [h], fun c => by simp [scanLineEnd]⟩
      · simp only [scanLineEnd, hx, if_false] at h
        split at h
        · next hcr =>
          split at h
          · simp at h
          · next y bs' =>
            split at h
            · next hy =>
              injection h with _ h
              exact ⟨[x, y], by simp [h], fun c => by simp [scanLineEnd, hcr, hy, cr_ne_lf]⟩
            · simp at h
        · simp at h
  bad := by
    intro b fault' h c
    match b with
    | [] => simp [scanLineEnd] at h
    | x :: bs =>
      by_cases hx : x = Bytes.lf
      · simp [scanLineEnd, hx] at h
      · by_cases hcr : x = Bytes.cr
        · subst hcr
          cases bs with
          | nil => simp [scanLineEnd, cr_ne_lf] at h
          | cons y bs' =>
            by_cases hy : y = Bytes.lf
            · simp [scanLineEnd, cr_ne_lf, hy] at h
            · simpa [scanLineEnd, cr_ne_lf, hy] using h
        · simpa [scanLineEnd, hx, hcr] using h

theorem skipEmptyLines_lf (b : Bytes) : skipEmptyLines (Bytes.lf :: b) = skipEmptyLines b := by
  rw [skipEmptyLines.eq_def]
  simp

theorem skipEmptyLines_crlf (b : Bytes) :
    skipEmptyLines (Bytes.cr :: Bytes.lf :: b) = skipEmptyLines b := by
  rw [skipEmptyLines.eq_def]
  simp [cr_ne_lf]

theorem skipEmptyLines_other {x : UInt8} (h1 : x ≠ Bytes.lf) (h2 : x ≠ Bytes.cr) (b : Bytes) :
    skipEmptyLines (x :: b) = .found () (x :: b) := by
  rw [skipEmptyLines.eq_def]
  simp [h1, h2]

theorem peeked_skipEmptyLines : Peeked skipEmptyLines where
  found := by
    intro b a rest h
    fun_induction skipEmptyLines b with
    | case1 => simp at h
    | case2 bs ih =>
      obtain ⟨p, y, t, hr, hb, hp⟩ := ih h
      refine ⟨Bytes.lf :: p, y, t, hr, by simp [hb], fun c => ?_⟩
      rw [List.cons_append, skipEmptyLines_lf, hp]
    | case3 => simp at h
    | case4 bs hne ih =>
      obtain ⟨p, y, t, hr, hb, hp⟩ := ih h
      refine ⟨Bytes.cr :: Bytes.lf :: p, y, t, hr, by simp [hb], fun c => ?_⟩
      rw [List.cons_append, List.cons_append, skipEmptyLines_crlf, hp]
    | case5 => simp at h
    | case6 x bs hlf hcr =>
      injection h with _ h
      exact ⟨[], x, bs, h.symm, rfl, fun c => skipEmptyLines_other hlf hcr c⟩
  bad := by
    intro b fault h c
    fun_induction skipEmptyLines b with
    | case1 => simp at h
    | case2 bs ih => rw [List.cons_append, skipEmptyLines_lf, ih h]
    | case3 => simp at h
    | case4 bs hne ih => rw [List.cons_append, List.cons_append, skipEmptyLines_crlf, ih h]
    | case5 y bs hy hne =>
      rw [← h, List.cons_append, List.cons_append, skipEmptyLines.eq_def]
      simp [cr_ne_lf, hy]
    | case6 => simp at h

/-! ### The status line -/

/-- A version is settled by its eight bytes. -/
theorem scanVersion_of_length {b : Bytes} (h : 8 ≤ b.length) : scanVersion b =
    if b.take 8 = versionStem ++ [48] then .found .http10 (b.drop 8)
    else if b.take 8 = versionStem ++ [49] then .found .http11 (b.drop 8)
    else .bad .version := by
  rw [scanVersion, if_neg (by simp [Bytes.isShorter_eq_false.mpr h])]

/-- Bytes that are no beginning of a version never become one. -/
theorem take_ne_of_not_isPrefixOf {b : Bytes} (hl : b.length < 8)
    (h : b.isPrefixOf versionStem = false) (c : Bytes) (x : UInt8) :
    (b ++ c).take 8 ≠ versionStem ++ [x] := by
  intro he
  have h1 : b <+: versionStem ++ [x] := by
    rw [← he, List.take_append, List.take_of_length_le (by omega)]
    exact List.prefix_append ..
  have h2 : b <+: versionStem :=
    List.prefix_of_prefix_length_le h1 (List.prefix_append ..) (by
      have : versionStem.length = 7 := by decide
      omega)
  rw [List.isPrefixOf_iff_prefix.mpr h2] at h
  simp at h

/-- A version is eight bytes, and no more count. -/
theorem scanVersion_take {b c : Bytes} (h : 8 ≤ b.length) :
    scanVersion (b.take 8 ++ c) =
      if b.take 8 = versionStem ++ [48] then .found .http10 c
      else if b.take 8 = versionStem ++ [49] then .found .http11 c
      else .bad .version := by
  have hlen : (b.take 8).length = 8 := by simp [h]
  have htake : (b.take 8 ++ c).take 8 = b.take 8 := by
    rw [List.take_append_of_le_length (by omega), List.take_take, Nat.min_self]
  have hdrop : (b.take 8 ++ c).drop 8 = c := by
    rw [List.drop_append_of_le_length (by omega), List.drop_of_length_le (by omega),
      List.nil_append]
  have hlong : 8 ≤ (b.take 8 ++ c).length := by
    rw [List.length_append]
    omega
  rw [scanVersion_of_length hlong, htake, hdrop]

/-- Fewer bytes than eight are no version, and may be the beginning of one. -/
theorem scanVersion_of_short {b : Bytes} (h : b.length < 8) : scanVersion b =
    if b.isPrefixOf versionStem then .short else .bad .version := by
  rw [scanVersion, if_pos (Bytes.isShorter_iff.mpr h)]

theorem scanVersion_append_of_bad {b c : Bytes} {fault : HeadFault} (hl : b.length < 8)
    (h : scanVersion b = .bad fault) : scanVersion (b ++ c) = .bad fault := by
  rw [scanVersion_of_short hl] at h
  split at h
  · simp at h
  · next hp =>
    injection h with h
    subst h
    rw [Bool.not_eq_true] at hp
    have hne := take_ne_of_not_isPrefixOf hl hp c
    by_cases hl' : 8 ≤ (b ++ c).length
    · rw [scanVersion_of_length hl', if_neg (hne 48), if_neg (hne 49)]
    · have hpc : (b ++ c).isPrefixOf versionStem = false := by
        rw [← Bool.not_eq_true, List.isPrefixOf_iff_prefix]
        intro h'
        rw [List.isPrefixOf_iff_prefix.mpr ((List.prefix_append b c).trans h')] at hp
        simp at hp
      rw [scanVersion_of_short (by omega), if_neg (by simp [hpc])]

theorem settled_scanVersion : Settled scanVersion where
  found := by
    intro b v rest h
    by_cases hl : 8 ≤ b.length
    · have hwhole : scanVersion b = _ := (congrArg scanVersion (List.take_append_drop 8 b)).symm
      rw [hwhole, scanVersion_take hl] at h
      refine ⟨b.take 8, ?_, fun c => ?_⟩
      · split at h
        · injection h with _ hr
          rw [← hr, List.take_append_drop]
        · split at h
          · injection h with _ hr
            rw [← hr, List.take_append_drop]
          · simp at h
      · rw [scanVersion_take hl]
        split at h
        · next h0 =>
          injection h with hv _
          rw [if_pos h0, hv]
        · next h0 =>
          split at h
          · next h1 =>
            injection h with hv _
            rw [if_neg h0, if_pos h1, hv]
          · simp at h
    · rw [scanVersion_of_short (by omega)] at h
      split at h <;> simp at h
  bad := by
    intro b fault h c
    by_cases hl : 8 ≤ b.length
    · have hwhole := List.take_append_drop 8 b
      rw [← hwhole, scanVersion_take hl] at h
      rw [← hwhole, List.append_assoc, scanVersion_take hl]
      split at h
      · simp at h
      · next h0 =>
        split at h
        · simp at h
        · next h1 => rw [if_neg h0, if_neg h1, h]
    · exact scanVersion_append_of_bad (by omega) h

theorem settled_scanDigit : Settled scanDigit where
  found := by
    intro b d rest h
    unfold scanDigit at h
    split at h
    · simp at h
    · next x bs =>
      split at h
      · next hx =>
        injection h with hd hr
        exact ⟨[x], by simp [hr], fun c => by simp [scanDigit, hx, hd]⟩
      · simp at h
  bad := by
    intro b fault h c
    unfold scanDigit at h
    split at h
    · simp at h
    · next x bs =>
      split at h
      · simp at h
      · next hx => simpa [scanDigit, hx] using h

/-- The three digits behind the space. -/
def scanDigits : Bytes → Scan Nat :=
  andThen scanDigit fun d1 => andThen scanDigit fun d2 => andThen scanDigit fun d3 =>
    .found (100 * d1 + 10 * d2 + d3)

theorem settled_scanDigits : Settled scanDigits :=
  settled_scanDigit.andThen fun _ => settled_scanDigit.andThen fun _ =>
    settled_scanDigit.andThen fun _ => settled_pure _

theorem scanCode_cons (x : UInt8) (b : Bytes) : scanCode (x :: b) =
    skipByte (if x ≠ 32 then fun _ => .bad .version else scanDigits) (x :: b) := by
  by_cases hx : x ≠ 32
  · simp [scanCode, skipByte, hx]
  · simp only [scanCode, skipByte, hx, if_false, scanDigits, andThen]
    cases scanDigit b with
    | short => rfl
    | bad => rfl
    | found d1 b1 =>
      dsimp only
      cases scanDigit b1 with
      | short => rfl
      | bad => rfl
      | found d2 b2 =>
        dsimp only
        cases scanDigit b2 <;> rfl

theorem settled_scanCode : Settled scanCode := by
  refine Settled.byFirst rfl scanCode_cons (fun x => Settled.skipByte ?_) fun _ => rfl
  split
  · exact settled_bad _
  · exact settled_scanDigits

/-- The reason behind its space. -/
def scanReasonText : Bytes → Scan Bytes :=
  andThen (scanRun Bytes.isValueByte) fun run =>
    andThen (scanLineEnd .status) fun _ => .found (keptReason run.1)

theorem settled_scanReasonText : Settled scanReasonText :=
  (peeked_scanRun _).andThen
    (fun _ => (settled_scanLineEnd _).andThen fun _ => settled_pure _) fun _ => rfl

theorem scanReason_cons (x : UInt8) (b : Bytes) : scanReason (x :: b) =
    (if x = 32 then skipByte scanReasonText
      else andThen (scanLineEnd .status) fun _ => .found []) (x :: b) := by
  simp only [scanReason]
  split
  · simp only [skipByte, scanReasonText, andThen, scanRun]
    cases hd : b.dropWhile Bytes.isValueByte with
    | nil => rfl
    | cons y rest =>
      dsimp only
      cases scanLineEnd .status (y :: rest) <;> rfl
  · simp only [andThen]
    cases scanLineEnd .status (x :: b) <;> rfl

theorem settled_scanReason : Settled scanReason := by
  refine Settled.byFirst rfl scanReason_cons (fun x => ?_) fun x => ?_
  · split
    · exact settled_scanReasonText.skipByte
    · exact (settled_scanLineEnd _).andThen fun _ => settled_pure _
  · split <;> rfl

/-! ### Fields -/

/-- The colon behind a name. -/
def scanColon (run : { run : Bytes // ∀ x ∈ run, Bytes.isTokenByte x = true }) (x : UInt8) :
    Bytes → Scan FieldName :=
  if h : x = 58 ∧ run.1 ≠ [] then .found (FieldName.ofToken run.1 h.2 run.2)
  else fun _ => .bad .fieldName

theorem scanName_eq (b : Bytes) : scanName b =
    andThen (scanRun Bytes.isTokenByte)
      (fun run b => match b with
        | [] => .short
        | x :: rest => scanColon run x rest) b := by
  unfold scanName andThen scanRun
  cases hd : b.dropWhile Bytes.isTokenByte with
  | nil => rfl
  | cons x rest =>
    dsimp only [scanColon]
    split <;> rfl

theorem settled_scanName : Settled scanName := by
  rw [show scanName = _ from funext scanName_eq]
  refine (peeked_scanRun _).andThen (fun run => ?_) fun _ => rfl
  refine Settled.byFirst rfl (h := fun x => skipByte (scanColon run x)) (fun _ _ => rfl)
    (fun x => Settled.skipByte ?_) fun _ => rfl
  unfold scanColon
  split
  · exact settled_pure _
  · exact settled_bad _

theorem scanValue_eq (b : Bytes) : scanValue b =
    andThen (scanRun Bytes.isValueByte)
      (fun run => andThen (scanLineEnd .fieldValue) fun _ =>
        .found (trimmedValue run.1 run.2)) b := by
  unfold scanValue andThen scanRun
  cases hd : b.dropWhile Bytes.isValueByte with
  | nil => rfl
  | cons x rest =>
    dsimp only
    cases scanLineEnd .fieldValue (x :: rest) <;> rfl

theorem settled_scanValue : Settled scanValue := by
  rw [show scanValue = _ from funext scanValue_eq]
  exact (peeked_scanRun _).andThen
    (fun _ => (settled_scanLineEnd _).andThen fun _ => settled_pure _) fun _ => rfl

theorem scanField_eq (b : Bytes) : scanField b =
    andThen scanName (fun name => andThen scanValue fun value => .found (name, value)) b := by
  unfold scanField andThen
  cases scanName b with
  | short => rfl
  | bad => rfl
  | found name b1 =>
    dsimp only
    cases scanValue b1 <;> rfl

theorem settled_scanField : Settled scanField := by
  rw [show scanField = _ from funext scanField_eq]
  exact settled_scanName.andThen fun _ => settled_scanValue.andThen fun _ => settled_pure _

/-- The field lines behind one field, where there is room for `room` with it. -/
def scanMoreFields (room : Nat) (field : FieldName × FieldValue) :
    Bytes → Scan (List (FieldName × FieldValue)) :=
  match room with
  | 0 => fun _ => .bad .tooManyFields
  | room + 1 => andThen (scanFields room) fun fields => .found (field :: fields)

theorem scanFields_cons (room : Nat) (x : UInt8) (b : Bytes) : scanFields room (x :: b) =
    (if x = Bytes.lf ∨ x = Bytes.cr then andThen (scanLineEnd .newLine) fun _ => .found []
      else andThen scanField (scanMoreFields room)) (x :: b) := by
  rw [scanFields.eq_def]
  dsimp only
  split
  · unfold andThen
    cases scanLineEnd .newLine (x :: b) <;> rfl
  · unfold andThen
    cases scanField (x :: b) with
    | short => rfl
    | bad => rfl
    | found field b1 =>
      cases room with
      | zero => rfl
      | succ room =>
        simp only [scanMoreFields, andThen]
        cases scanFields room b1 <;> rfl

theorem settled_scanFields (room : Nat) : Settled (scanFields room) := by
  have hmore : ∀ field, Settled (scanMoreFields room field) := by
    intro field
    cases room with
    | zero => exact settled_bad _
    | succ room => exact (settled_scanFields room).andThen fun _ => settled_pure _
  refine Settled.byFirst (by rw [scanFields.eq_def]) (scanFields_cons room) (fun x => ?_)
    fun x => ?_
  · split
    · exact (settled_scanLineEnd _).andThen fun _ => settled_pure _
    · exact settled_scanField.andThen hmore
  · split <;> rfl

/-! ### The head -/

/-- `Settled`, of scans of a whole head. -/
structure SettledHead (scan : Bytes → HeadScan) : Prop where
  complete : ∀ {b line fields rest}, scan b = .complete line fields rest →
    ∃ p, b = p ++ rest ∧ ∀ c, scan (p ++ c) = .complete line fields c
  malformed : ∀ {b fault line}, scan b = .malformed fault line →
    ∀ c, scan (b ++ c) = .malformed fault line

/-- Scans a part of a head and then the rest of it; `line` is what is known of
the status line where the part has a fault. -/
def headThen (line : Option StatusLine) (f : Bytes → Scan α) (g : α → Bytes → HeadScan)
    (b : Bytes) : HeadScan :=
  match f b with
  | .short => .open
  | .bad fault => .malformed fault line
  | .found a rest => g a rest

theorem headThen_of_found {line : Option StatusLine} {f : Bytes → Scan α} {b rest : Bytes} {a : α}
    (h : f b = .found a rest) (g : α → Bytes → HeadScan) : headThen line f g b = g a rest := by
  simp [headThen, h]

theorem SettledHead.headThen {line : Option StatusLine} {f : Bytes → Scan α}
    {g : α → Bytes → HeadScan} (hf : Settled f) (hg : ∀ a, SettledHead (g a)) :
    SettledHead (headThen line f g) where
  complete := by
    intro b l fields rest h
    unfold Head.headThen at h
    split at h
    · simp at h
    · simp at h
    · next a rest1 h1 =>
      obtain ⟨p, rfl, hp⟩ := hf.found h1
      obtain ⟨q, rfl, hq⟩ := (hg a).complete h
      refine ⟨p ++ q, (List.append_assoc ..).symm, fun c => ?_⟩
      rw [List.append_assoc, headThen_of_found (hp _), hq]
  malformed := by
    intro b fault l h c
    unfold Head.headThen at h
    split at h
    · simp at h
    · next h1 =>
      rw [← h]
      simp [Head.headThen, hf.bad h1 c]
    · next a rest h1 => rw [headThen_of_found (hf.found_append h1 c), (hg a).malformed h c]

theorem settledHead_complete (line : StatusLine) (fields : List (FieldName × FieldValue)) :
    SettledHead (HeadScan.complete line fields) where
  complete := by
    intro b l fs rest h
    injection h with h1 h2 h3
    exact ⟨[], by simp [h3], fun c => by simp [h1, h2]⟩
  malformed := by simp

/-- The empty lines in front of a head, its version and its code. -/
def scanOpening : Bytes → Scan (Version × Nat) :=
  andThen skipEmptyLines fun _ => andThen scanVersion fun version => andThen scanCode fun code =>
    .found (version, code)

theorem settled_scanOpening : Settled scanOpening :=
  peeked_skipEmptyLines.andThen
    (fun _ => settled_scanVersion.andThen fun _ => settled_scanCode.andThen fun _ => settled_pure _)
    fun _ => rfl

theorem scanSection_eq (line : StatusLine) (b : Bytes) :
    scanSection line b =
      headThen (some line) (scanFields fieldLimit) (HeadScan.complete line) b := by
  unfold scanSection headThen
  cases scanFields fieldLimit b <;> rfl

theorem scanAfterCode_eq (version : Version) (code : Nat) (b : Bytes) :
    scanAfterCode version code b = headThen (some { version, code }) scanReason
      (fun reason => scanSection { version, code, reason }) b := by
  unfold scanAfterCode headThen
  cases scanReason b <;> rfl

theorem scanHead_eq (b : Bytes) :
    scanHead b = headThen none scanOpening (fun o => scanAfterCode o.1 o.2) b := by
  unfold scanHead headThen scanOpening andThen
  cases skipEmptyLines b with
  | short => rfl
  | bad => rfl
  | found _ b1 =>
    dsimp only
    cases scanVersion b1 with
    | short => rfl
    | bad => rfl
    | found version b2 =>
      dsimp only
      cases scanCode b2 <;> rfl

theorem settledHead_scanHead : SettledHead scanHead := by
  have hsection : ∀ line, SettledHead (scanSection line) := by
    intro line
    rw [show scanSection line = _ from funext (scanSection_eq line)]
    exact SettledHead.headThen (settled_scanFields _) fun _ => settledHead_complete _ _
  have hafter : ∀ version code, SettledHead (scanAfterCode version code) := by
    intro version code
    rw [show scanAfterCode version code = _ from funext (scanAfterCode_eq version code)]
    exact SettledHead.headThen settled_scanReason fun _ => hsection _
  rw [show scanHead = _ from funext scanHead_eq]
  exact SettledHead.headThen settled_scanOpening fun o => hafter o.1 o.2

/-- A head is known by its own bytes: it is found whatever stands behind it. -/
theorem scanHead_complete {b rest : Bytes} {line : StatusLine}
    {fields : List (FieldName × FieldValue)} (h : scanHead b = .complete line fields rest) :
    ∃ p, b = p ++ rest ∧ ∀ c, scanHead (p ++ c) = .complete line fields c :=
  settledHead_scanHead.complete h

theorem scanHead_append_of_complete {b rest : Bytes} {line : StatusLine}
    {fields : List (FieldName × FieldValue)} (h : scanHead b = .complete line fields rest)
    (c : Bytes) : scanHead (b ++ c) = .complete line fields (rest ++ c) := by
  obtain ⟨p, rfl, hp⟩ := scanHead_complete h
  rw [List.append_assoc, hp]

/-- A fault of a head is final. -/
theorem scanHead_append_of_malformed {b : Bytes} {fault : HeadFault} {line : Option StatusLine}
    (h : scanHead b = .malformed fault line) (c : Bytes) :
    scanHead (b ++ c) = .malformed fault line :=
  settledHead_scanHead.malformed h c

/-- The front of bytes that are one head is no head, and it has no fault. -/
theorem scanHead_front {q u : Bytes} {line : StatusLine} {fields : List (FieldName × FieldValue)}
    (h : scanHead (q ++ u) = .complete line fields []) (hu : u ≠ []) : scanHead q = .open := by
  cases hq : scanHead q with
  | «open» => rfl
  | malformed fault line' =>
    rw [scanHead_append_of_malformed hq u] at h
    cases h
  | complete line' fields' rest =>
    rw [scanHead_append_of_complete hq u, HeadScan.complete.injEq] at h
    exact absurd (List.append_eq_nil_iff.mp h.2.2).2 hu

/-- A head that more bytes complete ends among these. -/
theorem length_rest_lt_of_open {b c rest : Bytes} {line : StatusLine}
    {fields : List (FieldName × FieldValue)} (hopen : scanHead b = .open)
    (h : scanHead (b ++ c) = .complete line fields rest) : rest.length < c.length := by
  obtain ⟨p, hb, hp⟩ := scanHead_complete h
  refine Nat.lt_of_not_le fun hle => ?_
  -- Otherwise the head stands in `b` already.
  have hl := congrArg List.length hb
  simp only [List.length_append] at hl
  obtain ⟨t, rfl⟩ : p <+: b :=
    List.prefix_of_prefix_length_le (hb ▸ List.prefix_append p rest) (List.prefix_append b c)
      (by omega)
  rw [hp] at hopen
  simp at hopen

end Head
end Http1Client
