/-
# Scanning a response head

The head of a response is a status line, field lines and an empty line. A
line ends with a line feed, which a carriage return may precede; empty lines
before the status line are skipped. A scan either takes what it looks for and
leaves the rest, finds that the bytes end first, or finds a fault: it never
waits for bytes that could not make the head good.

A fault behind the status code leaves the status line that was read
(`HeadScan.malformed`).

Key definitions: `Scan`, `scanVersion`, `scanCode`, `scanReason`,
`scanField`, `scanFields`, `scanHead`.
Key theorems: `scanHead_length`.
-/
import Http1Client.Response
import Http1Client.Error

namespace Http1Client
namespace Head

/-- The most fields a head may have. -/
def fieldLimit : Nat := 64

/-- What can be wrong with a head. -/
inductive HeadFault where
  /-- A carriage return without line feed where an empty line is due. -/
  | newLine
  | version
  | status
  | fieldName
  | fieldValue
  | tooManyFields
  deriving DecidableEq, Repr

namespace HeadFault

/-- The words for a fault of a head. -/
def text : HeadFault → String
  | newLine => "invalid new line"
  | version => "invalid HTTP version"
  | status => "invalid response status"
  | fieldName => "invalid header name"
  | fieldValue => "invalid header value"
  | tooManyFields => "too many headers"

/-- The error that the reading of a response stops with. -/
def toError : HeadFault → DecodeError
  | version => .badStatusLine version.text
  | status => .badStatusLine status.text
  | tooManyFields => .tooManyFields fieldLimit
  | fault => .badField fault.text

end HeadFault

/-- A scan from the front of the bytes. -/
inductive Scan (α : Type) where
  | found (a : α) (rest : Bytes)
  /-- The bytes end first. -/
  | short
  | bad (fault : HeadFault)

/-! ### Lines -/

/-- Takes a line end, with or without carriage return. -/
def scanLineEnd (fault : HeadFault) : Bytes → Scan Unit
  | [] => .short
  | x :: bs =>
    if x = Bytes.lf then .found () bs
    else if x = Bytes.cr then
      match bs with
      | [] => .short
      | y :: bs' => if y = Bytes.lf then .found () bs' else .bad fault
    else .bad fault

theorem scanLineEnd_length {fault : HeadFault} {b rest : Bytes}
    (h : scanLineEnd fault b = .found () rest) : rest.length < b.length := by
  unfold scanLineEnd at h
  split at h
  · simp at h
  · split at h
    · injection h with _ h
      simp [← h]
    · split at h
      · split at h
        · simp at h
        · split at h
          · injection h with _ h
            simp only [← h, List.length_cons]
            omega
          · simp at h
      · simp at h

/-- Skips the empty lines in front. -/
def skipEmptyLines : Bytes → Scan Unit
  | [] => .short
  | x :: bs =>
    if x = Bytes.lf then skipEmptyLines bs
    else if x = Bytes.cr then
      match bs with
      | [] => .short
      | y :: bs' => if y = Bytes.lf then skipEmptyLines bs' else .bad .newLine
    else .found () (x :: bs)

theorem skipEmptyLines_length : ∀ {b rest : Bytes},
    skipEmptyLines b = .found () rest → rest.length ≤ b.length
  | [], _, h => by simp [skipEmptyLines] at h
  | [x], rest, h => by
    simp only [skipEmptyLines] at h
    split at h
    · simp at h
    · split at h
      · simp at h
      · injection h with _ h
        simp [← h]
  | x :: y :: bs, rest, h => by
    rw [skipEmptyLines] at h
    split at h
    · have := skipEmptyLines_length h
      simp only [List.length_cons] at this ⊢
      omega
    · split at h
      · split at h
        · have := skipEmptyLines_length h
          simp only [List.length_cons] at this ⊢
          omega
        · simp at h
      · injection h with _ h
        simp [← h]

/-! ### The status line -/

/-- What is read of a status line: the number its three digits denote, and the
reason as it stands on the line. -/
structure StatusLine where
  version : Version
  code : Nat
  reason : Bytes := []
  deriving DecidableEq, Repr

/-- The part of a version that every version starts with. -/
def versionStem : Bytes := Bytes.ofText "HTTP/1."

/-- Takes `HTTP/1.0` or `HTTP/1.1`. -/
def scanVersion (b : Bytes) : Scan Version :=
  if Bytes.isShorter 8 b then
    if b.isPrefixOf versionStem then .short else .bad .version
  else if b.take 8 = versionStem ++ [48] then .found .http10 (b.drop 8)
  else if b.take 8 = versionStem ++ [49] then .found .http11 (b.drop 8)
  else .bad .version

theorem scanVersion_length {b rest : Bytes} {v : Version} (h : scanVersion b = .found v rest) :
    rest.length ≤ b.length := by
  unfold scanVersion at h
  split at h
  · split at h <;> simp at h
  · split at h
    · injection h with _ h
      simp [← h]
    · split at h
      · injection h with _ h
        simp [← h]
      · simp at h

/-- Takes one digit. -/
def scanDigit : Bytes → Scan Nat
  | [] => .short
  | x :: bs => if Bytes.isDigit x then .found (x.toNat - 48) bs else .bad .status

theorem scanDigit_length {b rest : Bytes} {d : Nat} (h : scanDigit b = .found d rest) :
    rest.length < b.length := by
  unfold scanDigit at h
  split at h
  · simp at h
  · split at h
    · injection h with _ h
      simp [← h]
    · simp at h

/-- Takes a space and three digits. -/
def scanCode : Bytes → Scan Nat
  | [] => .short
  | x :: b0 =>
    if x ≠ 32 then .bad .version
    else match scanDigit b0 with
      | .short => .short
      | .bad fault => .bad fault
      | .found d1 b1 =>
        match scanDigit b1 with
        | .short => .short
        | .bad fault => .bad fault
        | .found d2 b2 =>
          match scanDigit b2 with
          | .short => .short
          | .bad fault => .bad fault
          | .found d3 b3 => .found (100 * d1 + 10 * d2 + d3) b3

theorem scanCode_length {b rest : Bytes} {n : Nat} (h : scanCode b = .found n rest) :
    rest.length < b.length := by
  unfold scanCode at h
  split at h
  · simp at h
  · split at h
    · simp at h
    · split at h <;> try simp at h
      next h1 =>
        split at h <;> try simp at h
        next h2 =>
          split at h <;> try simp at h
          next h3 =>
            have := scanDigit_length h1
            have := scanDigit_length h2
            have := scanDigit_length h3
            simp only [← h.2, List.length_cons]
            omega

/-- A reason that has a byte outside ASCII is not kept. -/
def keptReason (b : Bytes) : Bytes := if b.all (· < 128) then b else []

/-- Takes what is behind the code: nothing, or a space and a reason, and the
line end. -/
def scanReason : Bytes → Scan Bytes
  | [] => .short
  | x :: bs =>
    if x = 32 then
      match scanLineEnd .status (bs.dropWhile Bytes.isValueByte) with
      | .short => .short
      | .bad fault => .bad fault
      | .found _ rest => .found (keptReason (bs.takeWhile Bytes.isValueByte)) rest
    else match scanLineEnd .status (x :: bs) with
      | .short => .short
      | .bad fault => .bad fault
      | .found _ rest => .found [] rest

theorem scanReason_length {b rest reason : Bytes} (h : scanReason b = .found reason rest) :
    rest.length < b.length := by
  unfold scanReason at h
  split at h
  · simp at h
  · next x bs =>
    split at h
    · split at h
      · simp at h
      · simp at h
      · next hl =>
        injection h with _ h
        subst h
        have h1 := scanLineEnd_length hl
        have h2 := (List.dropWhile_suffix (l := bs) Bytes.isValueByte).length_le
        simp only [List.length_cons]
        omega
    · split at h
      · simp at h
      · simp at h
      · next hl =>
        injection h with _ h
        exact h ▸ scanLineEnd_length hl

/-! ### Fields -/

/-- Takes a name, which a colon follows. -/
def scanName (b : Bytes) : Scan FieldName :=
  match b.dropWhile Bytes.isTokenByte with
  | [] => .short
  | x :: rest =>
    if h : x = 58 ∧ b.takeWhile Bytes.isTokenByte ≠ [] then
      .found (FieldName.ofToken (b.takeWhile Bytes.isTokenByte) h.2
        (fun _ hx => List.all_eq_true.mp List.all_takeWhile _ hx)) rest
    else .bad .fieldName

/-- What remains of a value when the blanks at either end are gone. -/
def trimmedValue (b : Bytes) (h : ∀ x ∈ b, Bytes.isValueByte x = true) : FieldValue where
  bytes := Bytes.trim b
  isValue := fun x hx => by
    refine h x ?_
    have h1 : x ∈ (b.dropWhile Bytes.isBlank).reverse :=
      (List.dropWhile_suffix _).subset (List.mem_reverse.mp hx)
    exact (List.dropWhile_suffix _).subset (List.mem_reverse.mp h1)

/-- Takes a value and its line end. -/
def scanValue (b : Bytes) : Scan FieldValue :=
  match scanLineEnd .fieldValue (b.dropWhile Bytes.isValueByte) with
  | .short => .short
  | .bad fault => .bad fault
  | .found _ rest =>
    .found (trimmedValue (b.takeWhile Bytes.isValueByte)
      (fun _ hx => List.all_eq_true.mp List.all_takeWhile _ hx)) rest

/-- Takes a field line. -/
def scanField (b : Bytes) : Scan (FieldName × FieldValue) :=
  match scanName b with
  | .short => .short
  | .bad fault => .bad fault
  | .found name b1 =>
    match scanValue b1 with
    | .short => .short
    | .bad fault => .bad fault
    | .found value b2 => .found (name, value) b2

theorem scanField_length {b rest : Bytes} {f : FieldName × FieldValue}
    (h : scanField b = .found f rest) : rest.length < b.length := by
  unfold scanField at h
  split at h <;> try simp at h
  next h1 =>
    split at h <;> try simp at h
    next b1 _ _ b2 h2 =>
      have l1 : b1.length ≤ b.length := by
        unfold scanName at h1
        split at h1
        · simp at h1
        · next x tail hx =>
          have hd := (List.dropWhile_suffix (l := b) Bytes.isTokenByte).length_le
          rw [hx] at hd
          split at h1
          · injection h1 with _ h1
            rw [← h1]
            simp at hd
            omega
          · simp at h1
      have l2 : b2.length < b1.length := by
        unfold scanValue at h2
        split at h2 <;> try simp at h2
        next h3 =>
          have := scanLineEnd_length h3
          have := (List.dropWhile_suffix (l := b1) Bytes.isValueByte).length_le
          rw [← h2.2]
          omega
      rw [← h.2]
      omega

/-- Takes field lines, at most `room` of them, and the empty line behind them. -/
def scanFields (room : Nat) (b : Bytes) : Scan (List (FieldName × FieldValue)) :=
  match b with
  | [] => .short
  | x :: _ =>
    if x = Bytes.lf ∨ x = Bytes.cr then
      match scanLineEnd .newLine b with
      | .short => .short
      | .bad fault => .bad fault
      | .found _ rest => .found [] rest
    else match scanField b with
      | .short => .short
      | .bad fault => .bad fault
      | .found field b1 =>
        match room with
        | 0 => .bad .tooManyFields
        | room + 1 =>
          match scanFields room b1 with
          | .short => .short
          | .bad fault => .bad fault
          | .found fields rest => .found (field :: fields) rest

theorem scanFields_length : ∀ {room : Nat} {b rest : Bytes} {fs : List (FieldName × FieldValue)},
    scanFields room b = .found fs rest → rest.length < b.length
  | room, b, rest, fs, h => by
    unfold scanFields at h
    split at h
    · simp at h
    · split at h
      · split at h <;> try simp at h
        next hl =>
          exact h.2 ▸ scanLineEnd_length hl
      · split at h <;> try simp at h
        next hf =>
          have l1 := scanField_length hf
          split at h
          · simp at h
          · split at h <;> try simp at h
            next hr =>
              have l2 := scanFields_length hr
              rw [← h.2]
              omega

/-! ### The head -/

/-- A scan of a whole head. -/
inductive HeadScan where
  | complete (line : StatusLine) (fields : List (FieldName × FieldValue)) (rest : Bytes)
  /-- The bytes end inside the head. -/
  | open
  /-- A fault, and the status line before it as far as it was read, if its
  code was. -/
  | malformed (fault : HeadFault) (line : Option StatusLine)
  deriving DecidableEq

/-- Scans the header section behind a status line. -/
def scanSection (line : StatusLine) (b : Bytes) : HeadScan :=
  match scanFields fieldLimit b with
  | .short => .open
  | .bad fault => .malformed fault (some line)
  | .found fields rest => .complete line fields rest

/-- Scans the reason and the header section behind a version and a code. -/
def scanAfterCode (version : Version) (code : Nat) (b : Bytes) : HeadScan :=
  match scanReason b with
  | .short => .open
  | .bad fault => .malformed fault (some { version, code })
  | .found reason rest => scanSection { version, code, reason } rest

/-- Scans a head from the front of the bytes. -/
def scanHead (b : Bytes) : HeadScan :=
  match skipEmptyLines b with
  | .short => .open
  | .bad fault => .malformed fault none
  | .found _ b1 =>
    match scanVersion b1 with
    | .short => .open
    | .bad fault => .malformed fault none
    | .found version b2 =>
      match scanCode b2 with
      | .short => .open
      | .bad fault => .malformed fault none
      | .found code b3 => scanAfterCode version code b3

/-- A complete head takes bytes. -/
theorem scanHead_length {b rest : Bytes} {line : StatusLine}
    {fs : List (FieldName × FieldValue)} (h : scanHead b = .complete line fs rest) :
    rest.length < b.length := by
  unfold scanHead at h
  split at h <;> try simp at h
  next h1 =>
    split at h <;> try simp at h
    next h2 =>
      split at h <;> try simp at h
      next h3 =>
        unfold scanAfterCode at h
        split at h <;> try simp at h
        next h4 =>
          unfold scanSection at h
          split at h <;> try simp at h
          next h5 =>
            have := skipEmptyLines_length h1
            have := scanVersion_length h2
            have := scanCode_length h3
            have := scanReason_length h4
            have := scanFields_length h5
            rw [← h.2.2]
            omega

end Head
end Http1Client
