/-
# Heads come back as they were written

A server writes a head as a status line, a line for each field and an empty
line (`WrittenHead.print`). Its names may have letters of either case, any name
may stand on any number of lines, and a value may be empty.

Such a head is read back: each scan takes its own part of the text and leaves
what stands behind it, so that a head of at most 64 fields and 8192 bytes is
taken whole and the bytes of the body stay (`WrittenHead.takeHead_print`). A
name has the values of its lines, whatever the case of its letters there, in
the order of the lines.

Key definitions: `Bytes.IsTrimmed`, `WrittenField`, `WrittenHead`,
`WrittenHead.print`, `WrittenHead.response`.
Key theorems: `Bytes.trim_eq_iff`, `Head.scanFields_lines`,
`WrittenHead.isHead_print`, `WrittenHead.takeHead_print`.
-/
import Mathlib.Data.List.TakeWhile
import Http1Client.Proofs.Head.FieldLines
import Http1Client.Proofs.Head.Taking

namespace Http1Client

/-! ### Blanks at the ends -/

namespace Bytes

/-- No blank stands at either end. -/
structure IsTrimmed (b : Bytes) : Prop where
  first : ∀ x ∈ b.head?, isBlank x = false
  last : ∀ x ∈ b.getLast?, isBlank x = false

variable {b core before behind : Bytes}

theorem trim_of_blanks (hcore : core.IsTrimmed) (hbefore : ∀ x ∈ before, isBlank x = true)
    (hbehind : ∀ x ∈ behind, isBlank x = true) : trim (before ++ core ++ behind) = core := by
  rw [trim, List.append_assoc, List.dropWhile_append_of_pos hbefore]
  cases core with
  | nil =>
    rw [List.nil_append, List.dropWhile_eq_nil_iff.mpr hbehind]
    rfl
  | cons x xs =>
    have hx : isBlank x = false := hcore.first x rfl
    rw [List.cons_append, List.dropWhile_cons_of_neg (by simp [hx]), ← List.cons_append]
    exact Chunked.trimEnd_of_run hbehind hcore.last

theorem isTrimmed_trim (b : Bytes) : (trim b).IsTrimmed := by
  obtain ⟨run, hrun, -⟩ := Chunked.trimEnd_append isBlank (b.dropWhile isBlank)
  constructor
  · intro x hx
    have hfirst : (b.dropWhile isBlank).head? = some x := by
      rw [hrun, List.head?_append]
      exact Option.or_eq_some_iff.mpr (.inl hx)
    have hnot := List.head?_dropWhile_not isBlank b
    simpa [hfirst] using hnot
  · intro x hx
    have hlast : ((b.dropWhile isBlank).reverse.dropWhile isBlank).head? = some x := by
      rw [← List.getLast?_reverse]
      exact hx
    have hnot := List.head?_dropWhile_not isBlank (b.dropWhile isBlank).reverse
    simpa [hlast] using hnot

/-- Trimming takes the blanks at both ends, and nothing else. -/
theorem trim_eq_iff : trim b = core ↔ core.IsTrimmed ∧ ∃ before behind,
    b = before ++ core ++ behind ∧ (∀ x ∈ before, isBlank x = true) ∧
      ∀ x ∈ behind, isBlank x = true := by
  constructor
  · rintro rfl
    obtain ⟨run, hrun, hblank⟩ := Chunked.trimEnd_append isBlank (b.dropWhile isBlank)
    refine ⟨isTrimmed_trim b, b.takeWhile isBlank, run, ?_, ?_, hblank⟩
    · calc
        b = b.takeWhile isBlank ++ b.dropWhile isBlank := List.takeWhile_append_dropWhile.symm
        _ = b.takeWhile isBlank ++ (trim b ++ run) := by rw [trim, ← hrun]
        _ = b.takeWhile isBlank ++ trim b ++ run := (List.append_assoc ..).symm
    · exact fun x hx => List.all_eq_true.mp List.all_takeWhile x hx
  · rintro ⟨hcore, before, behind, rfl, hbefore, hbehind⟩
    exact trim_of_blanks hcore hbefore hbehind

end Bytes

/-! ### Heads as they are written -/

/-- A field as a server writes it: its name in letters of any case, and a value
without blanks at its ends. -/
structure WrittenField where
  name : Bytes
  value : FieldValue
  ne_nil : name ≠ []
  isToken : ∀ x ∈ name, Bytes.isTokenByte x = true
  isTrimmed : value.bytes.IsTrimmed

namespace WrittenField

/-- The field that is written. -/
def field (f : WrittenField) : FieldName × FieldValue :=
  (FieldName.ofToken f.name f.ne_nil f.isToken, f.value)

/-- The line of the field. -/
def line (f : WrittenField) : Bytes := f.name ++ [58, 32] ++ f.value.bytes ++ Bytes.crlf

end WrittenField

/-- A head as a server writes it. -/
structure WrittenHead where
  version : Version
  status : StatusCode
  reason : Bytes
  fields : List WrittenField
  isVersion : version = .http10 ∨ version = .http11
  isPrintable : ∀ x ∈ reason, Bytes.isPrintable x = true

namespace WrittenHead

/-- The status line. -/
def statusLine (h : WrittenHead) : Bytes :=
  Bytes.ofText h.version.text ++ [32] ++ Numeral.decimal h.status.code ++ [32] ++ h.reason ++
    Bytes.crlf

/-- The text of the head. -/
def print (h : WrittenHead) : Bytes :=
  h.statusLine ++ h.fields.flatMap WrittenField.line ++ Bytes.crlf

/-- The response that the head is. -/
def response (h : WrittenHead) : Response where
  status := some h.status
  reason := Bytes.toText (Bytes.trim h.reason)
  version := h.version
  fields := .ofList (h.fields.map WrittenField.field)

end WrittenHead

/-! ### One scan for each part -/

namespace Head

/-- A run ends before the first byte outside its class. -/
theorem scanRun_of_run {p : UInt8 → Bool} {run : Bytes} {x : UInt8} (hrun : ∀ y ∈ run, p y = true)
    (hx : p x = false) (rest : Bytes) :
    scanRun p (run ++ x :: rest) = .found ⟨run, hrun⟩ (x :: rest) := by
  have hdrop : (run ++ x :: rest).dropWhile p = x :: rest := by
    rw [List.dropWhile_append_of_pos hrun, List.dropWhile_cons_of_neg (by simp [hx])]
  have htake : (run ++ x :: rest).takeWhile p = run := by
    rw [List.takeWhile_append_of_pos hrun, List.takeWhile_cons_of_neg (by simp [hx]),
      List.append_nil]
  simp only [scanRun, hdrop, htake]

theorem scanLineEnd_crlf (fault : HeadFault) (rest : Bytes) :
    scanLineEnd fault (Bytes.crlf ++ rest) = .found () rest := rfl

theorem length_text {version : Version} (h : version = .http10 ∨ version = .http11) :
    (Bytes.ofText version.text).length = 8 := by
  rcases h with rfl | rfl <;> decide

theorem scanVersion_text {version : Version} (h : version = .http10 ∨ version = .http11)
    (rest : Bytes) : scanVersion (Bytes.ofText version.text ++ rest) = .found version rest := by
  have hold : Bytes.ofText Version.http10.text = versionStem ++ [48] := by decide
  have hnew : Bytes.ofText Version.http11.text = versionStem ++ [49] := by decide
  have hlen := length_text h
  rw [scanVersion_of_length (by rw [List.length_append]; omega), List.take_left' hlen,
    List.drop_left' hlen]
  rcases h with rfl | rfl
  · rw [if_pos hold]
  · rw [hnew, if_neg (by simp), if_pos rfl]

theorem scanDigit_digit {d : Nat} (hd : d < 10) (rest : Bytes) :
    scanDigit (Numeral.digit d :: rest) = .found d rest := by
  have hdigit : ∀ d < 10, Bytes.isDigit (Numeral.digit d) = true ∧
      (Numeral.digit d).toNat - 48 = d := by decide
  obtain ⟨hclass, hvalue⟩ := hdigit d hd
  rw [scanDigit, if_pos hclass, hvalue]

/-- The number of a status is written in three digits. -/
theorem decimal_status (s : StatusCode) : Numeral.decimal s.code =
    [Numeral.digit (s.code / 100), Numeral.digit (s.code / 10 % 10),
      Numeral.digit (s.code % 10)] := by
  have hlower := s.lower
  have hupper := s.upper
  have hdiv : s.code / 10 / 10 = s.code / 100 := Nat.div_div_eq_div_mul ..
  rw [Numeral.decimal, if_neg (by omega), Numeral.decimal, if_neg (by omega), Numeral.decimal,
    if_pos (by omega), hdiv]
  rfl

theorem scanCode_status (s : StatusCode) (rest : Bytes) :
    scanCode (32 :: (Numeral.decimal s.code ++ rest)) = .found s.code rest := by
  have hupper := s.upper
  have hdigits : scanDigits (Numeral.decimal s.code ++ rest) = .found s.code rest := by
    rw [decimal_status, scanDigits]
    show andThen scanDigit _ (Numeral.digit _ :: Numeral.digit _ :: Numeral.digit _ :: rest) = _
    rw [andThen_of_found (scanDigit_digit (by omega) _),
      andThen_of_found (scanDigit_digit (by omega) _),
      andThen_of_found (scanDigit_digit (by omega) _)]
    have hsum : 100 * (s.code / 100) + 10 * (s.code / 10 % 10) + s.code % 10 = s.code := by omega
    rw [hsum]
  rw [scanCode_cons, if_neg (by decide)]
  exact hdigits

/-- A line end is no part of a value. -/
theorem scanRun_value {run : Bytes} (hrun : ∀ x ∈ run, Bytes.isValueByte x = true) (rest : Bytes) :
    scanRun Bytes.isValueByte (run ++ (Bytes.crlf ++ rest)) =
      .found ⟨run, hrun⟩ (Bytes.crlf ++ rest) :=
  scanRun_of_run hrun (by decide) (Bytes.lf :: rest)

/-- A printable byte is one of a value, and is ASCII. -/
theorem isValueByte_of_isPrintable {x : UInt8} (h : Bytes.isPrintable x = true) :
    Bytes.isValueByte x = true ∧ x < 128 := by
  simp only [Bytes.isPrintable, Bytes.isValueByte, Bool.or_eq_true, Bool.and_eq_true, beq_iff_eq,
    bne_iff_ne, decide_eq_true_eq] at h ⊢
  grind

theorem scanReason_text {reason : Bytes} (h : ∀ x ∈ reason, Bytes.isPrintable x = true)
    (rest : Bytes) :
    scanReason (32 :: (reason ++ (Bytes.crlf ++ rest))) = .found reason rest := by
  have hrun : ∀ x ∈ reason, Bytes.isValueByte x = true :=
    fun x hx => (isValueByte_of_isPrintable (h x hx)).1
  have hkept : keptReason reason = reason := by
    apply if_pos
    rw [List.all_eq_true]
    exact fun x hx => decide_eq_true (isValueByte_of_isPrintable (h x hx)).2
  have htext : scanReasonText (reason ++ (Bytes.crlf ++ rest)) = .found reason rest := by
    rw [scanReasonText, andThen_of_found (scanRun_value hrun rest),
      andThen_of_found (scanLineEnd_crlf .status rest), hkept]
  rw [scanReason_cons, if_pos rfl]
  exact htext

theorem trimmedValue_of_trim {b : Bytes} {v : FieldValue}
    (hb : ∀ x ∈ b, Bytes.isValueByte x = true) (h : Bytes.trim b = v.bytes) :
    trimmedValue b hb = v := by
  cases v with
  | mk bytes isValue =>
    subst h
    rfl

/-- A field line is read as the field that is written. -/
theorem scanField_line (f : WrittenField) (rest : Bytes) :
    scanField (f.line ++ rest) = .found f.field rest := by
  have hname : scanName (f.name ++ 58 :: (32 :: f.value.bytes ++ (Bytes.crlf ++ rest))) =
      .found f.field.1 (32 :: f.value.bytes ++ (Bytes.crlf ++ rest)) := by
    rw [scanName_eq, andThen_of_found (scanRun_of_run f.isToken (by decide) _)]
    dsimp only
    rw [scanColon, dif_pos ⟨rfl, f.ne_nil⟩]
    rfl
  have hrun : ∀ x ∈ 32 :: f.value.bytes, Bytes.isValueByte x = true :=
    List.forall_mem_cons.mpr ⟨by decide, f.value.isValue⟩
  have htrim : Bytes.trim (32 :: f.value.bytes) = f.value.bytes := by
    have hspace : ∀ x ∈ [(32 : UInt8)], Bytes.isBlank x = true := by simp [Bytes.isBlank]
    have hnil : ∀ x ∈ ([] : Bytes), Bytes.isBlank x = true := by simp
    simpa using Bytes.trim_of_blanks f.isTrimmed hspace hnil
  have hvalue : scanValue (32 :: f.value.bytes ++ (Bytes.crlf ++ rest)) =
      .found f.value rest := by
    rw [scanValue_eq, andThen_of_found (scanRun_value hrun rest),
      andThen_of_found (scanLineEnd_crlf .fieldValue rest), trimmedValue_of_trim hrun htrim]
  have hline : f.line ++ rest =
      f.name ++ 58 :: (32 :: f.value.bytes ++ (Bytes.crlf ++ rest)) := by
    simp [WrittenField.line]
  rw [scanField_eq, hline, andThen_of_found hname, andThen_of_found hvalue]
  rfl

/-- The lines of a section are read as its fields, where there is room for
them. -/
theorem scanFields_lines (fields : List WrittenField) (rest : Bytes) :
    ∀ {room : Nat}, fields.length ≤ room →
      scanFields room (fields.flatMap WrittenField.line ++ (Bytes.crlf ++ rest)) =
        .found (fields.map WrittenField.field) rest := by
  induction fields with
  | nil =>
    intro room _
    show scanFields room (Bytes.cr :: Bytes.lf :: rest) = _
    rw [scanFields_cons, if_pos (.inr rfl)]
    exact andThen_of_found (scanLineEnd_crlf .newLine rest) _
  | cons f fs ih =>
    intro room hroom
    obtain ⟨x, xs, hname⟩ := List.exists_cons_of_ne_nil f.ne_nil
    have htoken : Bytes.isTokenByte x = true := f.isToken x (by rw [hname]; simp)
    -- The first byte of a name begins no line end.
    have hx : ¬ (x = Bytes.lf ∨ x = Bytes.cr) := by
      rintro (rfl | rfl)
      · exact absurd htoken (by decide)
      · exact absurd htoken (by decide)
    have hfield := scanField_line f (fs.flatMap WrittenField.line ++ (Bytes.crlf ++ rest))
    have hcons : f.line ++ (fs.flatMap WrittenField.line ++ (Bytes.crlf ++ rest)) =
        x :: (xs ++ [58, 32] ++ f.value.bytes ++ Bytes.crlf ++
          (fs.flatMap WrittenField.line ++ (Bytes.crlf ++ rest))) := by
      simp [WrittenField.line, hname]
    rw [List.flatMap_cons, List.append_assoc, hcons, scanFields_cons, if_neg hx, ← hcons,
      andThen_of_found hfield]
    cases room with
    | zero => simp at hroom
    | succ room =>
      have hlen : fs.length ≤ room := Nat.le_of_succ_le_succ hroom
      rw [scanMoreFields, andThen_of_found (ih hlen)]
      rfl

end Head

/-! ### The values of a name -/

namespace Fields

/-- A name has the values of its fields, in their order. -/
theorem values_ofList (fs : List (FieldName × FieldValue)) (n : FieldName) :
    (ofList fs).values n = (fs.filter fun x => decide (x.1 = n)).map Prod.snd := by
  suffices h : ∀ f : Fields, (fs.foldl (fun f x => f.append x.1 x.2) f).values n =
      f.values n ++ (fs.filter fun x => decide (x.1 = n)).map Prod.snd from h {}
  induction fs with
  | nil => exact fun f => (List.append_nil _).symm
  | cons x fs ih =>
    intro f
    rw [List.foldl_cons, ih]
    by_cases hx : x.1 = n
    · rw [List.filter_cons_of_pos (by simpa using hx), ← hx, values_append_self]
      simp
    · rw [List.filter_cons_of_neg (by simpa using hx), values_append_ne f (Ne.symm hx)]

/-- The names are those of the fields. -/
theorem mem_names_ofList (fs : List (FieldName × FieldValue)) (n : FieldName) :
    n ∈ (ofList fs).entries.map Prod.fst ↔ n ∈ fs.map Prod.fst := by
  suffices h : ∀ f : Fields, n ∈ (fs.foldl (fun f x => f.append x.1 x.2) f).entries.map Prod.fst ↔
      n ∈ f.entries.map Prod.fst ∨ n ∈ fs.map Prod.fst by
    have hnone : n ∉ ({} : Fields).entries.map Prod.fst := List.not_mem_nil
    exact (h {}).trans (or_iff_right hnone)
  induction fs with
  | nil => simp
  | cons x fs ih =>
    intro f
    rw [List.foldl_cons, ih, append, map_fst_alter, List.map_cons, List.mem_cons]
    by_cases hx : x.1 ∈ f.entries.map Prod.fst
    · rw [if_pos hx]
      constructor
      · rintro (h | h)
        · exact .inl h
        · exact .inr (.inr h)
      · rintro (h | rfl | h)
        · exact .inl h
        · exact .inl hx
        · exact .inr h
    · rw [if_neg hx, List.mem_append, List.mem_singleton, or_assoc]

end Fields

/-! ### The whole head -/

namespace WrittenHead

open Head

variable (h : WrittenHead)

theorem scanHead_print (hfields : h.fields.length ≤ fieldLimit) (rest : Bytes) :
    scanHead (h.print ++ rest) =
      .complete { version := h.version, code := h.status.code, reason := h.reason }
        (h.fields.map WrittenField.field) rest := by
  have hprint : h.print ++ rest = Bytes.ofText h.version.text ++
      32 :: (Numeral.decimal h.status.code ++ 32 :: (h.reason ++ (Bytes.crlf ++
        (h.fields.flatMap WrittenField.line ++ (Bytes.crlf ++ rest))))) := by
    simp [print, statusLine]
  have hskip : ∀ b, skipEmptyLines (Bytes.ofText h.version.text ++ b) =
      .found () (Bytes.ofText h.version.text ++ b) := by
    intro b
    have hfirst : ∃ tail, Bytes.ofText h.version.text = 72 :: tail := by
      rcases h.isVersion with hv | hv <;> rw [hv] <;> exact ⟨_, rfl⟩
    obtain ⟨tail, htail⟩ := hfirst
    rw [htail]
    exact skipEmptyLines_other (by decide) (by decide) (tail ++ b)
  have hopening : ∀ b, scanOpening (Bytes.ofText h.version.text ++
      32 :: (Numeral.decimal h.status.code ++ b)) = .found (h.version, h.status.code) b := by
    intro b
    rw [scanOpening, andThen_of_found (hskip _), andThen_of_found (scanVersion_text h.isVersion _),
      andThen_of_found (scanCode_status h.status b)]
  rw [hprint, scanHead_eq, headThen_of_found (hopening _), scanAfterCode_eq,
    headThen_of_found (scanReason_text h.isPrintable _), scanSection_eq,
    headThen_of_found (scanFields_lines h.fields rest hfields)]

theorem isHead_print {toHead : Bool} {framing : Framing} (hfields : h.fields.length ≤ fieldLimit)
    (hsize : h.print.length ≤ sizeLimit) (hframing : h.response.framing toHead = .ok framing) :
    IsHead toHead h.print h.response framing := by
  have hscan := h.scanHead_print hfields []
  rw [List.append_nil] at hscan
  have hstatus : StatusCode.ofNat? h.status.code = some h.status :=
    dif_pos ⟨h.status.lower, h.status.upper⟩
  refine ⟨_, _, { h.response with fields := {} }, hscan, ?_, rfl, hframing, hsize⟩
  rw [StatusLine.response?, hstatus]
  rfl

/-- Every head is long enough to be looked at. -/
theorem leastSize_le_print : leastSize ≤ h.print.length := by
  have hversion := length_text h.isVersion
  have hcode : (Numeral.decimal h.status.code).length = 3 := by
    rw [decimal_status]
    rfl
  have hend : Bytes.crlf.length = 2 := rfl
  simp only [print, statusLine, List.length_append, List.length_singleton, hversion, hcode, hend,
    leastSize]
  omega

/-- **A head is read back as it was written.** A head of at most 64 fields and
8192 bytes whose fields settle where the body ends is taken whole, whatever
stands behind it, and nothing else is. Each name has the values of its lines,
in the order of the lines and whatever the case of its letters there, no name
stands twice, and the reason is the text between the blanks. -/
theorem takeHead_print {toHead : Bool} {framing : Framing} (hfields : h.fields.length ≤ 64)
    (hsize : h.print.length ≤ 8192) (hframing : h.response.framing toHead = .ok framing) :
    (∀ salvaged rest, takeHead toHead salvaged (h.print ++ rest) =
      ⟨.item (h.response, framing), salvaged, rest⟩) ∧
    (∀ n, h.response.fields.values n =
      (h.fields.filter fun f => decide (f.name.map Bytes.lower = n.bytes)).map
        WrittenField.value) ∧
    (∀ n, n ∈ h.response.fields.entries.map Prod.fst ↔
      ∃ f ∈ h.fields, f.name.map Bytes.lower = n.bytes) ∧
    h.response.fields.Distinct ∧
    ∃ core before behind, h.response.reason = Bytes.toText core ∧ core.IsTrimmed ∧
      h.reason = before ++ core ++ behind ∧ (∀ x ∈ before, Bytes.isBlank x = true) ∧
        ∀ x ∈ behind, Bytes.isBlank x = true := by
  have hname : ∀ (f : WrittenField) (n : FieldName),
      f.field.1 = n ↔ f.name.map Bytes.lower = n.bytes :=
    fun f n => FieldName.ext_iff_bytes.symm
  refine ⟨fun salvaged rest => ?_, fun n => ?_, fun n => ?_, Fields.distinct_ofList _, ?_⟩
  · refine takeHead_eq_item_iff.mpr ⟨?_, rfl, h.print, rfl, h.isHead_print hfields hsize hframing⟩
    have hleast := h.leastSize_le_print
    rw [List.length_append]
    omega
  · have hfilter : (fun f : WrittenField => decide (f.field.1 = n)) =
        fun f => decide (f.name.map Bytes.lower = n.bytes) :=
      funext fun f => decide_eq_decide.mpr (hname f n)
    show (Fields.ofList _).values n = _
    rw [Fields.values_ofList, List.filter_map, List.map_map, ← hfilter]
    rfl
  · show n ∈ (Fields.ofList _).entries.map Prod.fst ↔ _
    rw [Fields.mem_names_ofList, List.map_map, List.mem_map]
    exact exists_congr fun f => and_congr_right fun _ => hname f n
  · obtain ⟨hcore, before, behind, hreason, hbefore, hbehind⟩ :=
      (Bytes.trim_eq_iff (b := h.reason)).mp rfl
    exact ⟨_, before, behind, rfl, hcore, hreason, hbefore, hbehind⟩

/-- A head with blanks around its reason, one name in two letter cases, and an
empty value. -/
def cookies : WrittenHead where
  version := .http11
  status := ⟨200, by decide, by decide⟩
  reason := Bytes.ofText " OK\t"
  fields := [
    ⟨Bytes.ofText "Set-Cookie", ⟨Bytes.ofText "a=1", by decide +kernel⟩, by decide +kernel,
      by decide +kernel, ⟨by decide +kernel, by decide +kernel⟩⟩,
    ⟨Bytes.ofText "X-Empty", ⟨[], by decide +kernel⟩, by decide +kernel, by decide +kernel,
      ⟨by decide +kernel, by decide +kernel⟩⟩,
    ⟨Bytes.ofText "set-cookie", ⟨Bytes.ofText "b=2", by decide +kernel⟩, by decide +kernel,
      by decide +kernel, ⟨by decide +kernel, by decide +kernel⟩⟩,
    ⟨Bytes.ofText "Content-Length", ⟨Bytes.ofText "3", by decide +kernel⟩, by decide +kernel,
      by decide +kernel, ⟨by decide +kernel, by decide +kernel⟩⟩]
  isVersion := .inr rfl
  isPrintable := by decide +kernel

theorem takeHead_print_cookies :
    (cookies.fields.length ≤ 64 ∧ cookies.print.length ≤ 8192 ∧
      cookies.response.framing false = .ok (.length 3)) ∧
    takeHead false none (Bytes.ofText "HTTP/1.1 200  OK\t\r\nSet-Cookie: a=1\r\nX-Empty: \r\n" ++
        Bytes.ofText "set-cookie: b=2\r\nContent-Length: 3\r\n\r\n" ++ Bytes.ofText "abcHTTP") =
      ⟨.item (cookies.response, .length 3), none, Bytes.ofText "abcHTTP"⟩ := by
  have hfields : cookies.fields.length ≤ 64 := by decide
  have hsize : cookies.print.length ≤ 8192 := by decide +kernel
  have hframing : cookies.response.framing false = .ok (.length 3) := by rfl
  have hprint : Bytes.ofText "HTTP/1.1 200  OK\t\r\nSet-Cookie: a=1\r\nX-Empty: \r\n" ++
      Bytes.ofText "set-cookie: b=2\r\nContent-Length: 3\r\n\r\n" = cookies.print := by
    decide +kernel
  obtain ⟨htaken, -⟩ := cookies.takeHead_print hfields hsize hframing
  rw [hprint]
  exact ⟨⟨hfields, hsize, hframing⟩, htaken none (Bytes.ofText "abcHTTP")⟩

end WrittenHead
end Http1Client
