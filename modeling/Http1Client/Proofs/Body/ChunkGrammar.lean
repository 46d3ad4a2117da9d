/-
# The grammar of a chunked body

What a chunked body is, said of a whole byte string and without regard to how
it arrives: a row of chunks, each a size line, data and a line end, then a size
line that denotes zero and a trailer section (`Body`). A line holds no line
feed and has `lineLimit` bytes at most with its line end (`IsLine`); a size
line is digits, whitespace and maybe an extension behind a semicolon
(`IsSize`).

The readers of one line take exactly what the grammar says
(`takeLine_eq_line_iff`, `parseSize_eq_ok_iff`), and whether they take it does
not depend on what stands behind it.

Key definitions: `IsLine`, `IsSize`, `Trailer`, `Body`, `chunksIn`.
Key theorems: `takeLine_eq_line_iff`, `takeLine_append_of_bad`,
`parseSize_eq_ok_iff`, `chunksIn_of_body`.
-/
import Http1Client.Body.Chunked

namespace Http1Client
namespace Chunked

/-! ### Lines -/

/-- The text is a line: it can be told from its line end and is not too long. -/
def IsLine (text : Bytes) : Prop := Bytes.lf ∉ text ∧ text.length + 2 ≤ lineLimit

theorem bne_lf_eq_true {x : UInt8} : (x != Bytes.lf) = true ↔ x ≠ Bytes.lf := by simp

/-- The line feed of a line is found behind its text. -/
theorem span_line {text : Bytes} (h : Bytes.lf ∉ text) (rest : Bytes) :
    (text ++ Bytes.crlf ++ rest).takeWhile (· != Bytes.lf) = text ++ [Bytes.cr] ∧
      (text ++ Bytes.crlf ++ rest).dropWhile (· != Bytes.lf) = Bytes.lf :: rest := by
  have hall : ∀ x ∈ text ++ [Bytes.cr], (x != Bytes.lf) = true := by
    intro x hx
    rw [bne_lf_eq_true]
    rintro rfl
    rcases List.mem_append.mp hx with hx | hx
    · exact h hx
    · exact absurd (List.mem_singleton.mp hx) (by decide)
  have he : text ++ Bytes.crlf ++ rest = (text ++ [Bytes.cr]) ++ Bytes.lf :: rest := by
    simp [Bytes.crlf]
  rw [he, List.takeWhile_append_of_pos hall, List.dropWhile_append_of_pos hall]
  simp

theorem isLine_of_closeLine {up after text rest : Bytes} (hup : ∀ x ∈ up, x ≠ Bytes.lf)
    (h : closeLine up after = .line text rest) : IsLine text ∧ up = text ++ [Bytes.cr] := by
  unfold closeLine at h
  split at h
  · next hshort =>
    split at h
    · next hcr =>
      injection h with htext _
      obtain ⟨ys, hys⟩ := List.getLast?_eq_some_iff.mp hcr
      have htail : up = text ++ [Bytes.cr] := by rw [← htext, hys, List.dropLast_concat]
      have hnot : Bytes.lf ∉ text := by
        intro hmem
        exact hup Bytes.lf (htail ▸ List.mem_append_left _ hmem) rfl
      rw [Bytes.isShorter_iff, htail, List.length_append, List.length_singleton] at hshort
      exact ⟨⟨hnot, by omega⟩, htail⟩
    · simp at h
  · simp at h

theorem takeLine_of_isLine {text : Bytes} (h : IsLine text) (rest : Bytes) :
    takeLine (text ++ Bytes.crlf ++ rest) = .line text rest := by
  obtain ⟨hnot, hlen⟩ := h
  obtain ⟨h1, h2⟩ := span_line hnot rest
  have hshort : Bytes.isShorter lineLimit (text ++ [Bytes.cr]) = true := by
    rw [Bytes.isShorter_iff, List.length_append, List.length_singleton]
    omega
  unfold takeLine
  rw [h1, h2]
  dsimp only
  unfold closeLine
  rw [if_pos hshort]
  simp

/-- A line is split off exactly if one stands in front. -/
theorem takeLine_eq_line_iff {b text rest : Bytes} :
    takeLine b = .line text rest ↔ IsLine text ∧ b = text ++ Bytes.crlf ++ rest := by
  constructor
  · intro h
    unfold takeLine at h
    split at h
    · split at h <;> simp at h
    · next x after hd =>
      have hb := List.takeWhile_append_dropWhile (p := (· != Bytes.lf)) (l := b)
      have hx : x = Bytes.lf := by
        have := List.head?_dropWhile_not (· != Bytes.lf) b
        simpa [hd] using this
      have hup : ∀ y ∈ b.takeWhile (· != Bytes.lf), y ≠ Bytes.lf := fun y hy =>
        bne_lf_eq_true.mp (List.all_eq_true.mp List.all_takeWhile y hy)
      obtain ⟨hline, htext⟩ := isLine_of_closeLine hup h
      rw [hd, hx, closeLine_rest h, htext] at hb
      refine ⟨hline, ?_⟩
      rw [← hb]
      simp [Bytes.crlf]
  · rintro ⟨hline, rfl⟩
    exact takeLine_of_isLine hline rest

theorem takeLine_append_of_line {b text rest : Bytes} (h : takeLine b = .line text rest)
    (c : Bytes) : takeLine (b ++ c) = .line text (rest ++ c) := by
  obtain ⟨hline, rfl⟩ := takeLine_eq_line_iff.mp h
  exact takeLine_eq_line_iff.mpr ⟨hline, List.append_assoc ..⟩

/-- A bad line stays bad, whatever comes behind it. -/
theorem takeLine_append_of_bad {b : Bytes} {fault : BodyFault} (h : takeLine b = .bad fault)
    (c : Bytes) : takeLine (b ++ c) = .bad fault := by
  unfold takeLine at h
  split at h
  · next hd =>
    split at h
    · simp at h
    · next hlong =>
      injection h with h
      subst h
      rw [Bool.not_eq_true, Bytes.isShorter_eq_false] at hlong
      -- No line feed among the first `lineLimit` bytes: one behind them is too late.
      have hall : ∀ x ∈ b, (x != Bytes.lf) = true := by
        have hb := List.takeWhile_append_dropWhile (p := (· != Bytes.lf)) (l := b)
        rw [hd, List.append_nil] at hb
        rw [← hb]
        exact List.all_eq_true.mp List.all_takeWhile
      unfold takeLine
      rw [List.takeWhile_append_of_pos hall, List.dropWhile_append_of_pos hall]
      have hlong' : ∀ c' : Bytes, Bytes.isShorter lineLimit (b ++ c') = false := by
        intro c'
        rw [Bytes.isShorter_eq_false, List.length_append]
        omega
      split
      · simp [hlong']
      · simp [closeLine, hlong']
  · next x rest hd =>
    obtain ⟨h1, h2⟩ := Bytes.span_append _ hd c
    unfold takeLine
    rw [h1, h2]
    dsimp only
    unfold closeLine at h ⊢
    split at h
    · next hs =>
      split at h
      · simp at h
      · next hcr => rw [if_pos hs, if_neg hcr, h]
    · next hs => rw [if_neg hs, h]

/-! ### Size lines -/

/-- The text of a size line that denotes `n`. -/
def IsSize (text : Bytes) (n : Nat) : Prop :=
  ∃ digits blanks extension, text = digits ++ blanks ++ extension ∧
    Numeral.ofHex? digits = some n ∧ n < Numeral.wordBound ∧
    (∀ x ∈ blanks, Bytes.isAsciiSpace x = true) ∧ (extension = [] ∨ extension.head? = some 59)

/-- A digit is neither whitespace nor a semicolon. -/
theorem digitValue?_isSome {x : UInt8} (h : (Numeral.digitValue? x).isSome = true) :
    Bytes.isAsciiSpace x = false ∧ x ≠ 59 := by
  constructor
  · rw [← Bool.not_eq_true]
    intro hs
    simp only [Bytes.isAsciiSpace, Bool.or_eq_true, beq_iff_eq] at hs
    rcases hs with (((rfl | rfl) | rfl) | rfl) | rfl <;> simp [Numeral.digitValue?] at h
  · rintro rfl
    simp [Numeral.digitValue?] at h

theorem isSome_of_mapM {b : Bytes} {ds : List Nat} (h : b.mapM Numeral.digitValue? = some ds) :
    ∀ x ∈ b, (Numeral.digitValue? x).isSome = true := by
  induction b generalizing ds with
  | nil => simp
  | cons y b ih =>
    rw [List.mapM_cons] at h
    cases hy : Numeral.digitValue? y with
    | none => simp [hy] at h
    | some d =>
      cases hb : b.mapM Numeral.digitValue? with
      | none => simp [hy, hb] at h
      | some es =>
        intro x hx
        rcases List.mem_cons.mp hx with rfl | hx
        · simp [hy]
        · exact ih hb x hx

theorem ofHex?_eq_some {b : Bytes} {n : Nat} (h : Numeral.ofHex? b = some n) :
    b ≠ [] ∧ ∀ x ∈ b, (Numeral.digitValue? x).isSome = true := by
  unfold Numeral.ofHex? at h
  split at h
  · simp at h
  · next hne =>
    obtain ⟨ds, hds, -⟩ := Option.map_eq_some_iff.mp h
    exact ⟨hne, isSome_of_mapM hds⟩

/-- What is trimmed off the end is a run of the class. -/
theorem trimEnd_append (p : UInt8 → Bool) (b : Bytes) :
    ∃ run, b = Bytes.trimEnd p b ++ run ∧ ∀ x ∈ run, p x = true := by
  refine ⟨(b.reverse.takeWhile p).reverse, ?_, fun x hx => ?_⟩
  · unfold Bytes.trimEnd
    rw [← List.reverse_append, List.takeWhile_append_dropWhile, List.reverse_reverse]
  · exact List.all_eq_true.mp List.all_takeWhile x (List.mem_reverse.mp hx)

/-- A run of the class behind a byte outside it is trimmed off. -/
theorem trimEnd_of_run {p : UInt8 → Bool} {b run : Bytes} (hrun : ∀ x ∈ run, p x = true)
    (hb : ∀ x ∈ b.getLast?, p x = false) : Bytes.trimEnd p (b ++ run) = b := by
  unfold Bytes.trimEnd
  rw [List.reverse_append,
    List.dropWhile_append_of_pos fun x hx => hrun x (List.mem_reverse.mp hx)]
  have hkeep : b.reverse.dropWhile p = b.reverse := by
    cases hr : b.reverse with
    | nil => rfl
    | cons y ys =>
      have hlast : b.getLast? = some y := by
        rw [← List.head?_reverse, hr]
        rfl
      exact List.dropWhile_cons_of_neg (by simp [hb y hlast])
  rw [hkeep, List.reverse_reverse]

theorem isSize_of_parseSize {text : Bytes} {n : Nat} (h : parseSize text = .ok n) :
    IsSize text n := by
  unfold parseSize at h
  dsimp only at h
  split at h
  · simp at h
  · split at h
    · simp at h
    · next m hm =>
      split at h
      · next hlt =>
        injection h with h
        subst h
        obtain ⟨run, hrun, hspace⟩ := trimEnd_append Bytes.isAsciiSpace (text.takeWhile (· != 59))
        refine ⟨_, run, text.dropWhile (· != 59), ?_, hm, hlt, hspace, ?_⟩
        · rw [← hrun, List.takeWhile_append_dropWhile]
        · cases hd : text.dropWhile (· != 59) with
          | nil => exact .inl rfl
          | cons y ys =>
            have := List.head?_dropWhile_not (· != (59 : UInt8)) text
            right
            simpa [hd] using this
      · simp at h

/-- Digits, whitespace and an extension behind a semicolon are told apart. -/
theorem parseSize_of_digits {digits blanks extension : Bytes} {n : Nat}
    (hn : Numeral.ofHex? digits = some n) (hblanks : ∀ x ∈ blanks, Bytes.isAsciiSpace x = true)
    (hext : extension = [] ∨ extension.head? = some 59) :
    parseSize (digits ++ blanks ++ extension) =
      if n < Numeral.wordBound then .ok n else .error .sizeOverflow := by
  obtain ⟨hne, hdigits⟩ := ofHex?_eq_some hn
  have hpos : ∀ x ∈ digits ++ blanks, (x != 59) = true := by
    intro x hx
    rcases List.mem_append.mp hx with hx | hx
    · simpa using (digitValue?_isSome (hdigits x hx)).2
    · have := hblanks x hx
      rw [bne_iff_ne]
      rintro rfl
      simp [Bytes.isAsciiSpace] at this
  have hnone : extension.takeWhile (· != 59) = [] := by
    rcases hext with rfl | hext
    · rfl
    · cases extension with
      | nil => rfl
      | cons y ys =>
        obtain rfl : y = 59 := by simpa using hext
        simp
  have htake : (digits ++ blanks ++ extension).takeWhile (· != 59) = digits ++ blanks := by
    rw [List.takeWhile_append_of_pos hpos, hnone, List.append_nil]
  have htrim : Bytes.trimEnd Bytes.isAsciiSpace (digits ++ blanks) = digits :=
    trimEnd_of_run hblanks fun x hx =>
      (digitValue?_isSome (hdigits x (List.mem_of_getLast? hx))).1
  unfold parseSize
  simp only [htake, htrim, hne, if_false, hn]

theorem parseSize_of_isSize {text : Bytes} {n : Nat} (h : IsSize text n) :
    parseSize text = .ok n := by
  obtain ⟨digits, blanks, extension, rfl, hn, hlt, hblanks, hext⟩ := h
  rw [parseSize_of_digits hn hblanks hext, if_pos hlt]

/-- A size is read exactly off what the grammar calls a size line. -/
theorem parseSize_eq_ok_iff {text : Bytes} {n : Nat} : parseSize text = .ok n ↔ IsSize text n :=
  ⟨isSize_of_parseSize, parseSize_of_isSize⟩

/-! ### Bodies -/

/-- A trailer section: lines with text and an empty line. -/
inductive Trailer : Bytes → Prop where
  | done : Trailer Bytes.crlf
  | field {text t : Bytes} : text ≠ [] → IsLine text → Trailer t →
      Trailer (text ++ Bytes.crlf ++ t)

/-- A whole chunked body, and the data of its chunks. -/
inductive Body : List Bytes → Bytes → Prop where
  | last {text t : Bytes} : IsLine text → IsSize text 0 → Trailer t →
      Body [] (text ++ Bytes.crlf ++ t)
  | chunk {text x b : Bytes} {ds : List Bytes} : IsLine text → IsSize text x.length → x ≠ [] →
      Body ds b → Body (x :: ds) (text ++ Bytes.crlf ++ (x ++ (Bytes.crlf ++ b)))

/-- The data of the chunks that stand at the front of the bytes. The last one
may lack the line end behind its data. -/
def chunksIn (b : Bytes) : List Bytes :=
  match _taken : takeLine b with
  | .line text rest =>
    match parseSize text with
    | .ok n =>
      if n = 0 ∨ rest.length < n then []
      else
        rest.take n ::
          match _behind : rest.drop n with
          | x :: y :: b' => if x = Bytes.cr ∧ y = Bytes.lf then chunksIn b' else []
          | _ => []
    | .error _ => []
  | _ => []
termination_by b.length
decreasing_by
  have h1 := takeLine_length _taken
  have h2 := congrArg List.length _behind
  simp only [List.length_drop, List.length_cons] at h2
  omega

/-- The chunks behind the data of a chunk. -/
def chunksBehind : Bytes → List Bytes
  | x :: y :: b => if x = Bytes.cr ∧ y = Bytes.lf then chunksIn b else []
  | _ => []

theorem chunksIn_of_line {b text rest : Bytes} {n : Nat} (h : takeLine b = .line text rest)
    (hn : parseSize text = .ok n) : chunksIn b =
      if n = 0 ∨ rest.length < n then [] else rest.take n :: chunksBehind (rest.drop n) := by
  rw [chunksIn]
  split
  · next h' =>
    rw [h, Line.line.injEq] at h'
    obtain ⟨rfl, rfl⟩ := h'
    rw [hn]
    dsimp only
    split
    · rfl
    · unfold chunksBehind
      split <;> simp_all
  · next h' => exact absurd h (h' _ _)

theorem chunksBehind_crlf (b : Bytes) : chunksBehind (Bytes.crlf ++ b) = chunksIn b := by
  simp [Bytes.crlf, chunksBehind]

/-- A whole body at the front of the bytes has the chunks that the grammar
says, whatever stands behind it. -/
theorem chunksIn_of_body {ds : List Bytes} {body : Bytes} (h : Body ds body) (r : Bytes) :
    chunksIn (body ++ r) = ds := by
  induction h with
  | @last text t hline hsize _ =>
    have htake : takeLine (text ++ Bytes.crlf ++ t ++ r) = .line text (t ++ r) :=
      takeLine_eq_line_iff.mpr ⟨hline, List.append_assoc ..⟩
    rw [chunksIn_of_line htake (parseSize_eq_ok_iff.mpr hsize), if_pos (.inl rfl)]
  | @chunk text x b ds hline hsize hne _ ih =>
    have htake : takeLine (text ++ Bytes.crlf ++ (x ++ (Bytes.crlf ++ b)) ++ r) =
        .line text (x ++ (Bytes.crlf ++ (b ++ r))) :=
      takeLine_eq_line_iff.mpr ⟨hline, by simp⟩
    have hpos := List.length_pos_iff.mpr hne
    rw [chunksIn_of_line htake (parseSize_eq_ok_iff.mpr hsize), if_neg (by simp; omega),
      List.take_left, List.drop_left, chunksBehind_crlf, ih]

end Chunked
end Http1Client
