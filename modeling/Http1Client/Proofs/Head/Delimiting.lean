/-
# The rule for where a body ends

What delimits the body behind a head is a rule on what the head says
(`Response.Delimits`), and the framing that is chosen is the one of the rule,
or none where the rule has none (`Response.framing_eq_ok_iff`,
`Response.framing_eq_error_iff`).

The rule for a length looks at every `content-length` value: cut at its commas
and freed of blanks, each piece is a row of decimal digits, and all of them
denote one number of 64 bits (`LengthField.Agree`). So neither the order of the
values, nor how the numerals are spread over them, nor the zeros in front of
one can make up another length (`Response.delimits_decoded`).

Key definitions: `Numeral.IsDecimal`, `LengthField.IsElement`,
`LengthField.Agree`, `Response.Delimits`.
Key theorems: `Numeral.ofDecimal?_eq_some_iff`, `LengthField.agreed_eq_some_iff`,
`Response.framing_eq_ok_iff`, `Response.delimits_decoded`.
-/
import Mathlib.Data.List.Induction
import Mathlib.Data.Nat.Digits.Defs
import Http1Client.Proofs.Head.ReadBack

namespace Http1Client

/-! ### Decimal numerals -/

namespace Numeral

/-- A row of decimal digits that denotes `n`; there may be zeros in front. -/
structure IsDecimal (b : Bytes) (n : Nat) : Prop where
  ne_nil : b ≠ []
  isDigit : ∀ x ∈ b, 48 ≤ x ∧ x ≤ 57
  denotes : Nat.ofDigits 10 (b.reverse.map fun x => x.toNat - 48) = n

theorem IsDecimal.unique {b : Bytes} {n m : Nat} (hn : IsDecimal b n) (hm : IsDecimal b m) :
    n = m :=
  hn.denotes.symm.trans hm.denotes

/-- The value of digits, first one first, by the library's value of digits, last
one first. -/
theorem value_eq_ofDigits (base : Nat) (ds : List Nat) :
    value base 0 ds = Nat.ofDigits base ds.reverse := by
  induction ds using List.reverseRecOn with
  | nil => rfl
  | append_singleton ds d ih =>
    rw [value_append, ih, List.reverse_append, List.reverse_singleton, List.singleton_append,
      Nat.ofDigits_cons]
    simp only [value]
    rw [Nat.mul_comm, Nat.add_comm]

theorem mapM_digitValue? : ∀ {b : Bytes}, (∀ x ∈ b, 48 ≤ x ∧ x ≤ 57) →
    b.mapM digitValue? = some (b.map fun x => x.toNat - 48)
  | [], _ => rfl
  | x :: xs, h => by
    have hx : digitValue? x = some (x.toNat - 48) := if_pos (by simpa using h x (.head _))
    rw [List.mapM_cons, hx, mapM_digitValue? fun y hy => h y (.tail _ hy)]
    rfl

theorem ofDecimal?_eq_some_iff {b : Bytes} {n : Nat} :
    ofDecimal? b = some n ↔ IsDecimal b n := by
  have hdigits : b.all Bytes.isDigit = true ↔ ∀ x ∈ b, 48 ≤ x ∧ x ≤ 57 := by
    simp [Bytes.isDigit]
  have hvalue (h : ∀ x ∈ b, 48 ≤ x ∧ x ≤ 57) : (b.mapM digitValue?).map (value 10 0) =
      some (Nat.ofDigits 10 (b.reverse.map fun x => x.toNat - 48)) := by
    rw [mapM_digitValue? h, Option.map_some, value_eq_ofDigits, List.map_reverse]
  constructor
  · intro h
    unfold ofDecimal? at h
    split at h
    · cases h
    · next hne =>
      split at h
      · next hall =>
        rw [hvalue (hdigits.mp hall)] at h
        exact ⟨hne, hdigits.mp hall, by simpa using h⟩
      · cases h
  · rintro ⟨hne, hall, rfl⟩
    rw [ofDecimal?, if_neg hne, if_pos (hdigits.mpr hall), hvalue hall]

/-- Zeros in front change nothing. -/
theorem IsDecimal.zeros {b : Bytes} {n : Nat} (h : IsDecimal b n) (k : Nat) :
    IsDecimal (List.replicate k 48 ++ b) n where
  ne_nil := List.append_ne_nil_of_right_ne_nil _ h.ne_nil
  isDigit := by
    intro x hx
    rcases List.mem_append.mp hx with hx | hx
    · rw [List.eq_of_mem_replicate hx]
      decide
    · exact h.isDigit x hx
  denotes := by
    rw [List.reverse_append, List.map_append, Nat.ofDigits_append, List.reverse_replicate,
      List.map_replicate, h.denotes]
    simp [Nat.ofDigits_replicate_zero]

theorem digit_decimal : ∀ {d : Nat}, d < 10 →
    (48 ≤ digit d ∧ digit d ≤ 57) ∧ (digit d).toNat - 48 = d := by
  decide

/-- What is written for a number denotes it. -/
theorem isDecimal_decimal (n : Nat) : IsDecimal (decimal n) n := by
  induction n using Nat.strongRecOn with
  | ind n ih =>
    rw [decimal]
    split
    · next hn =>
      obtain ⟨hdigit, hvalue⟩ := digit_decimal hn
      exact ⟨by simp, by simpa using hdigit, by simp [hvalue]⟩
    · next hn =>
      have hfront := ih (n / 10) (by omega)
      obtain ⟨hdigit, hvalue⟩ := digit_decimal (Nat.mod_lt n (by decide))
      refine ⟨by simp, ?_, ?_⟩
      · intro x hx
        rcases List.mem_append.mp hx with hx | hx
        · exact hfront.isDigit x hx
        · rw [List.mem_singleton.mp hx]
          exact hdigit
      · rw [List.reverse_append, List.reverse_singleton, List.singleton_append, List.map_cons,
          Nat.ofDigits_cons, hfront.denotes, hvalue]
        exact Nat.mod_add_div n 10

end Numeral

/-! ### Pieces between commas -/

namespace LengthField

open Numeral

/-- The piece is a decimal numeral for `n` with blanks around it. -/
def IsElement (n : Nat) (piece : Bytes) : Prop :=
  ∃ before digits behind, piece = before ++ digits ++ behind ∧
    (∀ x ∈ before ++ behind, x = 32 ∨ x = 9) ∧ IsDecimal digits n

/-- No digit is a blank. -/
theorem isTrimmed_of_isDecimal {b : Bytes} {n : Nat} (h : IsDecimal b n) : b.IsTrimmed := by
  have hdigit : ∀ x : UInt8, 48 ≤ x ∧ x ≤ 57 → Bytes.isBlank x = false := by
    intro x hx
    simp only [Bytes.isBlank, Bool.or_eq_false_iff, beq_eq_false_iff_ne, ne_eq]
    grind
  exact ⟨fun x hx => hdigit x (h.isDigit x (List.mem_of_head? hx)),
    fun x hx => hdigit x (h.isDigit x (List.mem_of_getLast? hx))⟩

theorem isBlank_iff {x : UInt8} : Bytes.isBlank x = true ↔ x = 32 ∨ x = 9 := by
  simp [Bytes.isBlank]

theorem isDecimal_trim_iff {n : Nat} {piece : Bytes} :
    IsDecimal (Bytes.trim piece) n ↔ IsElement n piece := by
  constructor
  · intro h
    obtain ⟨-, before, behind, hpiece, hbefore, hbehind⟩ :=
      Bytes.trim_eq_iff.mp (Eq.refl piece.trim)
    refine ⟨before, piece.trim, behind, hpiece, ?_, h⟩
    intro x hx
    rcases List.mem_append.mp hx with hx | hx
    · exact isBlank_iff.mp (hbefore x hx)
    · exact isBlank_iff.mp (hbehind x hx)
  · rintro ⟨before, digits, behind, rfl, hblank, hdigits⟩
    have hbefore : ∀ x ∈ before, Bytes.isBlank x = true :=
      fun x hx => isBlank_iff.mpr (hblank x (List.mem_append_left _ hx))
    have hbehind : ∀ x ∈ behind, Bytes.isBlank x = true :=
      fun x hx => isBlank_iff.mpr (hblank x (List.mem_append_right _ hx))
    rwa [Bytes.trim_of_blanks (isTrimmed_of_isDecimal hdigits) hbefore hbehind]

theorem IsElement.unique {n m : Nat} {piece : Bytes} (hn : IsElement n piece)
    (hm : IsElement m piece) : n = m :=
  (isDecimal_trim_iff.mpr hn).unique (isDecimal_trim_iff.mpr hm)

theorem element_eq_ok_iff {b : Bytes} {n : Nat} :
    element b = .ok n ↔ IsDecimal b n ∧ n < wordBound := by
  rw [← ofDecimal?_eq_some_iff, element]
  cases ofDecimal? b with
  | none => simp
  | some m =>
    dsimp only
    by_cases hm : m < wordBound
    · rw [if_pos hm]
      simp only [Except.ok.injEq, Option.some.injEq]
      exact ⟨fun h => ⟨h, h ▸ hm⟩, fun h => h.1⟩
    · rw [if_neg hm]
      simp only [reduceCtorEq, Option.some.injEq, false_iff]
      exact fun h => hm (h.1 ▸ h.2)

/-! ### One number for all -/

/-- A step that takes one more item and goes on only with the number that came
before: `Says a n` tells what an item says. -/
def IsAgreement {α : Type} (Says : α → Nat → Prop)
    (step : Option Nat → α → Except LengthFault (Option Nat)) : Prop :=
  ∀ seen a out, step seen a = .ok out ↔ ∃ n, Says a n ∧ out = some n ∧ ∀ m ∈ seen, m = n

section Agreement

variable {α : Type} {Says : α → Nat → Prop}
  {step : Option Nat → α → Except LengthFault (Option Nat)}

theorem foldlM_cons_eq_ok_iff {a : α} {as : List α} {seen out : Option Nat} :
    (a :: as).foldlM step seen = .ok out ↔
      ∃ next, step seen a = .ok next ∧ as.foldlM step next = .ok out := by
  rw [List.foldlM_cons]
  cases step seen a <;> simp [bind, Except.bind]

/-- Behind a number, every item has to say that number. -/
theorem IsAgreement.foldlM_some (h : IsAgreement Says step) {n : Nat} :
    ∀ {as : List α} {out : Option Nat}, as.foldlM step (some n) = .ok out ↔
      out = some n ∧ ∀ a ∈ as, Says a n
  | [], out => by
    simp [pure, Except.pure, eq_comm]
  | a :: as, out => by
    rw [foldlM_cons_eq_ok_iff, List.forall_mem_cons]
    constructor
    · rintro ⟨next, hstep, hrest⟩
      obtain ⟨k, ha, rfl, hk⟩ := (h (some n) a next).mp hstep
      obtain rfl : n = k := hk n rfl
      obtain ⟨hout, hall⟩ := h.foldlM_some.mp hrest
      exact ⟨hout, ha, hall⟩
    · rintro ⟨hout, ha, hall⟩
      refine ⟨some n, (h _ _ _).mpr ⟨n, ha, rfl, ?_⟩, h.foldlM_some.mpr ⟨hout, hall⟩⟩
      rintro m ⟨⟩
      rfl

/-- Items are taken one behind the other exactly if they all say one number. -/
theorem IsAgreement.foldlM (h : IsAgreement Says step) {as : List α} (has : as ≠ [])
    {seen out : Option Nat} : as.foldlM step seen = .ok out ↔
      ∃ n, (∀ a ∈ as, Says a n) ∧ out = some n ∧ ∀ m ∈ seen, m = n := by
  obtain ⟨a, as, rfl⟩ := List.exists_cons_of_ne_nil has
  rw [foldlM_cons_eq_ok_iff]
  constructor
  · rintro ⟨next, hstep, hrest⟩
    obtain ⟨n, ha, rfl, hseen⟩ := (h seen a next).mp hstep
    obtain ⟨hout, hall⟩ := h.foldlM_some.mp hrest
    exact ⟨n, List.forall_mem_cons.mpr ⟨ha, hall⟩, hout, hseen⟩
  · rintro ⟨n, hall, hout, hseen⟩
    obtain ⟨ha, hrest⟩ := List.forall_mem_cons.mp hall
    exact ⟨some n, (h seen a _).mpr ⟨n, ha, rfl, hseen⟩, h.foldlM_some.mpr ⟨hout, hrest⟩⟩

end Agreement

/-- The value says `n`: it has printable bytes only, and between its commas
stands `n` and nothing else. -/
structure Says (v : FieldValue) (n : Nat) : Prop where
  printable : ∀ x ∈ v.bytes, x = 9 ∨ (32 ≤ x ∧ x ≤ 126)
  element : ∀ piece ∈ v.bytes.splitOn 44, IsElement n piece
  fits : n < 2 ^ 64

theorem isAgreement_agree :
    IsAgreement (fun b n => IsDecimal b n ∧ n < wordBound) agree := by
  intro seen b out
  unfold agree
  cases hb : element b with
  | error e =>
    simp only [reduceCtorEq, ← element_eq_ok_iff, hb, false_and, exists_false]
  | ok n =>
    have hvalue : ∀ k, (IsDecimal b k ∧ k < wordBound) ↔ n = k := by
      intro k
      rw [← element_eq_ok_iff, hb, Except.ok.injEq]
    simp only [hvalue, exists_eq_left']
    cases seen with
    | none => simp [eq_comm]
    | some m =>
      dsimp only
      by_cases hm : m = n
      · simp [hm, eq_comm]
      · simp [hm]

theorem elements_ne_nil (v : FieldValue) : elements v ≠ [] := by
  simpa [elements] using Bytes.split_ne_nil 44 v.bytes

theorem printable_iff {b : Bytes} :
    b.all Bytes.isPrintable = true ↔ ∀ x ∈ b, x = 9 ∨ (32 ≤ x ∧ x ≤ 126) := by
  have hbyte : ∀ x : UInt8, x < 127 ↔ x ≤ 126 := by
    intro x
    rw [UInt8.lt_iff_toNat_lt, UInt8.le_iff_toNat_le]
    exact Nat.lt_succ_iff
  simp [Bytes.isPrintable, hbyte]

theorem isAgreement_agreeAll : IsAgreement Says agreeAll := by
  intro seen v out
  have hvalue : ∀ n, Says v n ↔ v.bytes.all Bytes.isPrintable = true ∧
      ∀ b ∈ elements v, IsDecimal b n ∧ n < wordBound := by
    intro n
    have hne : v.bytes.splitOn 44 ≠ [] := by
      rw [← Bytes.split_eq_splitOn]
      exact Bytes.split_ne_nil 44 v.bytes
    obtain ⟨first, hfirst⟩ := List.exists_mem_of_ne_nil _ hne
    rw [printable_iff, elements, List.forall_mem_map, Bytes.split_eq_splitOn]
    simp only [isDecimal_trim_iff]
    exact ⟨fun h => ⟨h.printable, fun b hb => ⟨h.element b hb, h.fits⟩⟩,
      fun h => ⟨h.1, fun b hb => (h.2 b hb).1, (h.2 first hfirst).2⟩⟩
  unfold agreeAll
  by_cases hprintable : v.bytes.all Bytes.isPrintable = true
  · rw [if_pos hprintable, isAgreement_agree.foldlM (elements_ne_nil v)]
    simp only [hvalue, hprintable, true_and]
  · rw [if_neg hprintable]
    simp [hvalue, hprintable]

/-- All values say `n`. -/
def Agree (vs : List FieldValue) (n : Nat) : Prop := ∀ v ∈ vs, Says v n

/-- The values agree on a number exactly if it is the one they all say. -/
theorem agreed_eq_some_iff {vs : List FieldValue} {n : Nat} :
    agreed vs = .ok (some n) ↔ vs ≠ [] ∧ Agree vs n := by
  by_cases hvs : vs = []
  · simp [hvs, agreed, pure, Except.pure]
  · rw [agreed, isAgreement_agreeAll.foldlM hvs]
    simp [hvs, Agree]

theorem agreed_eq_none_iff {vs : List FieldValue} : agreed vs = .ok none ↔ vs = [] := by
  by_cases hvs : vs = []
  · simp [hvs, agreed, pure, Except.pure]
  · rw [agreed, isAgreement_agreeAll.foldlM hvs]
    simp [hvs]

/-! ### Values that are written for a number -/

/-- The value is written for `n`: pieces with commas between them, in each of
them the numeral of `n` with zeros in front and blanks around it. -/
def IsWritten (n : Nat) (v : FieldValue) : Prop :=
  ∃ pieces ≠ [], v.bytes = [44].intercalate pieces ∧ ∀ piece ∈ pieces,
    ∃ before k behind, piece = before ++ (List.replicate k 48 ++ decimal n) ++ behind ∧
      ∀ x ∈ before ++ behind, x = 32 ∨ x = 9

theorem isElement_written {n k : Nat} {before behind : Bytes}
    (h : ∀ x ∈ before ++ behind, x = 32 ∨ x = 9) :
    IsElement n (before ++ (List.replicate k 48 ++ decimal n) ++ behind) :=
  ⟨before, _, behind, rfl, h, (isDecimal_decimal n).zeros k⟩

/-- The bytes of an element are printable, and none of them is a comma. -/
theorem mem_of_isElement {n : Nat} {piece : Bytes} (h : IsElement n piece) :
    ∀ x ∈ piece, x ≠ 44 ∧ (x = 9 ∨ (32 ≤ x ∧ x ≤ 126)) := by
  obtain ⟨before, digits, behind, rfl, hblank, hdigits⟩ := h
  intro x hx
  have hx : x = 32 ∨ x = 9 ∨ (48 ≤ x ∧ x ≤ 57) := by
    rcases List.mem_append.mp hx with hx | hx
    · rcases List.mem_append.mp hx with hx | hx
      · exact (hblank x (List.mem_append_left _ hx)).imp_right .inl
      · exact .inr (.inr (hdigits.isDigit x hx))
    · exact (hblank x (List.mem_append_right _ hx)).imp_right .inl
  rcases hx with rfl | rfl | ⟨hlow, hhigh⟩
  · decide
  · decide
  · rw [UInt8.le_iff_toNat_le] at hlow hhigh
    simp only [UInt8.le_iff_toNat_le, ne_eq, ← UInt8.toNat_inj]
    simp at *
    omega

theorem mem_intercalate {sep x : UInt8} {pieces : List Bytes}
    (h : x ∈ [sep].intercalate pieces) : x = sep ∨ ∃ piece ∈ pieces, x ∈ piece := by
  induction pieces with
  | nil => simp at h
  | cons p ps ih =>
    cases ps with
    | nil =>
      rw [List.intercalate_singleton] at h
      exact .inr ⟨p, .head _, h⟩
    | cons q qs =>
      rw [List.intercalate_cons_cons, List.mem_append, List.mem_append, List.mem_singleton] at h
      rcases h with (h | h) | h
      · exact .inr ⟨p, .head _, h⟩
      · exact .inl h
      · exact (ih h).imp_right fun ⟨piece, hpiece, hx⟩ => ⟨piece, .tail _ hpiece, hx⟩

theorem says_of_isWritten {n : Nat} {v : FieldValue} (h : IsWritten n v) (hn : n < 2 ^ 64) :
    Says v n := by
  obtain ⟨pieces, hne, hbytes, hpieces⟩ := h
  have hall : ∀ piece ∈ pieces, IsElement n piece := by
    intro piece hpiece
    obtain ⟨before, k, behind, rfl, hblank⟩ := hpieces piece hpiece
    exact isElement_written hblank
  have hsplit : v.bytes.splitOn 44 = pieces := by
    rw [hbytes]
    exact List.splitOn_intercalate 44
      (fun piece hpiece hcomma => (mem_of_isElement (hall piece hpiece) 44 hcomma).1 rfl) hne
  refine ⟨?_, by rwa [hsplit], hn⟩
  intro x hx
  rw [hbytes] at hx
  rcases mem_intercalate hx with rfl | ⟨piece, hpiece, hx⟩
  · decide
  · exact (mem_of_isElement (hall piece hpiece) x hx).2

end LengthField

/-! ### The rule -/

theorem Bytes.occurs_iff {word : Bytes} : ∀ {b : Bytes}, occurs word b = true ↔ word <:+: b
  | [] => by simp [occurs]
  | x :: xs => by
    rw [occurs, Bool.or_eq_true, occurs_iff, List.isPrefixOf_iff_prefix, List.infix_cons_iff]

namespace Response

open LengthField

/-- The response has no body, whatever its fields say. -/
def HasNoBody (toHead : Bool) (r : Response) : Prop :=
  toHead = true ∨ ∃ s, r.status = some s ∧ (s.code < 200 ∨ s.code = 204 ∨ s.code = 304)

/-- A transfer encoding has `chunked` in it, in letters of any case. -/
def SaysChunked (r : Response) : Prop :=
  ∃ v ∈ r.fields.values .transferEncoding, Bytes.ofText "chunked" <:+: v.bytes.map Bytes.lower

/-- The rule for where the body of a response ends. -/
inductive Delimits (toHead : Bool) (r : Response) : Framing → Prop where
  | empty : r.HasNoBody toHead → Delimits toHead r .empty
  | chunked : ¬ r.HasNoBody toHead → r.SaysChunked → Delimits toHead r .chunked
  | length {n : Nat} : ¬ r.HasNoBody toHead → ¬ r.SaysChunked →
      r.fields.values .contentLength ≠ [] → Agree (r.fields.values .contentLength) n →
      Delimits toHead r (.length n)
  | untilClose : ¬ r.HasNoBody toHead → ¬ r.SaysChunked →
      r.fields.values .contentLength = [] → Delimits toHead r .untilClose

variable {toHead : Bool} {r : Response}

theorem isBodiless_iff : r.isBodiless toHead = true ↔ r.HasNoBody toHead := by
  rw [isBodiless, Bool.or_eq_true, HasNoBody]
  cases r.status with
  | none => simp
  | some s => simp [StatusCode.isBodiless, StatusCode.isInformational, or_assoc]

theorem mention_chunked_iff :
    r.fields.mention .transferEncoding "chunked" = true ↔ r.SaysChunked := by
  simp only [Fields.mention, List.any_eq_true, FieldValue.mentions, Bytes.mentions,
    Bytes.occurs_iff, SaysChunked]

/-- The framing that is chosen is the one of the rule. -/
theorem framing_eq_ok_iff {f : Framing} : r.framing toHead = .ok f ↔ r.Delimits toHead f := by
  unfold framing
  by_cases hempty : r.HasNoBody toHead
  · rw [if_pos (isBodiless_iff.mpr hempty), Except.ok.injEq]
    constructor
    · rintro rfl
      exact .empty hempty
    · rintro (- | h | h | h)
      · rfl
      all_goals exact absurd hempty h
  rw [if_neg (mt isBodiless_iff.mp hempty)]
  by_cases hchunked : r.SaysChunked
  · rw [if_pos (mention_chunked_iff.mpr hchunked), Except.ok.injEq]
    constructor
    · rintro rfl
      exact .chunked hempty hchunked
    · rintro (h | - | ⟨-, h⟩ | ⟨-, h⟩)
      · exact absurd h hempty
      · rfl
      all_goals exact absurd hchunked h
  rw [if_neg (mt mention_chunked_iff.mp hchunked)]
  constructor
  · intro h
    split at h
    · cases h
    · next hnone =>
      cases h
      exact .untilClose hempty hchunked (agreed_eq_none_iff.mp hnone)
    · next n hsome =>
      cases h
      obtain ⟨hne, hagree⟩ := agreed_eq_some_iff.mp hsome
      exact .length hempty hchunked hne hagree
  · rintro (h | ⟨-, h⟩ | ⟨-, -, hne, hagree⟩ | ⟨-, -, hnil⟩)
    · exact absurd h hempty
    · exact absurd h hchunked
    · rw [agreed_eq_some_iff.mpr ⟨hne, hagree⟩]
    · rw [agreed_eq_none_iff.mpr hnil]

/-- The rule has no framing for values that do not agree. -/
theorem not_delimits_iff : (¬ ∃ f, r.Delimits toHead f) ↔
    ¬ r.HasNoBody toHead ∧ ¬ r.SaysChunked ∧ r.fields.values .contentLength ≠ [] ∧
      ¬ ∃ n, Agree (r.fields.values .contentLength) n := by
  constructor
  · intro h
    have hempty : ¬ r.HasNoBody toHead := fun h1 => h ⟨_, .empty h1⟩
    have hchunked : ¬ r.SaysChunked := fun h2 => h ⟨_, .chunked hempty h2⟩
    have hne : r.fields.values .contentLength ≠ [] :=
      fun h3 => h ⟨_, .untilClose hempty hchunked h3⟩
    exact ⟨hempty, hchunked, hne, fun ⟨n, hn⟩ => h ⟨_, .length hempty hchunked hne hn⟩⟩
  · rintro ⟨hempty, hchunked, hne, hagree⟩ ⟨f, h | ⟨-, h⟩ | ⟨-, -, -, h⟩ | ⟨-, -, h⟩⟩
    · exact hempty h
    · exact hchunked h
    · exact hagree ⟨_, h⟩
    · exact hne h

/-- There is a fault in the lengths exactly if the rule has no framing. -/
theorem framing_eq_error_iff :
    (∃ fault, r.framing toHead = .error fault) ↔ ¬ ∃ f, r.Delimits toHead f := by
  simp only [← framing_eq_ok_iff]
  cases r.framing toHead <;> simp

/-- A numeral anywhere among the lengths leaves no other length. -/
theorem length_unique {n m : Nat} (h : r.Delimits toHead (.length m)) {v : FieldValue}
    (hv : v ∈ r.fields.values .contentLength) {piece : Bytes} (hpiece : piece ∈ v.bytes.splitOn 44)
    (hn : IsElement n piece) : m = n := by
  cases h with
  | length _ _ _ hagree => exact ((hagree v hv).element piece hpiece).unique hn

/-- Whatever else there is to a number that is written, it is the length. -/
theorem delimits_written {n : Nat} (hempty : ¬ r.HasNoBody toHead) (hchunked : ¬ r.SaysChunked)
    (hne : r.fields.values .contentLength ≠ []) (hn : n < 2 ^ 64)
    (hwritten : ∀ v ∈ r.fields.values .contentLength, IsWritten n v) :
    r.Delimits toHead (.length n) :=
  .length hempty hchunked hne fun v hv => says_of_isWritten (hwritten v hv) hn

end Response

/-! ### Heads that are taken -/

open Head

/-- The response that the bytes begin with, in a head that is good line by line
and small enough to be taken. -/
def BeginsWith (b : Bytes) (r : Response) : Prop :=
  leastSize ≤ b.length ∧ ∃ line fields rest bare, scanHead b = .complete line fields rest ∧
    b.length - rest.length ≤ sizeLimit ∧ line.response? = some bare ∧
      r = { bare with fields := .ofList fields }

/-- Such a head is taken with its framing, or refused for its lengths. -/
theorem takeHead_of_beginsWith (toHead : Bool) (salvaged : Option Response) {b : Bytes}
    {r : Response} (h : BeginsWith b r) :
    ∃ rest, takeHead toHead salvaged b = frameHead toHead salvaged r rest := by
  obtain ⟨hlen, line, fields, rest, bare, hscan, hsize, hbare, rfl⟩ := h
  refine ⟨rest, ?_⟩
  rw [takeHead, if_neg (by simp [Bytes.isShorter_eq_false.mpr hlen]), hscan]
  dsimp only
  rw [hbare]
  dsimp only
  rw [if_pos hsize]

/-- A head that was taken is one. -/
theorem beginsWith_of_item {toHead : Bool} {salvaged : Option Response} {b : Bytes} {r : Response}
    {f : Framing} (h : (takeHead toHead salvaged b).progress = .item (r, f)) : BeginsWith b r := by
  obtain ⟨kept, rest, htake⟩ : ∃ kept rest,
      takeHead toHead salvaged b = ⟨.item (r, f), kept, rest⟩ := by
    rw [← h]
    exact ⟨_, _, rfl⟩
  obtain ⟨hlen, -, p, rfl, hp⟩ := takeHead_eq_item_iff.mp htake
  obtain ⟨line, fields, bare, hscan, hbare, hr, -⟩ := hp.scan_append rest
  obtain ⟨-, -, -, -, -, -, -, hsize⟩ := hp
  exact ⟨hlen, line, fields, rest, bare, hscan, by simpa using hsize, hbare, hr⟩

theorem frameHead_progress {toHead : Bool} {salvaged : Option Response} {r : Response}
    {rest : Bytes} : (frameHead toHead salvaged r rest).progress =
      match r.framing toHead with
      | .error fault => .fail (.badLength fault)
      | .ok framing => .item (r, framing) := by
  unfold frameHead
  cases r.framing toHead <;> rfl

namespace Response

open LengthField

/-- **A body ends where the rule says.** The framing of a response is the one
of the rule, and a fault where the rule has none; a numeral among the lengths
leaves no length but its own, and a number is the length however it is written
down; and a head that is decoded comes with this framing or fails for this
fault. -/
theorem delimits_decoded (toHead : Bool) (r : Response) :
    (∀ f, r.framing toHead = .ok f ↔ r.Delimits toHead f) ∧
    ((∃ fault, r.framing toHead = .error fault) ↔
      ¬ r.HasNoBody toHead ∧ ¬ r.SaysChunked ∧ r.fields.values .contentLength ≠ [] ∧
        ¬ ∃ n, Agree (r.fields.values .contentLength) n) ∧
    (∀ m, r.framing toHead = .ok (.length m) → ∀ v ∈ r.fields.values .contentLength,
      ∀ piece ∈ v.bytes.splitOn 44, ∀ n, IsElement n piece → m = n) ∧
    (∀ n < 2 ^ 64, ¬ r.HasNoBody toHead → ¬ r.SaysChunked →
      r.fields.values .contentLength ≠ [] →
      (∀ v ∈ r.fields.values .contentLength, IsWritten n v) →
      r.framing toHead = .ok (.length n)) ∧
    (∀ salvaged b, BeginsWith b r →
      (∀ f, (takeHead toHead salvaged b).progress = .item (r, f) ↔ r.Delimits toHead f) ∧
      ((∃ fault, (takeHead toHead salvaged b).progress = .fail (.badLength fault)) ↔
        ¬ ∃ f, r.Delimits toHead f)) := by
  refine ⟨fun _ => framing_eq_ok_iff, framing_eq_error_iff.trans not_delimits_iff, ?_, ?_, ?_⟩
  · intro m hm v hv piece hpiece n hn
    exact length_unique (framing_eq_ok_iff.mp hm) hv hpiece hn
  · intro n hn hempty hchunked hne hwritten
    exact framing_eq_ok_iff.mpr (delimits_written hempty hchunked hne hn hwritten)
  · intro salvaged b hb
    obtain ⟨rest, htake⟩ := takeHead_of_beginsWith toHead salvaged hb
    rw [htake, frameHead_progress, ← framing_eq_error_iff]
    simp only [← framing_eq_ok_iff]
    cases r.framing toHead <;> simp

/-- A length that two fields give, one of them twice. -/
def thriceHead : Bytes :=
  Bytes.ofText "HTTP/1.1 200 OK\r\nContent-Length: 007 ,\t7\r\nContent-Length: 7\r\n\r\n"

/-- The response that this head is. -/
def thriceResponse : Response where
  status := StatusCode.ofNat? 200
  reason := "OK"
  fields := .ofList [(.contentLength, ⟨Bytes.ofText "007 ,\t7", by decide +kernel⟩),
    (.contentLength, ⟨Bytes.ofText "7", by decide +kernel⟩)]

theorem beginsWith_thrice : BeginsWith thriceHead thriceResponse :=
  have hitem : (takeHead false none thriceHead).progress = .item (thriceResponse, .length 7) := by
    decide +kernel
  beginsWith_of_item hitem

theorem delimits_thrice : thriceResponse.Delimits false (.length 7) ∧
    (takeHead false none thriceHead).progress = .item (thriceResponse, .length 7) :=
  have hrule := delimits_decoded false thriceResponse
  have hlength := (hrule.1 (.length 7)).mp (by decide +kernel)
  ⟨hlength, ((hrule.2.2.2.2 none thriceHead beginsWith_thrice).1 _).mpr hlength⟩

end Response
end Http1Client
