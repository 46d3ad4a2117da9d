/-
# Heads that can be printed

The authority of a URI that was read holds printable ASCII characters only
(`Uri.wellFormed_of_parse`), so the host of a URI can always stand in a field,
and a request head with a host can be printed (`RequestHead.print_of_wellFormed`).

Key definitions: `Uri.WellFormed`.
Key theorems: `Uri.wellFormed_of_parse`, `RequestHead.print_of_wellFormed`.
-/
import Http1Client.Head.Print

namespace Http1Client

/-- What it takes that two steps succeed. -/
theorem ok_of_bind {ε α β : Type} {x : Except ε α} {f : α → Except ε β} {b : β}
    (h : (x >>= f) = .ok b) : ∃ a, x = .ok a ∧ f a = .ok b := by
  cases x with
  | error e => cases h
  | ok a => exact ⟨a, rfl, h⟩

namespace Uri

/-! ### The characters of an authority -/

/-- An authority, if there is one, consists of its characters. -/
def WellFormed (u : Uri) : Prop :=
  ∀ authority, u.authority = some authority → ∀ c ∈ authority, isAuthorityChar c = true

theorem isAuthorityChar_of_step {s s' : AuthorityScan} {c : Char} (h : s.step c = .ok s') :
    isAuthorityChar c = true := by
  cases hc : isAuthorityChar c with
  | true => rfl
  | false =>
    have hne : ∀ d, isAuthorityChar d = true → c ≠ d := by
      rintro d hd rfl
      rw [hc] at hd
      cases hd
    rw [AuthorityScan.step, if_neg (hne ':' (by decide)), if_neg (hne '[' (by decide)),
      if_neg (hne ']' (by decide)), if_neg (hne '@' (by decide)), if_neg (hne '%' (by decide)),
      hc] at h
    cases h

/-- What was scanned consists of the characters of an authority. -/
theorem isAuthorityChar_of_foldlM : ∀ {cs : List Char} {s s' : AuthorityScan},
    cs.foldlM AuthorityScan.step s = .ok s' → ∀ c ∈ cs, isAuthorityChar c = true
  | [], _, _, _ => by simp
  | c :: cs, s, s', h => by
    rw [List.foldlM_cons] at h
    obtain ⟨s₁, hstep, hrest⟩ := ok_of_bind h
    intro x hx
    rcases List.mem_cons.mp hx with rfl | hx
    · exact isAuthorityChar_of_step hstep
    · exact isAuthorityChar_of_foldlM hrest x hx

theorem isAuthorityChar_of_splitAuthority {s authority left : List Char}
    (h : splitAuthority s = .ok (authority, left)) : ∀ c ∈ authority, isAuthorityChar c = true := by
  unfold splitAuthority at h
  split at h
  · cases h
  · dsimp only at h
    split at h
    · cases h
    · next seen hseen =>
      split at h
      · cases h
        exact isAuthorityChar_of_foldlM hseen
      · cases h

theorem wellFormed_of_authority {u : Uri} {authority : List Char}
    (hu : u.authority = some authority) (h : ∀ c ∈ authority, isAuthorityChar c = true) :
    u.WellFormed := by
  intro a ha
  rw [hu] at ha
  cases ha
  exact h

theorem wellFormed_of_parseAbsolute {s : List Char} {u : Uri} (h : parseAbsolute s = .ok u) :
    u.WellFormed := by
  obtain ⟨⟨scheme, rest⟩, -, h⟩ := ok_of_bind h
  obtain ⟨⟨authority, left⟩, hauthority, h⟩ := ok_of_bind h
  refine wellFormed_of_authority ?_ (isAuthorityChar_of_splitAuthority hauthority)
  cases scheme with
  | none =>
    dsimp only at h
    split at h
    · cases h
      rfl
    · split at h <;> cases h
  | some scheme =>
    dsimp only at h
    split at h
    · cases h
    · obtain ⟨⟨path, query⟩, -, h⟩ := ok_of_bind h
      cases h
      rfl

/-- A URI that was read is well formed. -/
theorem wellFormed_of_parse {s : List Char} {u : Uri} (h : parse s = .ok u) : u.WellFormed := by
  unfold parse at h
  split at h
  · cases h
  · split at h
    · cases h
    · cases h
      intro a ha
      cases ha
    · obtain ⟨⟨path, query⟩, -, h⟩ := ok_of_bind h
      cases h
      intro a ha
      cases ha
    · exact wellFormed_of_parseAbsolute h

/-! ### The host -/

theorem isAuthorityChar_ascii {c : Char} (h : isAuthorityChar c = true) :
    32 < c.toNat ∧ c.toNat < 127 := by
  rw [isAuthorityChar, Bool.or_eq_true] at h
  rcases h with h | h
  · delta Char.isAlphanum Char.isAlpha Char.isUpper Char.isLower Char.isDigit at h
    simp [UInt32.le_iff_toNat_le] at h
    omega
  · have hall : "!$&'()*+,-.:;=@[]_~%".toList.all
        (fun c => decide (32 < c.toNat ∧ c.toNat < 127)) = true := by
      decide
    exact of_decide_eq_true (List.all_eq_true.mp hall c (List.contains_iff_mem.mp h))

theorem mem_of_afterLast {c x : Char} : ∀ {s rest : List Char}, afterLast c s = some rest →
    x ∈ rest → x ∈ s
  | [], _, h, _ => by simp [afterLast] at h
  | y :: ys, rest, h, hx => by
    rw [afterLast] at h
    split at h
    · next r hr =>
      cases h
      exact List.mem_cons_of_mem _ (mem_of_afterLast hr hx)
    · split at h
      · cases h
        exact List.mem_cons_of_mem _ hx
      · cases h

/-- A host holds characters of its authority, and maybe a bracket behind them. -/
theorem mem_of_hostOf {authority : List Char} {x : Char} (h : x ∈ hostOf authority) :
    x ∈ authority ∨ x = ']' := by
  have hbehind : ∀ y, y ∈ (afterLast '@' authority).getD authority → y ∈ authority := by
    intro y hy
    cases hat : afterLast '@' authority with
    | none => rwa [hat] at hy
    | some rest =>
      rw [hat] at hy
      exact mem_of_afterLast hat hy
  unfold hostOf at h
  split at h
  · next rest hrest =>
    rcases List.mem_cons.mp h with rfl | h
    · exact .inl (hbehind _ (hrest ▸ List.mem_cons_self ..))
    · rcases List.mem_append.mp h with h | h
      · have := List.mem_cons_of_mem '[' ((List.takeWhile_sublist _).mem h)
        exact .inl (hbehind x (hrest ▸ this))
      · exact .inr (List.mem_singleton.mp h)
  · exact .inl (hbehind x ((List.takeWhile_sublist _).mem h))

theorem WellFormed.host_ascii {u : Uri} {host : List Char} (h : u.WellFormed)
    (hhost : u.host = some host) : ∀ c ∈ host, 32 < c.toNat ∧ c.toNat < 127 := by
  obtain ⟨authority, hauthority, rfl⟩ := Option.map_eq_some_iff.mp hhost
  intro c hc
  rcases mem_of_hostOf hc with hc | rfl
  · exact isAuthorityChar_ascii (h authority hauthority c hc)
  · decide

end Uri

/-! ### The head -/

/-- An ASCII character is one byte, its code point. -/
theorem toNat_of_mem_utf8EncodeChar {c : Char} {b : UInt8} (hc : c.toNat < 127)
    (hb : b ∈ String.utf8EncodeChar c) : b.toNat = c.toNat := by
  have hle : c.toNat ≤ 127 := Nat.le_of_lt hc
  have hbyte : b = UInt8.ofNat c.toNat := by
    rw [String.utf8EncodeChar] at hb
    simpa [hle] using hb
  rw [hbyte, UInt8.toNat_ofNat']
  omega

/-- Printable text can stand in a field. -/
theorem FieldValue.ofBytes?_of_ascii {cs : List Char}
    (h : ∀ c ∈ cs, 32 < c.toNat ∧ c.toNat < 127) :
    ∃ value, FieldValue.ofBytes? (Bytes.utf8 cs) = some value := by
  have hall : (Bytes.utf8 cs).all Bytes.isValueByte = true := by
    rw [List.all_eq_true]
    intro b hb
    obtain ⟨c, hc, hb⟩ := List.mem_flatMap.mp hb
    obtain ⟨hlow, hhigh⟩ := h c hc
    have hnat := toNat_of_mem_utf8EncodeChar hhigh hb
    have hle : 32 ≤ b := by
      rw [UInt8.le_iff_toNat_le, hnat]
      exact Nat.le_of_lt hlow
    have hne : b ≠ 127 := by
      rintro rfl
      exact absurd hnat.symm (Nat.ne_of_lt hhigh)
    simp [Bytes.isValueByte, hle, hne]
  exact ⟨_, dif_pos hall⟩

theorem RequestHead.print_of_host {h : RequestHead} {host : List Char} {value : FieldValue}
    (hhost : h.uri.host = some host) (hvalue : FieldValue.ofBytes? (Bytes.utf8 host) = some value)
    (hversion : h.version = .http11) (framing : Framing) : h.print framing =
      .ok (h.requestLine ++ printFields (h.announce (h.fields.insert .host value) framing)) := by
  rw [print, hhost]
  dsimp only
  rw [hvalue]
  exact if_pos hversion

/-- A head with a host can be printed. -/
theorem RequestHead.print_of_wellFormed {h : RequestHead} {host : List Char}
    (huri : h.uri.WellFormed) (hhost : h.uri.host = some host) (hversion : h.version = .http11)
    (framing : Framing) : ∃ bytes, h.print framing = .ok bytes := by
  obtain ⟨value, hvalue⟩ := FieldValue.ofBytes?_of_ascii (huri.host_ascii hhost)
  exact ⟨_, print_of_host hhost hvalue hversion framing⟩

end Http1Client
