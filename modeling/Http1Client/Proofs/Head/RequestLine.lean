/-
# The target on a request line

The request line is method, target and version with a space between them. The
target of a URI that was read holds no space, no control character and no number
sign (`Uri.Spells.target_plain`), so the line reads back as the three
(`RequestHead.openingIn_print`).

The origin form of a target is the path, or a slash where the URI has none, and
the query behind it (`Uri.originForm`). A target has this form wherever the URI
has a path or no query (`RequestHead.target_written`). A query that stands right
behind the authority goes out alone, without the slash
(`RequestHead.target_query_alone`).

Key definitions: `Bytes.openingIn`, `Uri.originForm`.
Key theorems: `Uri.Spells.target_plain`, `RequestHead.openingIn_print`,
`RequestHead.target_written`, `RequestHead.target_query_alone`.
-/
import Http1Client.Proofs.Course
import Http1Client.Proofs.Head.Announcing
import Http1Client.Proofs.Uri.Spelling

namespace Http1Client

namespace Bytes

/-- The pieces of the first line, which spaces separate. -/
def openingIn (b : Bytes) : List Bytes := split 32 ((lines b).headD [])

/-- A byte of a character is its code point, or it is outside ASCII. -/
theorem toNat_of_mem_encodeChar {c : Char} {b : UInt8} (h : b ∈ String.utf8EncodeChar c) :
    b.toNat = c.toNat ∨ 128 ≤ b.toNat := by
  have hhigh : ∀ n : Nat, 128 ≤ n → n < 256 → b = UInt8.ofNat n → 128 ≤ b.toNat := by
    rintro n hlow hbound rfl
    rw [UInt8.toNat_ofNat']
    omega
  rw [String.utf8EncodeChar] at h
  split at h
  · next hascii =>
    left
    rw [List.mem_singleton.mp h, UInt8.toNat_ofNat']
    exact Nat.mod_eq_of_lt (Nat.lt_of_le_of_lt hascii (by decide))
  right
  split at h
  · simp only [List.mem_cons, List.not_mem_nil, or_false] at h
    rcases h with h | h
    all_goals exact hhigh _ (by omega) (by omega) h
  split at h
  · simp only [List.mem_cons, List.not_mem_nil, or_false] at h
    rcases h with h | h | h
    all_goals exact hhigh _ (by omega) (by omega) h
  · simp only [List.mem_cons, List.not_mem_nil, or_false] at h
    rcases h with h | h | h | h
    all_goals exact hhigh _ (by omega) (by omega) h

end Bytes

namespace Uri

variable {u : Uri} {start authority fragment s : List Char}

/-! ### The target -/

/-- The target of a URI in origin form: the path, a slash where there is none,
and the query. -/
def originForm (u : Uri) : List Char :=
  (if u.path = [] then ['/'] else u.path) ++ queryText u.query

theorem isPathChar_plain {c : Char} (h : isPathChar c = true) : 32 < c.toNat ∧ c.toNat ≠ 35 := by
  simp [isPathChar] at h
  omega

theorem isQueryChar_plain {c : Char} (h : isQueryChar c = true) : 32 < c.toNat ∧ c.toNat ≠ 35 := by
  simp [isQueryChar] at h
  omega

theorem target_of_ne_nil (h : u.path ++ queryText u.query ≠ []) :
    u.target = u.path ++ queryText u.query := by
  unfold target
  split
  · next hnil => exact absurd hnil h
  · rfl

theorem target_of_nil (h : u.path ++ queryText u.query = []) : u.target = ['/'] := by
  rw [target, h]

theorem target_ne_nil (u : Uri) : u.target ≠ [] := by
  by_cases h : u.path ++ queryText u.query = []
  · rw [target_of_nil h]
    nofun
  · rwa [target_of_ne_nil h]

/-- The bytes of a target are printable, and no number sign is among them. -/
theorem Spells.target_plain (h : u.Spells start authority fragment s) :
    ∀ b ∈ Bytes.utf8 u.target, 32 < b.toNat ∧ b.toNat ≠ 35 := by
  have hparts : ∀ c ∈ u.path ++ queryText u.query, 32 < c.toNat ∧ c.toNat ≠ 35 := by
    intro c hc
    rcases List.mem_append.mp hc with hc | hc
    · exact isPathChar_plain (h.path_chars c hc)
    · cases hquery : u.query with
      | none => simp [hquery, queryText] at hc
      | some q =>
        rw [hquery, queryText] at hc
        rcases List.mem_cons.mp hc with rfl | hc
        · decide
        · exact isQueryChar_plain (h.query_chars q hquery c hc)
  have htarget : ∀ c ∈ u.target, 32 < c.toNat ∧ c.toNat ≠ 35 := by
    by_cases hnil : u.path ++ queryText u.query = []
    · rw [target_of_nil hnil]
      intro c hc
      obtain rfl := List.mem_singleton.mp hc
      decide
    · rwa [target_of_ne_nil hnil]
  intro b hb
  obtain ⟨c, hc, hb⟩ := List.mem_flatMap.mp hb
  obtain ⟨hlow, hmark⟩ := htarget c hc
  rcases Bytes.toNat_of_mem_encodeChar hb with heq | hhigh
  · rw [heq]
    exact ⟨hlow, hmark⟩
  · omega

/-- Where there is a path or no query, the target is in origin form. -/
theorem Spells.target_eq (h : u.Spells start authority fragment s)
    (hform : u.path ≠ [] ∨ u.query = none) :
    u.target = u.originForm ∧ ∃ rest, u.target = '/' :: rest := by
  rcases h.path_slash with hnil | ⟨rest, hpath⟩
  · have hquery : u.query = none := hform.resolve_left fun hne => hne hnil
    have htarget : u.target = ['/'] := target_of_nil (by rw [hnil, hquery]; rfl)
    have horigin : u.originForm = ['/'] := by
      rw [originForm, if_pos hnil, hquery]
      rfl
    exact ⟨htarget.trans horigin.symm, [], htarget⟩
  · have hne : u.path ≠ [] := by
      rw [hpath]
      nofun
    have htarget : u.target = u.path ++ queryText u.query := target_of_ne_nil (by simp [hpath])
    refine ⟨by rw [htarget, originForm, if_neg hne], rest ++ queryText u.query, ?_⟩
    rw [htarget, hpath, List.cons_append]

/-- A query without a path is the target alone. -/
theorem target_of_query {q : List Char} (hpath : u.path = []) (hquery : u.query = some q) :
    u.target = '?' :: q := by
  rw [target, hpath, hquery]
  rfl

end Uri

namespace RequestHead

variable {h : RequestHead} {start authority fragment s : List Char}

/-! ### The line -/

/-- The request line, without its end. -/
def requestText (h : RequestHead) : Bytes :=
  h.method.bytes ++ 32 :: (Bytes.utf8 h.uri.target ++ 32 :: Bytes.ofText "HTTP/1.1")

theorem requestLine_eq (h : RequestHead) : h.requestLine = h.requestText ++ Bytes.crlf := by
  simp [requestLine, requestText]

theorem method_plain (h : RequestHead) : ∀ b ∈ h.method.bytes, b ≠ 32 ∧ b ≠ Bytes.cr ∧ b ≠ Bytes.lf := by
  intro b hb
  have htoken := h.method.isToken b hb
  refine ⟨?_, ?_, ?_⟩
  all_goals
    rintro rfl
    exact absurd htoken (by decide)

theorem target_plain (hspells : h.uri.Spells start authority fragment s) :
    ∀ b ∈ Bytes.utf8 h.uri.target, b ≠ 32 ∧ b ≠ Bytes.cr ∧ b ≠ Bytes.lf := by
  intro b hb
  obtain ⟨hlow, -⟩ := hspells.target_plain b hb
  refine ⟨?_, ?_, ?_⟩
  all_goals
    rintro rfl
    exact absurd hlow (by decide)

theorem requestText_inline (hspells : h.uri.Spells start authority fragment s) :
    ∀ b ∈ h.requestText, b ≠ Bytes.cr ∧ b ≠ Bytes.lf := by
  intro b hb
  simp only [requestText, List.mem_append, List.mem_cons] at hb
  rcases hb with hb | rfl | hb | rfl | hb
  · exact (h.method_plain b hb).2
  · decide
  · exact (target_plain hspells b hb).2
  · decide
  · revert b
    decide +kernel

/-- The request line reads back as method, target and version. -/
theorem split_requestText (hspells : h.uri.Spells start authority fragment s) :
    Bytes.split 32 h.requestText =
      [h.method.bytes, Bytes.utf8 h.uri.target, Bytes.ofText "HTTP/1.1"] := by
  have hmethod : (32 : UInt8) ∉ h.method.bytes := fun hmem => (h.method_plain 32 hmem).1 rfl
  have htarget : (32 : UInt8) ∉ Bytes.utf8 h.uri.target := fun hmem =>
    (target_plain hspells 32 hmem).1 rfl
  have hversion : (32 : UInt8) ∉ Bytes.ofText "HTTP/1.1" := by decide
  rw [Bytes.split_eq_splitOn, requestText, List.splitOn_append_cons_self_of_not_mem hmethod,
    List.splitOn_append_cons_self_of_not_mem htarget, List.splitOn_eq_singleton hversion]

/-- What starts with the request line opens with method, target and version. -/
theorem openingIn_requestLine (hspells : h.uri.Spells start authority fragment s) (rest : Bytes) :
    Bytes.openingIn (h.requestLine ++ rest) =
      [h.method.bytes, Bytes.utf8 h.uri.target, Bytes.ofText "HTTP/1.1"] := by
  rw [Bytes.openingIn, requestLine_eq, Bytes.lines_line (requestText_inline hspells),
    List.headD_cons, split_requestText hspells]

theorem openingIn_print (hspells : h.uri.Spells start authority fragment s) {framing : Framing}
    {bytes : Bytes} (hprint : h.print framing = .ok bytes) : Bytes.openingIn bytes =
      [h.method.bytes, Bytes.utf8 h.uri.target, Bytes.ofText "HTTP/1.1"] := by
  obtain ⟨-, value, -, -, rfl⟩ := eq_of_print hprint
  exact openingIn_requestLine hspells _

/-- **The target that is written.** For each URI with a host that can be read,
the head goes out, with a target that is not empty and holds no space, no line
end and no number sign. It is in origin form, behind a slash, unless the URI has
a query right behind its authority; then it is the query with its mark. -/
theorem target_written {host : List Char} (hparse : Uri.parse s = .ok h.uri)
    (hhost : h.uri.host = some host) (hversion : h.version = .http11) (framing : Framing) :
    (∃ start authority fragment, h.uri.Spells start authority fragment s) ∧
      (∃ bytes, h.print framing = .ok bytes ∧ Bytes.openingIn bytes =
        [h.method.bytes, Bytes.utf8 h.uri.target, Bytes.ofText "HTTP/1.1"]) ∧
      h.uri.target ≠ [] ∧
      (∀ b ∈ Bytes.utf8 h.uri.target, b ≠ 32 ∧ b ≠ Bytes.cr ∧ b ≠ Bytes.lf ∧ b ≠ 35) ∧
      (h.uri.path ≠ [] ∨ h.uri.query = none →
        h.uri.target = h.uri.originForm ∧ ∃ rest, h.uri.target = '/' :: rest) ∧
      ∀ q, h.uri.path = [] → h.uri.query = some q → h.uri.target = '?' :: q := by
  obtain ⟨start, authority, fragment, hspells⟩ := Uri.exists_spells hparse hhost
  obtain ⟨bytes, hprint⟩ :=
    print_of_wellFormed (Uri.wellFormed_of_parse hparse) hhost hversion framing
  refine ⟨⟨start, authority, fragment, hspells⟩, ⟨bytes, hprint, openingIn_print hspells hprint⟩,
    h.uri.target_ne_nil, fun b hb => ?_, hspells.target_eq, fun q => Uri.target_of_query⟩
  obtain ⟨hspace, hcr, hlf⟩ := target_plain hspells b hb
  refine ⟨hspace, hcr, hlf, ?_⟩
  rintro rfl
  exact (hspells.target_plain 35 hb).2 rfl

/-- The head of a request for what a URI names, without fields. -/
def plainGet (u : Uri) : RequestHead := { plainRequest.head with uri := u }

theorem target_written_origin : ∃ u bytes, Uri.parse "HTTP://u@h:82/a?b#c".toList = .ok u ∧
    u.host = some ['h'] ∧ (plainGet u).print (.length 0) = .ok bytes ∧
    Bytes.openingIn bytes = [Bytes.ofText "GET", Bytes.ofText "/a?b", Bytes.ofText "HTTP/1.1"] ∧
    u.target = u.originForm := by
  have hparse : Uri.parse "HTTP://u@h:82/a?b#c".toList = .ok
      { scheme := some "http".toList, authority := some "u@h:82".toList,
        path := "/a".toList, query := some ['b'] } := rfl
  have hhost : Uri.host ⟨some "http".toList, some "u@h:82".toList, "/a".toList, some ['b']⟩ =
      some ['h'] := by
    decide
  obtain ⟨-, ⟨bytes, hprint, hopening⟩, -, -, hform, -⟩ :=
    target_written (h := plainGet _) hparse hhost rfl (.length 0)
  exact ⟨_, bytes, hparse, hhost, hprint, hopening, (hform (.inl (by decide))).1⟩

/-- A query right behind the authority is written without a slash in front. -/
theorem target_query_alone : ∃ u bytes, Uri.parse "http://h?x".toList = .ok u ∧
    u.host = some ['h'] ∧ (plainGet u).print (.length 0) = .ok bytes ∧
    Bytes.openingIn bytes = [Bytes.ofText "GET", Bytes.ofText "?x", Bytes.ofText "HTTP/1.1"] ∧
    u.originForm = "/?x".toList ∧ u.target = "?x".toList := by
  have hparse : Uri.parse "http://h?x".toList = .ok
      { scheme := some "http".toList, authority := some ['h'], query := some ['x'] } := rfl
  have hhost : Uri.host ⟨some "http".toList, some ['h'], [], some ['x']⟩ = some ['h'] := by decide
  obtain ⟨start, authority, fragment, hspells⟩ := Uri.exists_spells hparse hhost
  obtain ⟨bytes, hprint⟩ := print_of_wellFormed (h := plainGet _)
    (Uri.wellFormed_of_parse hparse) hhost rfl (.length 0)
  exact ⟨_, bytes, hparse, hhost, hprint, openingIn_print (h := plainGet _) hspells hprint,
    by decide, by decide⟩

end RequestHead
end Http1Client
