/-
# How a URI is spelled

The text of a URI with an authority is, one behind the other, a scheme with its
marks, the authority, a path, a query with its mark and a fragment; all but the
authority may be missing (`Uri.Spells`). A URI that was read from a text is
spelled by it, with the parts that the URI keeps (`Uri.exists_spells`): the
scheme up to the letter case, authority, path and query as they are written.

The host that a URI names is the one in its text, and the port that it means is
the number that stands in its text (`Uri.endpoint_of_parse`). Where the text has
a port that is no such number, the URI means the usual port of its scheme, as it
does where there is none (`Uri.PortMeant`).

Key definitions: `Uri.Spells`, `Uri.PortMeant`, `Uri.Endpoint`.
Key theorems: `Uri.exists_spells`, `Uri.endpoint_of_parse`.
-/
import Http1Client.Proofs.Uri.Authority

namespace Http1Client
namespace Uri

/-- A scheme with the marks behind it. -/
def schemeText : Option (List Char) → List Char
  | none => []
  | some scheme => scheme ++ "://".toList

/-- The text `s` spells the URI, from `start` for its scheme on. -/
structure Spells (u : Uri) (start authority fragment s : List Char) : Prop where
  text : s = start ++ (authority ++ (u.path ++ (queryText u.query ++ fragment)))
  /-- A scheme is kept up to the letter case. -/
  start_lower : start.map Char.toLower = (schemeText u.scheme).map Char.toLower
  https_iff : u.scheme = some "https".toList ↔ start.map Char.toLower = "https://".toList
  authority_eq : u.authority = some authority
  /-- The first of these marks ends the authority. -/
  authority_plain : ∀ c ∈ authority, endsAuthority c = false
  scanned : ∃ seen, authority.foldlM AuthorityScan.step {} = .ok seen ∧ seen.mayEnd = true
  path_slash : u.path = [] ∨ ∃ rest, u.path = '/' :: rest
  path_chars : ∀ c ∈ u.path, isPathChar c = true
  query_chars : ∀ q, u.query = some q → ∀ c ∈ q, isQueryChar c = true
  fragment_mark : fragment = [] ∨ ∃ rest, fragment = '#' :: rest

/-! ### The parts -/

/-- What stands first behind a run of characters that satisfy `p` does not. -/
theorem dropWhile_head {α : Type} {p : α → Bool} {s rest : List α} {x : α}
    (h : s.dropWhile p = x :: rest) : p x = false := by
  have hne : s.dropWhile p ≠ [] := by
    rw [h]
    nofun
  have hhead := List.head_dropWhile_not p hne
  simpa [h] using hhead

theorem splitScheme_ok {s rest : List Char} {scheme : Option (List Char)}
    (h : splitScheme s = .ok (scheme, rest)) : ∃ start, s = start ++ rest ∧
      start.map Char.toLower = (schemeText scheme).map Char.toLower ∧
      (scheme = some "https".toList ↔ start.map Char.toLower = "https://".toList) := by
  have hnone : ∃ start, s = start ++ s ∧
      start.map Char.toLower = (schemeText none).map Char.toLower ∧
      ((none : Option (List Char)) = some "https".toList ↔
        start.map Char.toLower = "https://".toList) :=
    ⟨[], rfl, rfl, by simp⟩
  unfold splitScheme at h
  split at h
  · next hhttp =>
    cases h
    exact ⟨s.take 7, (List.take_append_drop ..).symm, by rw [hhttp]; decide, by rw [hhttp]; decide⟩
  split at h
  · next hhttps =>
    cases h
    exact ⟨s.take 8, (List.take_append_drop ..).symm, by rw [hhttps]; decide,
      by rw [hhttps]; decide⟩
  next hhttps =>
  split at h
  · next rest' hrest =>
    dsimp only at h
    split at h
    · cases h
      exact hnone
    split at h
    · cases h
    cases h
    have htext : s = (s.takeWhile isSchemeChar ++ "://".toList) ++ rest := by
      calc s = s.takeWhile isSchemeChar ++ s.dropWhile isSchemeChar :=
            List.takeWhile_append_dropWhile.symm
        _ = s.takeWhile isSchemeChar ++ ("://".toList ++ rest) := by rw [hrest]; rfl
        _ = (s.takeWhile isSchemeChar ++ "://".toList) ++ rest := (List.append_assoc ..).symm
    -- The letters of the common schemes were looked for before.
    have hother : (s.takeWhile isSchemeChar ++ "://".toList).map Char.toLower ≠
        "https://".toList := by
      intro hlower
      have hlength := congrArg List.length hlower
      rw [List.length_map] at hlength
      have htake : s.take 8 = s.takeWhile isSchemeChar ++ "://".toList :=
        (congrArg (List.take 8) htext).trans (List.take_left' hlength)
      exact hhttps (by rw [htake, hlower])
    refine ⟨_, htext, rfl, fun hscheme => ?_, fun hlower => absurd hlower hother⟩
    rw [Option.some.injEq] at hscheme
    rw [hscheme] at hother
    exact absurd (by decide) hother
  · cases h
    exact hnone

theorem splitAuthority_ok {s authority left : List Char}
    (h : splitAuthority s = .ok (authority, left)) : s = authority ++ left ∧
      (∀ c ∈ authority, endsAuthority c = false) ∧
      (∃ seen, authority.foldlM AuthorityScan.step {} = .ok seen ∧ seen.mayEnd = true) ∧
      ∀ c rest, left = c :: rest → endsAuthority c = true := by
  unfold splitAuthority at h
  split at h
  · cases h
  dsimp only at h
  split at h
  · cases h
  next seen hseen =>
  split at h
  · next hend =>
    cases h
    refine ⟨List.takeWhile_append_dropWhile.symm, fun c hc => ?_, ⟨seen, hseen, hend⟩, ?_⟩
    · simpa using List.all_eq_true.mp List.all_takeWhile c hc
    · intro c rest hleft
      simpa using dropWhile_head hleft
  · cases h

theorem splitPath_ok {s path : List Char} {query : Option (List Char)}
    (h : splitPath s = .ok (path, query)) : ∃ fragment,
      s = path ++ (queryText query ++ fragment) ∧ (∀ c ∈ path, isPathChar c = true) ∧
      (∀ q, query = some q → ∀ c ∈ q, isQueryChar c = true) ∧
      (fragment = [] ∨ ∃ rest, fragment = '#' :: rest) := by
  unfold splitPath at h
  dsimp only at h
  split at h
  · cases h
  next hpath =>
  have hpath : ∀ c ∈ s.takeWhile fun c => c != '?' && c != '#', isPathChar c = true := by
    simpa using hpath
  have htext := List.takeWhile_append_dropWhile (p := fun c => c != '?' && c != '#') (l := s)
  split at h
  · next rest hrest =>
    split at h
    · next hquery =>
      cases h
      refine ⟨rest.dropWhile (· != '#'), ?_, hpath, ?_, ?_⟩
      · rw [queryText, List.cons_append, List.takeWhile_append_dropWhile, ← hrest]
        exact htext.symm
      · rintro q ⟨⟩ c hc
        exact List.all_eq_true.mp hquery c hc
      · cases hfragment : rest.dropWhile (· != '#') with
        | nil => exact .inl rfl
        | cons c left =>
          have hmark : c = '#' := by simpa using dropWhile_head hfragment
          exact .inr ⟨left, by rw [hmark]⟩
    · cases h
  · next hquery =>
    cases h
    refine ⟨s.dropWhile fun c => c != '?' && c != '#', htext.symm, hpath, nofun, ?_⟩
    cases hfragment : s.dropWhile fun c => c != '?' && c != '#' with
    | nil => exact .inl rfl
    | cons c left =>
      have hmark : c = '?' ∨ c = '#' := by
        simpa [Classical.or_iff_not_imp_left] using dropWhile_head hfragment
      rcases hmark with rfl | rfl
      · exact absurd hfragment (hquery left)
      · exact .inr ⟨left, rfl⟩

theorem isPathChar_ne {c : Char} (h : isPathChar c = true) : c ≠ '?' ∧ c ≠ '#' := by
  constructor
  all_goals
    rintro rfl
    exact absurd h (by decide)

/-- A path behind an authority starts with a slash. -/
theorem path_slash_of_ends {path behind : List Char} (hpath : ∀ c ∈ path, isPathChar c = true)
    (hends : ∀ c rest, path ++ behind = c :: rest → endsAuthority c = true) :
    path = [] ∨ ∃ rest, path = '/' :: rest := by
  cases path with
  | nil => exact .inl rfl
  | cons c rest =>
    have hc := hends c _ rfl
    obtain ⟨hquery, hfragment⟩ := isPathChar_ne (hpath c (List.mem_cons_self ..))
    have hslash : c = '/' := by simpa [endsAuthority, hquery, hfragment] using hc
    exact .inr ⟨rest, by rw [hslash]⟩

/-! ### The whole -/

theorem exists_spells_of_parseAbsolute {s : List Char} {u : Uri} (h : parseAbsolute s = .ok u) :
    ∃ start authority fragment, u.Spells start authority fragment s := by
  obtain ⟨⟨scheme, rest⟩, hscheme, h⟩ := ok_of_bind h
  obtain ⟨⟨authority, left⟩, hauthority, h⟩ := ok_of_bind h
  obtain ⟨start, rfl, hlower, hhttps⟩ := splitScheme_ok hscheme
  obtain ⟨rfl, hplain, hseen, hends⟩ := splitAuthority_ok hauthority
  refine ⟨start, authority, ?_⟩
  cases scheme with
  | none =>
    dsimp only at h
    split at h
    · next hleft =>
      cases h
      subst hleft
      exact ⟨[], rfl, hlower, hhttps, rfl, hplain, hseen, .inl rfl, by simp, nofun, .inl rfl⟩
    · split at h <;> cases h
  | some scheme =>
    dsimp only at h
    split at h
    · cases h
    · obtain ⟨⟨path, query⟩, hpath, hu⟩ := ok_of_bind h
      cases hu
      obtain ⟨fragment, rfl, hchars, hquery, hfragment⟩ := splitPath_ok hpath
      exact ⟨fragment, rfl, hlower, hhttps, rfl, hplain, hseen, path_slash_of_ends hchars hends,
        hchars, hquery, hfragment⟩

/-- A URI with a host is spelled by the text that it was read from. -/
theorem exists_spells {s host : List Char} {u : Uri} (h : parse s = .ok u)
    (hhost : u.host = some host) :
    ∃ start authority fragment, u.Spells start authority fragment s := by
  have hnone : u.authority ≠ none := by
    intro hnone
    rw [Uri.host, hnone] at hhost
    cases hhost
  unfold parse at h
  split at h
  · cases h
  split at h
  · cases h
  · cases h
    exact absurd rfl hnone
  · obtain ⟨⟨path, query⟩, -, h⟩ := ok_of_bind h
    cases h
    exact absurd rfl hnone
  · exact exists_spells_of_parseAbsolute h

/-! ### Host and port -/

/-- The port that is meant by the one that is written behind `start`, if one is. -/
inductive PortMeant (start : List Char) : Option (List Char) → Nat → Prop where
  | named {digits : List Char} {n : Nat} : IsPort digits n → PortMeant start (some digits) n
  | signed {digits : List Char} {n : Nat} :
    IsPort digits n → PortMeant start (some ('+' :: digits)) n
  /-- Whatever else is written, or nothing. -/
  | usual {port : Option (List Char)} :
    (∀ p n, port = some p → ¬ IsPort p n ∧ ∀ digits, p = '+' :: digits → ¬ IsPort digits n) →
    PortMeant start port (if start.map Char.toLower = "https://".toList then 443 else 80)

theorem portMeant_getD (start : List Char) (port : Option (List Char)) :
    PortMeant start port ((port.bind portNumber?).getD
      (if start.map Char.toLower = "https://".toList then 443 else 80)) := by
  cases hread : port.bind portNumber? with
  | some n =>
    obtain ⟨p, rfl, hp⟩ := Option.bind_eq_some_iff.mp hread
    rcases portNumber?_eq_some_iff.mp hp with hnamed | ⟨digits, rfl, hsigned⟩
    · exact .named hnamed
    · exact .signed hsigned
  | none =>
    refine .usual fun p n hport => ?_
    have hnone : portNumber? p ≠ some n := by
      rw [hport, Option.bind_some] at hread
      rw [hread]
      nofun
    rw [Ne, portNumber?_eq_some_iff, not_or] at hnone
    exact ⟨hnone.1, fun digits hp hdigits => hnone.2 ⟨digits, hp, hdigits⟩⟩

/-- A host and a port of the URI stand in its text: the host behind the user
information, or the front of it where brackets stand in it without enclosing it,
and the port behind the host. -/
def Endpoint (u : Uri) (s host : List Char) (n : Nat) : Prop :=
  ∃ start authority fragment user written port,
    u.Spells start authority fragment s ∧ Splits authority user written port ∧
      host <+: written ∧ (IsHost written → host = written) ∧ PortMeant start port n

theorem Spells.endpoint {u : Uri} {start authority fragment s host : List Char}
    (h : u.Spells start authority fragment s) (hhost : u.host = some host) :
    u.Endpoint s host u.port := by
  obtain ⟨user, written, port, hsplits⟩ := exists_splits authority
  obtain ⟨seen, hseen, hend⟩ := h.scanned
  have hread : host = hostOf authority := by
    rw [Uri.host, h.authority_eq] at hhost
    cases hhost
    rfl
  have hport : u.port = (port.bind portNumber?).getD
      (if start.map Char.toLower = "https://".toList then 443 else 80) := by
    rw [Uri.port, Uri.namedPort, h.authority_eq, Option.bind_some, hsplits.portOf]
    simp only [h.https_iff]
  obtain ⟨hfront, hwhole⟩ := hsplits.hostOf hseen hend
  refine ⟨start, authority, fragment, user, written, port, h, hsplits, hread ▸ hfront,
    fun hw => hread.trans (hwhole hw), ?_⟩
  rw [hport]
  exact portMeant_getD start port

/-- The host and the port of a URI are those of the text that it was read
from. -/
theorem endpoint_of_parse {u : Uri} {s host : List Char} (h : parse s = .ok u)
    (hhost : u.host = some host) : u.Endpoint s host u.port := by
  obtain ⟨start, authority, fragment, hspells⟩ := exists_spells h hhost
  exact hspells.endpoint hhost

end Uri
end Http1Client
