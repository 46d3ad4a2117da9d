/-
# The parts of an authority

An authority is written as user information, a host and a port, of which only
the host has to be there. The user information ends at the last at sign. The port
begins at the last colon, unless that stands in the user information or in front
of a closing bracket (`Uri.Splits`). Every authority has these parts
(`Uri.exists_splits`).

The port that is read off an authority is the number that its port denotes, if it
denotes one (`Uri.Splits.portOf`, `Uri.portNumber?_eq_some_iff`). The host that
is read off it is the host that is written. Only where brackets stand in a host
without enclosing it, which a URI may have too, it is the front of that host
(`Uri.Splits.hostOf`).

Key definitions: `Uri.Splits`, `Uri.IsHost`, `Uri.IsPort`.
Key theorems: `Uri.exists_splits`, `Uri.Splits.portOf`, `Uri.Splits.hostOf`,
`Uri.portNumber?_eq_some_iff`.
-/
import Http1Client.Proofs.Head.Delimiting
import Http1Client.Proofs.Head.Printing

namespace Http1Client
namespace Uri

/-! ### Behind the last one -/

section AfterLast

variable {c m : Char} {r z : List Char}

theorem afterLast_eq_none_iff : ∀ {s : List Char}, afterLast c s = none ↔ c ∉ s
  | [] => by simp [afterLast]
  | x :: xs => by
    rw [List.mem_cons, not_or, ← afterLast_eq_none_iff, afterLast]
    cases afterLast c xs with
    | some r => simp
    | none =>
      by_cases hx : x = c
      · simp [hx]
      · simp [hx, Ne.symm hx]

theorem afterLast_cons (h : c ∉ r) : ∀ x : List Char, afterLast c (x ++ c :: r) = some r
  | [] => by
    rw [List.nil_append, afterLast, afterLast_eq_none_iff.mpr h]
    exact if_pos rfl
  | y :: ys => by rw [List.cons_append, afterLast, afterLast_cons h ys]

theorem exists_of_afterLast : ∀ {s : List Char}, afterLast c s = some r →
    ∃ x, s = x ++ c :: r ∧ c ∉ r
  | [], h => by cases h
  | y :: ys, h => by
    rw [afterLast] at h
    split at h
    · next r' hr' =>
      cases h
      obtain ⟨x, rfl, hr⟩ := exists_of_afterLast hr'
      exact ⟨y :: x, rfl, hr⟩
    · next hnone =>
      split at h
      · next hy =>
        cases h
        exact ⟨[], by rw [hy]; rfl, afterLast_eq_none_iff.mp hnone⟩
      · cases h

/-- What stands behind the last one goes on with what holds none. -/
theorem afterLast_append (h : c ∉ z) : ∀ x : List Char,
    afterLast c (x ++ z) = (afterLast c x).map (· ++ z)
  | [] => afterLast_eq_none_iff.mpr h
  | y :: ys => by
    rw [List.cons_append, afterLast, afterLast, afterLast_append h ys]
    cases afterLast c ys with
    | some r => rfl
    | none =>
      by_cases hy : y = c
      · simp [hy]
      · simp [hy]

/-- A mark with none behind it stands behind the last one. -/
theorem mem_of_afterLast_append {x s : List Char} (hm : m ≠ c) (hz : c ∉ z)
    (h : afterLast c (x ++ m :: z) = some s) : m ∈ s := by
  have hnone : c ∉ m :: z := by
    rw [List.mem_cons, not_or]
    exact ⟨hm.symm, hz⟩
  rw [afterLast_append hnone, Option.map_eq_some_iff] at h
  obtain ⟨y, -, rfl⟩ := h
  exact List.mem_append_right _ (List.mem_cons_self ..)

end AfterLast

/-! ### Parts -/

/-- User information with the at sign behind it. -/
def userText : Option (List Char) → List Char
  | none => []
  | some user => user ++ ['@']

/-- A port with the colon in front of it. -/
def portText : Option (List Char) → List Char
  | none => []
  | some port => ':' :: port

/-- An authority is written as these parts, one behind the other. -/
structure Splits (authority : List Char) (user : Option (List Char)) (host : List Char)
    (port : Option (List Char)) : Prop where
  text : authority = userText user ++ (host ++ portText port)
  /-- The last at sign ends the user information. -/
  host_noAt : '@' ∉ host
  /-- The last colon begins the port. -/
  port_plain : ∀ p, port = some p → ∀ c ∈ p, c ≠ '@' ∧ c ≠ ':' ∧ c ≠ ']'
  /-- There is no port where no colon stands behind the brackets. -/
  noPort : port = none → ':' ∉ (afterLast ']' host).getD host

/-- Every authority has its parts. -/
theorem exists_splits (authority : List Char) :
    ∃ user host port, Splits authority user host port := by
  -- First the user information is cut off, then what ends in brackets, then the port.
  obtain ⟨user, behind, htext, hat⟩ : ∃ user behind,
      authority = userText user ++ behind ∧ '@' ∉ behind := by
    cases hlast : afterLast '@' authority with
    | none => exact ⟨none, authority, rfl, afterLast_eq_none_iff.mp hlast⟩
    | some behind =>
      obtain ⟨user, rfl, hat⟩ := exists_of_afterLast hlast
      exact ⟨some user, behind, by simp [userText], hat⟩
  obtain ⟨front, tail, hbehind, htail, hbracket⟩ : ∃ front tail,
      behind = front ++ tail ∧ (afterLast ']' behind).getD behind = tail ∧ ']' ∉ tail := by
    cases hlast : afterLast ']' behind with
    | none => exact ⟨[], behind, rfl, rfl, afterLast_eq_none_iff.mp hlast⟩
    | some tail =>
      obtain ⟨front, rfl, hbracket⟩ := exists_of_afterLast hlast
      exact ⟨front ++ [']'], tail, by simp, rfl, hbracket⟩
  cases hlast : afterLast ':' tail with
  | none =>
    refine ⟨user, behind, none, by simpa [portText] using htext, hat, nofun, fun _ => ?_⟩
    rw [htail]
    exact afterLast_eq_none_iff.mp hlast
  | some p =>
    obtain ⟨rest, rfl, hcolon⟩ := exists_of_afterLast hlast
    have hsplit : behind = (front ++ rest) ++ ':' :: p := by rw [hbehind, List.append_assoc]
    rw [hsplit] at hat htext
    refine ⟨user, front ++ rest, some p, htext, fun h => hat (List.mem_append_left _ h), ?_, nofun⟩
    rintro _ ⟨⟩ c hc
    have hp : c ∈ ':' :: p := List.mem_cons_of_mem _ hc
    refine ⟨?_, ?_, ?_⟩
    all_goals rintro rfl
    · exact hat (List.mem_append_right _ hp)
    · exact hcolon hc
    · exact hbracket (List.mem_append_right _ hp)

section Splits

variable {authority host : List Char} {user port : Option (List Char)}

theorem Splits.notAt_portText (h : Splits authority user host port) : '@' ∉ host ++ portText port := by
  intro hmem
  rcases List.mem_append.mp hmem with hmem | hmem
  · exact h.host_noAt hmem
  · cases hport : port with
    | none => simp [hport, portText] at hmem
    | some p =>
      rw [hport, portText, List.mem_cons] at hmem
      exact (h.port_plain p hport '@' (hmem.resolve_left (by decide))).1 rfl

/-- The user information ends where it is taken to end. -/
theorem Splits.behindUser (h : Splits authority user host port) :
    (afterLast '@' authority).getD authority = host ++ portText port := by
  have hat := h.notAt_portText
  rw [h.text]
  cases user with
  | none =>
    have hnone : afterLast '@' (host ++ portText port) = none := afterLast_eq_none_iff.mpr hat
    rw [userText, List.nil_append, hnone]
    rfl
  | some user =>
    rw [userText, List.append_assoc, List.singleton_append, afterLast_cons hat user]
    rfl

/-! ### The port -/

/-- A row of decimal digits that denotes the number of a port. -/
structure IsPort (digits : List Char) (n : Nat) : Prop where
  ne_nil : digits ≠ []
  isDigit : ∀ c ∈ digits, c.isDigit = true
  denotes : Nat.ofDigits 10 (digits.reverse.map fun c => c.toNat - 48) = n
  bound : n < 65536

theorem decimalValue_eq (acc : Nat) : ∀ s : List Char,
    decimalValue acc s = Numeral.value 10 acc (s.map fun c => c.toNat - 48)
  | [] => rfl
  | c :: cs => decimalValue_eq (acc * 10 + (c.toNat - 48)) cs

/-- The number of digits, if it is one of a port. -/
theorem isPort_iff {s : List Char} {n : Nat} :
    (if s ≠ [] ∧ s.all Char.isDigit ∧ decimalValue 0 s < 65536 then some (decimalValue 0 s)
      else none) = some n ↔ IsPort s n := by
  have hvalue : decimalValue 0 s = Nat.ofDigits 10 (s.reverse.map fun c => c.toNat - 48) := by
    rw [decimalValue_eq, Numeral.value_eq_ofDigits, List.map_reverse]
  rw [Option.ite_none_right_eq_some, Option.some.injEq, hvalue, List.all_eq_true]
  constructor
  · rintro ⟨⟨hne, hdigit, hbound⟩, rfl⟩
    exact ⟨hne, hdigit, rfl, hbound⟩
  · rintro ⟨hne, hdigit, rfl, hbound⟩
    exact ⟨⟨hne, hdigit, hbound⟩, rfl⟩

/-- What is read as the number of a port: digits that denote one, and digits
behind a plus sign too. -/
theorem portNumber?_eq_some_iff {s : List Char} {n : Nat} : portNumber? s = some n ↔
    IsPort s n ∨ ∃ digits, s = '+' :: digits ∧ IsPort digits n := by
  by_cases hplus : ∃ rest, s = '+' :: rest
  · obtain ⟨rest, rfl⟩ := hplus
    have hsign : ¬ IsPort ('+' :: rest) n := fun h =>
      absurd (h.isDigit '+' (List.mem_cons_self ..)) (by decide)
    have hread : portNumber? ('+' :: rest) = some n ↔ IsPort rest n := isPort_iff
    simp [hread, hsign]
  · have hread : portNumber? s = some n ↔ IsPort s n := by
      rw [← isPort_iff]
      unfold portNumber?
      dsimp only
      split
      · next rest => exact absurd ⟨rest, rfl⟩ hplus
      · exact Iff.rfl
    rw [hread]
    exact ⟨.inl, fun h => h.resolve_right fun ⟨digits, hs, _⟩ => hplus ⟨digits, hs⟩⟩

/-- What holds an at sign or a bracket is no port. -/
theorem portNumber?_eq_none {s : List Char} {m : Char} (hm : m ∈ s) (hmark : m = '@' ∨ m = ']') :
    portNumber? s = none := by
  have hnot (digits : List Char) (n : Nat) (hin : m ∈ digits) : ¬ IsPort digits n := by
    intro h
    have hdigit := h.isDigit m hin
    rcases hmark with rfl | rfl <;> exact absurd hdigit (by decide)
  cases hn : portNumber? s with
  | none => rfl
  | some n =>
    rcases portNumber?_eq_some_iff.mp hn with h | ⟨digits, rfl, h⟩
    · exact absurd h (hnot s n hm)
    · have hin : m ∈ digits := by
        rcases List.mem_cons.mp hm with rfl | hin
        · rcases hmark with h | h <;> cases h
        · exact hin
      exact absurd h (hnot digits n hin)

/-- Without a port, the last colon stands in front of a bracket or of the at
sign. -/
theorem Splits.mark_of_afterLast (h : Splits authority user host none) {r : List Char}
    (hlast : afterLast ':' authority = some r) : ∃ m ∈ r, m = '@' ∨ m = ']' := by
  have hcolon := h.noPort rfl
  have htext : authority = userText user ++ host := by
    rw [h.text, portText, List.append_nil]
  cases hbracket : afterLast ']' host with
  | some t =>
    rw [hbracket] at hcolon
    obtain ⟨front, rfl, -⟩ := exists_of_afterLast hbracket
    rw [htext, ← List.append_assoc] at hlast
    exact ⟨']', mem_of_afterLast_append (by decide) hcolon hlast, .inr rfl⟩
  | none =>
    rw [hbracket] at hcolon
    cases user with
    | none =>
      have hnone : afterLast ':' authority = none := afterLast_eq_none_iff.mpr (by rwa [htext])
      rw [hlast] at hnone
      cases hnone
    | some user =>
      rw [htext, userText, List.append_assoc] at hlast
      exact ⟨'@', mem_of_afterLast_append (by decide) hcolon hlast, .inl rfl⟩

/-- The port that is read is the number that the port denotes, and there is
none where it denotes none. -/
theorem Splits.portOf (h : Splits authority user host port) :
    Uri.portOf authority = port.bind portNumber? := by
  rw [Uri.portOf]
  cases port with
  | some p =>
    have hcolon : ':' ∉ p := fun hmem => (h.port_plain p rfl ':' hmem).2.1 rfl
    have htext : authority = (userText user ++ host) ++ ':' :: p := by
      rw [h.text, List.append_assoc]
      rfl
    rw [htext, afterLast_cons hcolon]
  | none =>
    cases hlast : afterLast ':' authority with
    | none => rfl
    | some r =>
      -- What stands behind the last colon has a mark in it, so it is no number.
      obtain ⟨m, hm, hmark⟩ := h.mark_of_afterLast hlast
      exact portNumber?_eq_none hm hmark

/-! ### The host -/

/-- Brackets, if the text has any, stand around it. -/
def IsHost (host : List Char) : Prop :=
  (∃ inside, host = '[' :: (inside ++ [']']) ∧ ']' ∉ inside) ∨ '[' ∉ host ∧ ']' ∉ host

end Splits

/-! ### What was scanned -/

namespace AuthorityScan

/-- What one more character does to a scan. -/
inductive Steps (s : AuthorityScan) : Char → AuthorityScan → Prop where
  | colon : Steps s ':' { s with colons := s.colons + 1, atSign := false }
  | opens : s.opened = false → Steps s '[' { s with opened := true, atSign := false }
  | closes : s.opened = true →
      Steps s ']' { s with closed := true, colons := 0, percent := false, atSign := false }
  | atSign : Steps s '@' { s with colons := 0, percent := false, atSign := true }
  | percent : Steps s '%' { s with percent := true, atSign := false }
  | other {c : Char} : c ≠ ':' → c ≠ '[' → c ≠ ']' → c ≠ '@' → Steps s c { s with atSign := false }

variable {s s' : AuthorityScan} {c : Char} {cs : List Char}

theorem steps_of_ok (h : s.step c = .ok s') : s.Steps c s' := by
  unfold step at h
  split at h
  · next hc =>
    subst hc
    split at h <;> cases h
    exact .colon
  · next hcolon =>
    split at h
    · next hc =>
      subst hc
      split at h
      · cases h
      · next hno =>
        cases h
        exact .opens (by simp at hno; exact hno.2)
    · next hopen =>
      split at h
      · next hc =>
        subst hc
        split at h
        · cases h
        · next hno =>
          cases h
          exact .closes (by simp at hno; exact hno.1)
      · next hclose =>
        split at h
        · next hc =>
          subst hc
          cases h
          exact .atSign
        · next hat =>
          split at h
          · next hc =>
            subst hc
            cases h
            exact .percent
          · split at h <;> cases h
            exact .other hcolon hopen hclose hat

/-- A bracket is closed only behind one that was opened, which one more character
leaves so. -/
theorem Steps.opened (h : s.Steps c s') (hs : s.closed = true → s.opened = true) :
    (s'.closed = true → s'.opened = true) ∧ (s.opened = true → s'.opened = true) := by
  cases h with
  | opens => exact ⟨fun _ => rfl, fun _ => rfl⟩
  | closes hopen => exact ⟨fun _ => hopen, id⟩
  | _ => exact ⟨hs, id⟩

theorem opened_of_foldlM : ∀ {cs : List Char} {s s' : AuthorityScan},
    cs.foldlM step s = .ok s' → (s.closed = true → s.opened = true) →
    (s'.closed = true → s'.opened = true) ∧ (s.opened = true → s'.opened = true)
  | [], _, _, h, hs => by
    cases h
    exact ⟨hs, id⟩
  | c :: cs, s, s', h, hs => by
    rw [List.foldlM_cons] at h
    obtain ⟨s₁, hstep, hrest⟩ := ok_of_bind h
    obtain ⟨hfirst, hkeeps⟩ := (steps_of_ok hstep).opened hs
    obtain ⟨hlast, hkept⟩ := opened_of_foldlM hrest hfirst
    exact ⟨hlast, fun hopen => hkept (hkeeps hopen)⟩

theorem closed_of_foldlM : ∀ {cs : List Char} {s s' : AuthorityScan},
    cs.foldlM step s = .ok s' → ']' ∉ cs → s'.closed = s.closed
  | [], _, _, h, _ => by
    cases h
    rfl
  | c :: cs, s, s', h, hcs => by
    rw [List.mem_cons, not_or] at hcs
    rw [List.foldlM_cons] at h
    obtain ⟨s₁, hstep, hrest⟩ := ok_of_bind h
    have hclosed := closed_of_foldlM hrest hcs.2
    cases steps_of_ok hstep with
    | closes => exact absurd rfl hcs.1
    | _ => exact hclosed

/-- Where neither an at sign nor a bracket begins the count anew, every colon
counts. -/
theorem colons_of_foldlM : ∀ {cs : List Char} {s s' : AuthorityScan},
    cs.foldlM step s = .ok s' → '@' ∉ cs → ']' ∉ cs → s'.colons = s.colons + cs.count ':'
  | [], _, _, h, _, _ => by
    cases h
    rfl
  | c :: cs, s, s', h, hat, hclose => by
    rw [List.mem_cons, not_or] at hat hclose
    rw [List.foldlM_cons] at h
    obtain ⟨s₁, hstep, hrest⟩ := ok_of_bind h
    have hcolons := colons_of_foldlM hrest hat.2 hclose.2
    cases steps_of_ok hstep with
    | colon =>
      rw [hcolons, List.count_cons_self]
      exact Nat.add_right_comm ..
    | closes => exact absurd rfl hclose.1
    | atSign => exact absurd rfl hat.1
    | opens => simpa [List.count_cons] using hcolons
    | percent => simpa [List.count_cons] using hcolons
    | other hcolon => simpa [List.count_cons, hcolon] using hcolons

end AuthorityScan

section Host

variable {authority host : List Char} {user port : Option (List Char)} {seen : AuthorityScan}

theorem Splits.notBracket_portText (h : Splits authority user host port) : ']' ∉ portText port := by
  intro hmem
  cases hport : port with
  | none => simp [hport, portText] at hmem
  | some p =>
    rw [hport, portText, List.mem_cons] at hmem
    exact (h.port_plain p hport ']' (hmem.resolve_left (by decide))).2.2 rfl

/-- What is scanned behind the user information. -/
theorem Splits.scanned (h : Splits authority user host port)
    (hseen : authority.foldlM AuthorityScan.step {} = .ok seen) : ∃ s : AuthorityScan,
      (s.closed = true → s.opened = true) ∧
        (host ++ portText port).foldlM AuthorityScan.step s = .ok seen := by
  rw [h.text, List.foldlM_append] at hseen
  obtain ⟨s, huser, hrest⟩ := ok_of_bind hseen
  exact ⟨s, (AuthorityScan.opened_of_foldlM huser nofun).1, hrest⟩

/-- A bracket at the front of a host is closed in it. -/
theorem Splits.closes {inside : List Char} (h : Splits authority user ('[' :: inside) port)
    (hseen : authority.foldlM AuthorityScan.step {} = .ok seen) (hend : seen.mayEnd = true) :
    ']' ∈ inside := by
  obtain ⟨s, hopened, hscan⟩ := h.scanned hseen
  rw [List.cons_append, List.foldlM_cons] at hscan
  obtain ⟨s₁, hstep, hrest⟩ := ok_of_bind hscan
  by_contra hnone
  have hclosed : ']' ∉ inside ++ portText port := by
    intro hmem
    exact (List.mem_append.mp hmem).elim hnone h.notBracket_portText
  cases AuthorityScan.steps_of_ok hstep with
  | opens hno =>
    have hfirst : s.closed = false := by
      rw [← Bool.not_eq_true]
      intro hc
      rw [hopened hc] at hno
      cases hno
    have h1 : seen.opened = true := (AuthorityScan.opened_of_foldlM hrest fun _ => rfl).2 rfl
    have h2 : seen.closed = false := (AuthorityScan.closed_of_foldlM hrest hclosed).trans hfirst
    simp [AuthorityScan.mayEnd, h1, h2] at hend
  | other _ hopen => exact absurd rfl hopen

/-- A host without brackets has no colon. -/
theorem Splits.noColon (h : Splits authority user host port)
    (hseen : authority.foldlM AuthorityScan.step {} = .ok seen) (hend : seen.mayEnd = true)
    (hbracket : ']' ∉ host) : ':' ∉ host := by
  obtain ⟨s, -, hscan⟩ := h.scanned hseen
  have hcolons := AuthorityScan.colons_of_foldlM hscan h.notAt_portText fun hmem =>
    (List.mem_append.mp hmem).elim hbracket h.notBracket_portText
  have hone : seen.colons ≤ 1 := by
    simp only [AuthorityScan.mayEnd, Bool.and_eq_true, decide_eq_true_eq] at hend
    exact hend.1.1.2
  cases hport : port with
  | none =>
    have hcolon := h.noPort hport
    rwa [afterLast_eq_none_iff.mpr hbracket] at hcolon
  | some p =>
    rw [hport, portText, List.count_append, List.count_cons_self] at hcolons
    rw [← List.count_eq_zero]
    omega

/-- What is read up to a mark, of a text that has it. -/
theorem takeWhile_mark {c : Char} {run : List Char} (hrun : c ∉ run) (rest : List Char) :
    (run ++ c :: rest).takeWhile (· != c) = run := by
  have hall : ∀ x ∈ run, (x != c) = true := fun x hx =>
    bne_iff_ne.mpr fun h => hrun (h ▸ hx)
  rw [List.takeWhile_append_of_pos hall, List.takeWhile_cons_of_neg (by simp), List.append_nil]

theorem takeWhile_portText (host : List Char) (port : Option (List Char)) :
    (host ++ portText port).takeWhile (· != ':') = host.takeWhile (· != ':') := by
  cases port with
  | none => rw [portText, List.append_nil]
  | some p =>
    rw [portText, List.takeWhile_append]
    split
    · next hall =>
      rw [List.takeWhile_cons_of_neg (by simp), List.append_nil]
      exact ((List.takeWhile_prefix _).eq_of_length hall).symm
    · rfl

/-- The host that is read is the host that is written, or the front of it
where brackets stand in it without enclosing it. -/
theorem Splits.hostOf (h : Splits authority user host port)
    (hseen : authority.foldlM AuthorityScan.step {} = .ok seen) (hend : seen.mayEnd = true) :
    Uri.hostOf authority <+: host ∧ (IsHost host → Uri.hostOf authority = host) := by
  rw [Uri.hostOf, h.behindUser]
  split
  · next rest hrest =>
    obtain ⟨inside, rfl, rfl⟩ : ∃ inside, host = '[' :: inside ∧ rest = inside ++ portText port := by
      cases host with
      | nil => cases port <;> cases hrest
      | cons x inside =>
        cases hrest
        exact ⟨inside, rfl, rfl⟩
    obtain ⟨front, behind, rfl, hfront⟩ :=
      List.eq_append_cons_of_mem (h.closes hseen hend)
    rw [List.append_assoc, List.cons_append, takeWhile_mark hfront]
    refine ⟨⟨behind, by simp⟩, ?_⟩
    rintro (⟨inside, hinside, hnone⟩ | ⟨hnone, -⟩)
    · have hread := congrArg (fun x : List Char => x.tail.takeWhile (· != ']')) hinside
      simp only [List.tail_cons] at hread
      rw [takeWhile_mark hfront, takeWhile_mark hnone] at hread
      exact (congrArg (fun x => '[' :: (x ++ [']'])) hread).trans hinside.symm
    · exact absurd (List.mem_cons_self ..) hnone
  · next hno =>
    rw [takeWhile_portText]
    refine ⟨List.takeWhile_prefix _, ?_⟩
    rintro (⟨inside, rfl, -⟩ | ⟨-, hnone⟩)
    · exact absurd rfl (hno _)
    · have hcolon := h.noColon hseen hend hnone
      exact List.takeWhile_eq_self_iff.mpr fun x hx =>
        bne_iff_ne.mpr fun heq => hcolon (heq ▸ hx)

end Host

end Uri
end Http1Client
