/-
# Bodies of known length are read exactly

Past the head of a body of known length, a call reads what is due and asked for
beyond what is buffered, and nothing behind the end of the body. If it is
answered with data, it has read all of that, and hands over the next bytes of the
body (`Reading.call_exact`). However the bytes arrive, and however often the call
was not ready, makes no difference.

Lengths and sizes are machine words. `Receiver.pollBody?` is the same question
with each sum and each difference checked: it has no result where one would leave
the machine words. Differences that stop at nothing are taken as such, as they
are in `Receiver.toRead`. As long as the size asked for and the buffer are machine
words, the checks never fail (`Receiver.pollBody?_of_waits`).

Key definitions: `Numeral.sum?`, `Numeral.difference?`, `Receiver.pollLength?`,
`Receiver.pollBody?`.
Key theorems: `Receiver.pollLength?_eq`, `Reading.call_exact`.
-/
import Http1Client.Proofs.FixedLength

namespace Http1Client

open Relation

/-! ### In machine words -/

/-- The sum of two machine words, if it is one. -/
def Numeral.sum? (a b : Nat) : Option Nat := if a + b < wordBound then some (a + b) else none

/-- The difference of two machine words, if it is one. -/
def Numeral.difference? (a b : Nat) : Option Nat := if b ≤ a then some (a - b) else none

namespace Receiver

/-- `fill` in machine words. -/
def fill? (target : Nat) (r : Receiver) (w : Wire) :
    Option (Poll (Except DecodeError Unit) × Receiver × Wire) :=
  if r.buffer.length < target then
    (Numeral.difference? target r.buffer.length).bind fun want =>
      match _read : w.read (min r.room want) with
      | (.wait again, w') => some (.wait again, r, w')
      | (.ready (.error e), w') => some (.ready (.error (.io e)), r, w')
      | (.ready (.ok []), w') =>
        some (.ready (.error (.cutShort
          s!"connection closed with {want} body bytes outstanding")), r, w')
      | (.ready (.ok (x :: xs)), w') => fill? target (r.receive (x :: xs)) w'
  else some (.ready (.ok ()), r, w)
termination_by w.readSize
decreasing_by exact Wire.readSize_read (List.cons_ne_nil x xs) _read

/-- Data of a body of known length that is taken out of bytes, whether it is
the last, how many bytes are due then, and the bytes that are left, in machine
words. -/
def drainLength? (left : Nat) (b : Bytes) : Option (Bytes × Bool × Nat × Bytes) :=
  if left = 0 then some ([], true, left, b)
  else if _nil : b = [] then some ([], false, left, b)
  else
    (Numeral.difference? left (b.take left).length).bind fun left' =>
      (drainLength? left' (b.drop left)).map fun (data, last, left'', rest) =>
        (b.take left ++ data, last, left'', rest)
termination_by b.length
decreasing_by
  have := List.length_pos_iff.mpr _nil
  rw [List.length_drop]
  omega

/-- `pollLength` in machine words. -/
def pollLength? (left size : Nat) (r : Receiver) (w : Wire) :
    Option (Poll (Except DecodeError Delivery) × Receiver × Wire) :=
  (Numeral.sum? r.buffer.length (r.toRead left size)).bind fun target =>
    (fill? target r w).bind fun
      | (.wait again, r', w') => some (.wait again, r', w')
      | (.ready (.error e), r', w') => some (.ready (.error e), r', w')
      | (.ready (.ok ()), r', w') =>
        (drainLength? left r'.buffer).map fun
          | (data, true, _, rest) =>
            (.ready (.ok ⟨data, true⟩), finish { r' with
              incoming := { r'.incoming with body := none }, buffer := rest }, w')
          | (data, false, left', rest) =>
            (.ready (.ok ⟨data, false⟩), { r' with
              incoming := { r'.incoming with body := some (.length left') }, buffer := rest }, w')

variable {r : Receiver} {w : Wire} {left size target : Nat}

theorem fill?_of_lt (hlt : r.buffer.length < target) : fill? target r w =
    match w.read (min r.room (target - r.buffer.length)) with
    | (.wait again, w') => some (.wait again, r, w')
    | (.ready (.error e), w') => some (.ready (.error (.io e)), r, w')
    | (.ready (.ok []), w') =>
      some (.ready (.error (.cutShort
        s!"connection closed with {target - r.buffer.length} body bytes outstanding")), r, w')
    | (.ready (.ok (x :: xs)), w') => fill? target (r.receive (x :: xs)) w' := by
  conv => lhs; rw [fill?]
  rw [if_pos hlt, Numeral.difference?, if_pos (Nat.le_of_lt hlt), Option.bind_some]
  split <;> rename_i h <;> rw [h]

theorem fill?_eq : fill? target r w = some (fill target r w) := by
  fun_induction fill target r w with
  | case1 r w hlt again w₁ hread => rw [fill?_of_lt hlt, hread]
  | case2 r w hlt e w₁ hread => rw [fill?_of_lt hlt, hread]
  | case3 r w hlt w₁ hread => rw [fill?_of_lt hlt, hread]
  | case4 r w hlt x xs w₁ hread ih =>
    rw [fill?_of_lt hlt, hread]
    exact ih
  | case5 r w hge => rw [fill?, if_neg hge]

theorem drainLength?_eq {b : Bytes} : drainLength? left b =
    some (b.take left, decide (left ≤ b.length), left - b.length, b.drop left) := by
  have hend : ∀ b, drainLength? 0 b = some ([], true, 0, b) := by
    intro b
    rw [drainLength?, if_pos rfl]
  by_cases hleft : left = 0
  · subst hleft
    rw [hend, List.take_zero, List.drop_zero, Nat.zero_sub, decide_eq_true (Nat.zero_le _)]
  have hnil : ∀ left, left ≠ 0 → drainLength? left [] = some ([], false, left, []) := by
    intro left hleft
    rw [drainLength?, if_neg hleft, dif_pos rfl]
  by_cases hb : b = []
  · subst hb
    have hshort : ¬ left ≤ ([] : Bytes).length := by
      rw [List.length_nil]
      omega
    rw [hnil left hleft, decide_eq_false hshort, List.take_nil, List.drop_nil, List.length_nil,
      Nat.sub_zero]
  have hwithin : (b.take left).length ≤ left := List.length_take_le ..
  rw [drainLength?, if_neg hleft, dif_neg hb, Numeral.difference?, if_pos hwithin,
    Option.bind_some]
  by_cases hall : left ≤ b.length
  · have hnone : left - b.length = 0 := by omega
    rw [List.length_take_of_le hall, Nat.sub_self, hend, decide_eq_true hall, hnone]
    simp only [Option.map_some, List.append_nil]
  · have hshort : b.length ≤ left := by omega
    have hrest : left - b.length ≠ 0 := by omega
    rw [List.take_of_length_le hshort, List.drop_of_length_le hshort, hnil _ hrest,
      decide_eq_false hall]
    simp only [Option.map_some, List.append_nil]

/-- No sum is too large and no difference is negative, as long as sizes are
machine words. -/
theorem pollLength?_eq (h : r.OpenAt (.length left))
    (hbuffer : r.buffer.length < Numeral.wordBound) (hsize : size < Numeral.wordBound) :
    pollLength? left size r w = some (pollLength left size r w) := by
  have htarget : r.buffer.length + r.toRead left size < Numeral.wordBound := by
    have hle : r.buffer.length + r.toRead left size = max r.buffer.length (min left size) :=
      fillTarget_eq left size r
    omega
  rcases hfill : fill (r.fillTarget left size) r w with ⟨filled, r', w'⟩
  have hfill? : fill? (r.buffer.length + r.toRead left size) r w = some (filled, r', w') :=
    fill?_eq.trans (congrArg some hfill)
  rw [pollLength?, Numeral.sum?, if_pos htarget, Option.bind_some, hfill?, Option.bind_some,
    pollLength, hfill]
  rcases filled with (e | _) | again
  · rfl
  · obtain ⟨t, htook, -⟩ := took_fill h.room hfill
    have hopen := htook.openAt h
    dsimp only
    rw [drain_length hopen.body, drainLength?_eq, Option.map_some]
    by_cases hall : left ≤ r'.buffer.length
    · rw [if_pos hall, decide_eq_true hall]
    · have hshort : r'.buffer.length ≤ left := by omega
      rw [if_neg hall, decide_eq_false hall, List.take_of_length_le hshort,
        List.drop_of_length_le hshort]
  · rfl

/-- `pollBody` in machine words, for a body of known length. -/
def pollBody? (size : Nat) (r : Receiver) (w : Wire) :
    Option (Poll (Except DecodeError Delivery) × Receiver × Wire) :=
  if r.finished then some (.ready (.ok .finished), r, w)
  else
    match r.incoming.body with
    | some (.length left) => pollLength? left size r w
    | _ => none

/-- Where a call is not ready, the body is open as it was, and no more is
buffered than was buffered or asked for. -/
theorem openAt_waits {m m₁ : Receiver × Wire} (h : m.1.OpenAt (.length left))
    (hwaits : ReflTransGen (Waits size) m m₁) :
    m₁.1.OpenAt (.length left) ∧ m₁.1.buffer.length ≤ max m.1.buffer.length size := by
  induction hwaits with
  | refl => exact ⟨h, Nat.le_max_left ..⟩
  | tail _ hlast ih =>
    obtain ⟨hopen, hle⟩ := ih
    obtain ⟨again, hpoll⟩ := hlast
    cases lengthTurn_pollBody hopen hpoll with
    | stays _ htook hmost =>
      refine ⟨htook.openAt hopen, ?_⟩
      rw [htook.receiver, receive, List.length_append]
      unfold toRead at hmost
      omega

/-- In a call no sum is too large and no difference is negative. -/
theorem pollBody?_of_waits {m m₁ : Receiver × Wire}
    (h : (∃ left, m.1.OpenAt (.length left)) ∨ m.1.finished = true)
    (hbuffer : m.1.buffer.length < Numeral.wordBound) (hsize : size < Numeral.wordBound)
    (hwaits : ReflTransGen (Waits size) m m₁) :
    pollBody? size m₁.1 m₁.2 = some (m₁.1.pollBody size m₁.2) := by
  rcases h with ⟨left, hopen⟩ | hfinished
  · obtain ⟨hopen₁, hle⟩ := openAt_waits hopen hwaits
    have hbuffer₁ : m₁.1.buffer.length < Numeral.wordBound := by omega
    have hunfinished : ¬ m₁.1.finished = true := by simp [hopen₁.unfinished]
    rw [pollBody?, if_neg hunfinished, hopen₁.body, pollBody_length hopen₁.unfinished hopen₁.body]
    exact pollLength?_eq hopen₁ hbuffer₁ hsize
  · rw [waits_of_finished hfinished hwaits, pollBody?, if_pos hfinished,
      pollBody_of_finished hfinished]

end Receiver

namespace Reading

variable {n : Nat} {tail : Bytes} {s : Reading}

/-- What is read no further than it is due ends inside the body. -/
theorem inside_of_due {size : Nat} {t : Bytes}
    (h : t.length ≤ min (due n s) (size - s.receiver.buffer.length)) :
    t = [] ∨ s.data.length + s.receiver.buffer.length + t.length ≤ n := by
  by_cases ht : t = []
  · exact .inl ht
  · have hpos := List.length_pos_iff.mpr ht
    unfold due at h
    exact .inr (by omega)

/-- What is handed over is the next part of the body. -/
theorem take_body {data c u : Bytes} (htail : tail = data ++ (c ++ u)) :
    c.take (n - data.length) = ((tail.take n).drop data.length).take c.length := by
  calc c.take (n - data.length)
      = ((c ++ u).take c.length).take (n - data.length) := by rw [List.take_left]
    _ = ((c ++ u).take (n - data.length)).take c.length := by
        rw [List.take_take, List.take_take, Nat.min_comm]
    _ = ((tail.drop data.length).take (n - data.length)).take c.length := by
        rw [htail, List.drop_left]
    _ = ((tail.take n).drop data.length).take c.length := by rw [List.drop_take]

/-- **Bodies of known length are read exactly.** Past the head of a body of `n`
bytes, let `b` bytes be buffered and `l` be left to be read. A call for `size`
bytes then reads at most `min l (size - b)` bytes, and none behind the end of
the body. If it is answered with data, it has read just so many, the data are
the next bytes of the body, and they are the last ones just when the body is
handed over with them. No sum or difference in it leaves the machine words. -/
theorem call_exact {size : Nat} {p : Poll (Except DecodeError Delivery)} {m' : Receiver × Wire}
    (h : Past (.length n) tail s) (hcall : Receiver.Call size (s.receiver, s.wire) p m') :
    let b := s.receiver.buffer.length
    (∃ l t, s.receiver.bodyLeft = some l ∧ s.wire.unread = t ++ m'.2.unread ∧
      t.length ≤ min l (size - b) ∧ (t = [] ∨ s.data.length + b + t.length ≤ n) ∧
      ∀ given, p = .ready (.ok given) →
        t.length = min l (size - b) ∧
        given.data = ((tail.take n).drop s.data.length).take (b + t.length) ∧
        given.data.length = min (b + t.length) (n - s.data.length) ∧
        given.data.length ≤ max b size ∧
        (given.last = true ↔ s.data.length + given.data.length = n)) ∧
      (b < Numeral.wordBound → size < Numeral.wordBound →
        ∀ m₁, ReflTransGen (Receiver.Waits size) (s.receiver, s.wire) m₁ →
          Receiver.pollBody? size m₁.1 m₁.2 = some (m₁.1.pollBody size m₁.2)) := by
  intro b
  have haccount := account_past h
  have hleft := haccount.bodyLeft
  refine ⟨⟨due n s, ?_⟩, fun hb hsize m₁ hwaits =>
    Receiver.pollBody?_of_waits haccount.openAt hb hsize hwaits⟩
  cases haccount with
  | inside _ hopen hle htail =>
    have hread : s.receiver.toRead (n - s.data.length) size = min (due n s) (size - b) := by
      rw [Receiver.toRead, due, Nat.sub_add_eq]
    cases Receiver.lengthTurn_call (m := (s.receiver, s.wire)) hopen hcall with
    | @stays p t _ hp htook hmost =>
      have hmost' : t.length ≤ min (due n s) (size - b) := hread ▸ hmost
      exact ⟨t, hleft, htook.unread, hmost', inside_of_due hmost',
        fun given hg => absurd hg (hp given)⟩
    | @gives t m₁ given r' htook hall hdrain =>
      have hall' : t.length = min (due n s) (size - b) := hread ▸ hall
      have hmost := Nat.le_of_eq hall'
      have hlength : m₁.1.buffer.length = b + t.length := by rw [htook.buffer, List.length_append]
      rw [ahead_of_took htook] at htail
      have hgiven := handsOver_drain (htook.openAt hopen) hle hdrain
      have hcount : given.data.length = min (b + t.length) (n - s.data.length) := by
        rw [hgiven.data, List.length_take, hlength, Nat.min_comm]
      refine ⟨t, hleft, htook.unread, hmost, inside_of_due hmost, ?_⟩
      rintro _ ⟨⟩
      refine ⟨hall', ?_, hcount, ?_, hgiven.last⟩
      · rw [hgiven.data, take_body htail, hlength]
      · omega
  | after _ hfinished hbuffer hdata hlength =>
    obtain ⟨rfl, rfl⟩ := Receiver.call_of_finished (m := (s.receiver, s.wire)) hfinished hcall
    have hnone : due n s = 0 := by
      rw [due, hlength, Nat.sub_add_eq, Nat.sub_self, Nat.zero_sub]
    have hb : b = 0 := congrArg List.length hbuffer
    have hdone : n - s.data.length = 0 := by omega
    refine ⟨[], hleft, rfl, Nat.zero_le _, .inl rfl, ?_⟩
    rintro _ ⟨⟩
    refine ⟨?_, ?_, ?_, Nat.zero_le _, ?_⟩
    · rw [hnone, Nat.zero_min, List.length_nil]
    · rw [hb, List.length_nil, List.take_zero]
      rfl
    · rw [hdone, Nat.min_zero]
      rfl
    · simp only [Delivery.finished, true_iff]
      exact hlength

/-- Two polls, with only the second one ready, hand two bytes over and leave
the byte behind them on the wire. -/
theorem call_exact_halting :
    let s := (start false 16 8 halting).run [4]
    let m₁ := (s.receiver.pollBody 4 s.wire).2
    let m' := (m₁.1.pollBody 4 m₁.2).2
    Past (.length 2) s.ahead s ∧
      Receiver.Call 4 (s.receiver, s.wire) (.ready (.ok ⟨Bytes.ofText "hi", true⟩)) m' ∧
      ∃ t, s.wire.unread = t ++ m'.2.unread ∧ t.length = min 2 (4 - 0) := by
  intro s m₁ m'
  have hwait : s.receiver.pollBody 4 s.wire = (.wait true, m₁) := by decide +kernel
  have hlast : m₁.1.pollBody 4 m₁.2 = (.ready (.ok ⟨Bytes.ofText "hi", true⟩), m') := by
    decide +kernel
  have hcall : Receiver.Call 4 (s.receiver, s.wire) (.ready (.ok ⟨Bytes.ofText "hi", true⟩)) m' :=
    ⟨m₁, .single ⟨true, hwait⟩, hlast⟩
  have hbuffer : s.receiver.buffer.length = 0 := by decide +kernel
  have hleft : s.receiver.bodyLeft = some 2 := by decide +kernel
  obtain ⟨⟨l, t, hl, ht, -, -, hgiven⟩, -⟩ := call_exact past_halting hcall
  have hread := (hgiven _ rfl).1
  rw [Option.some.inj (hl.symm.trans hleft), hbuffer] at hread
  exact ⟨past_halting, hcall, t, ht, hread⟩

end Reading
end Http1Client
