/-
# Keeping account of a body of known length

A body of known length is read up to the size asked for, and handed over out of
the buffer up to its end (`Receiver.LengthTurn`). Whatever becomes of a
question, the data handed over and the bytes ahead are the bytes that stood
behind the head, and the decoder knows how many of them are still to be handed
over (`Reading.Account`).

So what `Receiver.bodyLeft` tells is at every moment what is neither handed over
nor buffered yet. It never grows, also where a question failed, met the end of
the stream or was given up, and when it has come to nothing no further question
touches the wire (`Reading.bodyLeft_past`).

Key definitions: `Receiver.Took`, `Receiver.toRead`, `Receiver.LengthTurn`,
`Reading.Account`, `Reading.due`.
Key theorems: `Receiver.drain_length`, `Receiver.lengthTurn_call`,
`Reading.Account.ask`, `Reading.bodyLeft_past`.
-/
import Http1Client.Proofs.PastHead
import Http1Client.Proofs.Buffering

namespace Http1Client

open Arrival Relation

/-! ### Handing over -/

namespace Incoming

variable {s : Incoming} {left got : Nat} {b : Bytes}

section Next

variable {s' : Incoming} {rest x : Bytes}

theorem drain_of_finish (h : s.next b = (.item (.piece .finish), s', rest)) :
    s.drain none got b = (.ok ([], true), s', rest) := by
  rw [drain_of_wanted Option.all_none, h]

theorem drain_of_need (h : s.next b = (.need, s', rest)) :
    s.drain none got b = (.ok ([], false), s', rest) := by
  rw [drain_of_wanted Option.all_none, h]

theorem drain_of_data {data : Bytes} {last : Bool} {s'' : Incoming} {rest' : Bytes}
    (h : s.next b = (.item (.piece (.data x)), s', rest))
    (hrest : s'.drain none (got + x.length) rest = (.ok (data, last), s'', rest')) :
    s.drain none got b = (.ok (x ++ data, last), s'', rest') := by
  rw [drain_of_wanted Option.all_none, h]
  dsimp only
  rw [hrest]
  rfl

end Next

/-- At the end of the body there is nothing to take out. -/
theorem drain_of_end (hb : s.body = some (.length 0)) :
    s.drain none got b = (.ok ([], true), { s with body := none }, b) := by
  have hnext : s.next b = (.item (.piece .finish), { s with body := none }, b) := by
    rw [next_of_body hb]
    rfl
  exact drain_of_finish hnext

/-- Without bytes there is nothing to take out either. -/
theorem drain_of_nil (hb : s.body = some (.length left)) (hleft : left ≠ 0) :
    s.drain none got [] = (.ok ([], false), s, []) := by
  have hdecode : BodyDecoder.decode (.length left) [] = (.need, .length left, []) := by
    rw [BodyDecoder.decode, if_neg hleft, if_pos rfl]
  have hnext : s.next [] = (.need, s, []) := by
    rw [next_of_body hb, hdecode]
    show (Progress.need, { s with body := some (BodyDecoder.length left) }, []) = _
    rw [← hb]
  exact drain_of_need hnext

/-- All that is there is taken out, up to the end of the body. -/
theorem drain_length (hb : s.body = some (.length left)) :
    s.drain none got b =
      if left ≤ b.length then (.ok (b.take left, true), { s with body := none }, b.drop left)
      else (.ok (b, false), { s with body := some (.length (left - b.length)) }, []) := by
  by_cases hleft : left = 0
  · subst hleft
    rw [drain_of_end hb, if_pos (Nat.zero_le _), List.take_zero, List.drop_zero]
  by_cases hne : b = []
  · subst hne
    have hshort : ¬ left ≤ ([] : Bytes).length := by
      rw [List.length_nil]
      omega
    rw [drain_of_nil hb hleft, if_neg hshort, List.length_nil, Nat.sub_zero, ← hb]
  have hdecode : BodyDecoder.decode (.length left) b =
      (.item (.data (b.take left)), .length (left - (b.take left).length), b.drop left) := by
    rw [BodyDecoder.decode, if_neg hleft, if_neg hne]
  have hnext : s.next b = (.item (.piece (.data (b.take left))),
      { s with body := some (.length (left - (b.take left).length)) }, b.drop left) := by
    rw [next_of_body hb, hdecode]
    rfl
  by_cases hall : left ≤ b.length
  · have hzero : left - (b.take left).length = 0 := by
      rw [List.length_take_of_le hall, Nat.sub_self]
    rw [hzero] at hnext
    rw [if_pos hall, drain_of_data hnext (drain_of_end rfl), List.append_nil]
  · have hshort : b.length ≤ left := by omega
    have hrest : left - b.length ≠ 0 := by omega
    rw [List.take_of_length_le hshort, List.drop_of_length_le hshort] at hnext
    rw [if_neg hall, drain_of_data hnext (drain_of_nil rfl hrest), List.append_nil]

end Incoming

namespace Receiver

variable {r r' : Receiver} {w w' : Wire} {left size target : Nat}

theorem drain_length (hb : r.incoming.body = some (.length left)) :
    r.drain none =
      if left ≤ r.buffer.length then
        (.ok ⟨r.buffer.take left, true⟩, finish { r with
          incoming := { r.incoming with body := none }, buffer := r.buffer.drop left })
      else
        (.ok ⟨r.buffer, false⟩, { r with
          incoming := { r.incoming with body := some (.length (left - r.buffer.length)) }
          buffer := [] }) := by
  rw [drain, Incoming.drain_length hb]
  by_cases hall : left ≤ r.buffer.length
  · rw [if_pos hall, if_pos hall]
  · rw [if_neg hall, if_neg hall]

/-! ### Reading -/

/-- Bytes were read off the wire into the buffer, and nothing else was done. -/
structure Took (t : Bytes) (m m' : Receiver × Wire) : Prop where
  receiver : m'.1 = m.1.receive t
  unread : m.2.unread = t ++ m'.2.unread

theorem took_nil (h : w'.unread = w.unread) : Took [] (r, w) (r, w') :=
  ⟨by rw [receive, List.append_nil], h.symm⟩

theorem Took.trans {t u : Bytes} {m m' m'' : Receiver × Wire} (h : Took t m m')
    (h' : Took u m' m'') : Took (t ++ u) m m'' := by
  refine ⟨?_, by rw [h.unread, h'.unread, List.append_assoc]⟩
  rw [h'.receiver, h.receiver]
  simp only [receive, List.append_assoc]

theorem Took.buffer {t : Bytes} {m m' : Receiver × Wire} (h : Took t m m') :
    m'.1.buffer = m.1.buffer ++ t :=
  congrArg Receiver.buffer h.receiver

theorem Took.openAt {t : Bytes} {m m' : Receiver × Wire} {d : BodyDecoder} (h : Took t m m')
    (ho : m.1.OpenAt d) : m'.1.OpenAt d := by
  rw [h.receiver]
  exact ⟨ho.body, ho.unfinished, ho.room⟩

/-- No more is read than is missing, and all of it if nothing goes wrong. -/
theorem took_fill {p : Poll (Except DecodeError Unit)} (hroom : 0 < r.room)
    (h : fill target r w = (p, r', w')) :
    ∃ t, Took t (r, w) (r', w') ∧ t.length ≤ target - r.buffer.length ∧
      (p = .ready (.ok ()) → t.length = target - r.buffer.length) := by
  fun_induction fill target r w with
  | case1 r w hlt again w₁ hread =>
    have hask : 0 < min r.room (target - r.buffer.length) := by omega
    cases h
    cases Wire.handed_read hask hread with
    | waits hg => exact ⟨[], took_nil hg.unread.symm, Nat.zero_le _, by rintro ⟨⟩⟩
  | case2 r w hlt e w₁ hread =>
    have hask : 0 < min r.room (target - r.buffer.length) := by omega
    cases h
    cases Wire.handed_read hask hread with
    | failed hg => exact ⟨[], took_nil hg.unread.symm, Nat.zero_le _, by rintro ⟨⟩⟩
  | case3 r w hlt w₁ hread =>
    have hask : 0 < min r.room (target - r.buffer.length) := by omega
    cases h
    cases Wire.handed_read hask hread with
    | ended hm => exact ⟨[], took_nil hm.unread, Nat.zero_le _, by rintro ⟨⟩⟩
  | case4 r w hlt x xs w₁ hread ih =>
    have hask : 0 < min r.room (target - r.buffer.length) := by omega
    have hle : (x :: xs).length ≤ target - r.buffer.length :=
      Nat.le_trans (Wire.length_read_le hread) (Nat.min_le_right ..)
    obtain ⟨t, htook, hmost, hall⟩ := ih hroom h
    rw [receive, List.length_append] at hmost hall
    cases Wire.handed_read hask hread with
    | bytes hg =>
      have hfirst : Took (x :: xs) (r, w) (r.receive (x :: xs), w₁) := ⟨rfl, hg.unread⟩
      refine ⟨_, hfirst.trans htook, ?_, fun hp => ?_⟩
      · rw [List.length_append]
        omega
      · have ht := hall hp
        rw [List.length_append]
        omega
  | case5 r w hge =>
    cases h
    refine ⟨[], took_nil rfl, Nat.zero_le _, fun _ => ?_⟩
    rw [List.length_nil]
    omega

/-- How many bytes a question for data reads, if nothing goes wrong. -/
def toRead (left size : Nat) (r : Receiver) : Nat :=
  min (left - r.buffer.length) (size - r.buffer.length)

/-- What a question for data can come to where `left` bytes of the body are
still to be handed over. Other than in `BodyTurn` the bytes that were read are
counted. -/
inductive LengthTurn (left size : Nat) (m : Receiver × Wire) :
    Poll (Except DecodeError Delivery) → Receiver × Wire → Prop where
  | stays {p : Poll (Except DecodeError Delivery)} {t : Bytes} {m' : Receiver × Wire} :
      (∀ given, p ≠ .ready (.ok given)) → Took t m m' → t.length ≤ m.1.toRead left size →
      LengthTurn left size m p m'
  | gives {t : Bytes} {m' : Receiver × Wire} {given : Delivery} {r' : Receiver} :
      Took t m m' → t.length = m.1.toRead left size → m'.1.drain none = (.ok given, r') →
      LengthTurn left size m (.ready (.ok given)) (r', m'.2)

variable {m m' m₁ : Receiver × Wire} {p : Poll (Except DecodeError Delivery)} {t : Bytes}

theorem exists_drain_length (hb : r.incoming.body = some (.length left)) :
    ∃ given r', r.drain none = (.ok given, r') := by
  rw [drain_length hb]
  by_cases hall : left ≤ r.buffer.length
  · exact ⟨_, _, if_pos hall⟩
  · exact ⟨_, _, if_neg hall⟩

/-- What one poll comes to. -/
theorem lengthTurn_pollBody (h : m.1.OpenAt (.length left))
    (hr : m.1.pollBody size m.2 = (p, m')) : LengthTurn left size m p m' := by
  obtain ⟨r, w⟩ := m
  rcases hfill : fill (r.fillTarget left size) r w with ⟨filled, r₁, w₁⟩
  obtain ⟨t, htook, hmost, hall⟩ := took_fill h.room hfill
  have htarget : r.fillTarget left size - r.buffer.length = r.toRead left size :=
    Nat.add_sub_cancel_left ..
  rw [htarget] at hmost hall
  rw [pollBody_length h.unfinished h.body, pollLength, hfill] at hr
  rcases filled with (e | _) | again
  · cases hr
    exact .stays (by rintro _ ⟨⟩) htook hmost
  · obtain ⟨given, r', hdrain⟩ := exists_drain_length (htook.openAt h).body
    dsimp only at hdrain hr
    rw [hdrain] at hr
    cases hr
    exact .gives htook (hall rfl) hdrain
  · cases hr
    exact .stays (by rintro _ ⟨⟩) htook hmost

/-- A turn behind a poll that was not ready is a turn. -/
theorem LengthTurn.behind (h : Took t m m₁) (hmost : t.length ≤ m.1.toRead left size)
    (h' : LengthTurn left size m₁ p m') : LengthTurn left size m p m' := by
  have hrest : m₁.1.toRead left size + t.length = m.1.toRead left size := by
    rw [h.receiver, toRead, receive, List.length_append]
    unfold toRead at hmost ⊢
    omega
  cases h' with
  | stays hp htook hle =>
    refine .stays hp (h.trans htook) ?_
    rw [List.length_append]
    omega
  | gives htook heq hdrain =>
    refine .gives (h.trans htook) ?_ hdrain
    rw [List.length_append]
    omega

/-- What a call comes to, however often it was not ready. -/
theorem lengthTurn_call (h : m.1.OpenAt (.length left)) (hcall : Call size m p m') :
    LengthTurn left size m p m' := by
  obtain ⟨m₁, hwaits, hlast⟩ := hcall
  induction hwaits using ReflTransGen.head_induction_on with
  | refl => exact lengthTurn_pollBody h hlast
  | head hfirst _ ih =>
    obtain ⟨again, hpoll⟩ := hfirst
    cases lengthTurn_pollBody h hpoll with
    | stays _ htook hmost => exact (ih (htook.openAt h)).behind htook hmost

/-! ### When nothing is left to read -/

/-- Where no byte is left to be read, the wire is left alone. -/
theorem wire_pollBody_of_bodyLeft (h : r.bodyLeft = some 0) (size : Nat) (w : Wire) :
    (r.pollBody size w).2.2 = w := by
  unfold bodyLeft at h
  by_cases hf : r.finished = true
  · rw [pollBody, if_pos hf]
  rw [if_neg hf] at h
  cases hb : r.incoming.body with
  | none =>
    rw [hb] at h
    cases h
  | some d =>
    rw [hb] at h
    cases d with
    | length left =>
      have hleft : left - r.buffer.length = 0 := by simpa [BodyDecoder.remaining] using h
      have htarget : ¬ r.buffer.length < r.fillTarget left size := by
        rw [fillTarget_eq]
        omega
      rw [pollBody_length (by simpa using hf) hb, pollLength, fill, if_neg htarget]
    | empty => rw [pollBody, if_neg hf, hb]
    | chunked c => simp [BodyDecoder.remaining] at h
    | untilClose ended => simp [BodyDecoder.remaining] at h

end Receiver

namespace Reading

variable {n : Nat} {tail : Bytes} {s : Reading}

/-- The data handed over and the bytes ahead are the bytes behind the head, and
the decoder knows how many of them are still to be handed over; or the body is
handed over. -/
inductive Account (n : Nat) (tail : Bytes) (s : Reading) : Prop where
  | inside {head : Response × Framing} : s.head = some head →
      s.receiver.OpenAt (.length (n - s.data.length)) → s.data.length ≤ n →
      tail = s.data ++ s.ahead → Account n tail s
  | after {head : Response × Framing} : s.head = some head → s.receiver.finished = true →
      s.receiver.buffer = [] → s.data = tail.take n → s.data.length = n → Account n tail s

theorem Account.head (h : Account n tail s) : ∃ head, s.head = some head := by
  cases h with
  | inside hhead => exact ⟨_, hhead⟩
  | after hhead => exact ⟨_, hhead⟩

/-- The body is open, or it is handed over. -/
theorem Account.openAt (h : Account n tail s) :
    (∃ left, s.receiver.OpenAt (.length left)) ∨ s.receiver.finished = true := by
  cases h with
  | inside _ hopen => exact .inl ⟨_, hopen⟩
  | after _ hfinished => exact .inr hfinished

theorem account_of_opened (h : Opened (.length n) tail s) : Account n tail s := by
  obtain ⟨⟨response, hhead⟩, ⟨limit, hopen⟩, hdata, -, hahead⟩ := h
  refine .inside hhead ?_ ?_ ?_
  · rw [hdata]
    exact hopen
  · rw [hdata]
    exact Nat.zero_le n
  · rw [hdata, hahead]
    rfl

/-- What is handed over out of the buffer of an open body. -/
structure HandsOver (n : Nat) (before buffer : Bytes) (given : Delivery) : Prop where
  data : given.data = buffer.take (n - before.length)
  last : given.last = true ↔ before.length + given.data.length = n

section Drain

variable {data : Bytes} {given : Delivery} {r r' : Receiver} {w : Wire}

theorem handsOver_drain (hopen : r.OpenAt (.length (n - data.length))) (hle : data.length ≤ n)
    (h : r.drain none = (.ok given, r')) : HandsOver n data r.buffer given := by
  rw [Receiver.drain_length hopen.body] at h
  by_cases hall : n - data.length ≤ r.buffer.length
  · rw [if_pos hall] at h
    cases h
    refine ⟨rfl, ?_⟩
    rw [List.length_take_of_le hall]
    simp only [true_iff]
    omega
  · rw [if_neg hall] at h
    cases h
    have hshort : r.buffer.length ≤ n - data.length := by omega
    refine ⟨(List.take_of_length_le hshort).symm, ?_⟩
    simp only [Bool.false_eq_true, false_iff]
    omega

theorem account_drain {head : Response × Framing} (last : Bool) (errors : List DecodeError)
    (hopen : r.OpenAt (.length (n - data.length))) (hle : data.length ≤ n)
    (htail : tail = data ++ (r.buffer ++ w.unread)) (h : r.drain none = (.ok given, r')) :
    Account n tail ⟨r', w, some head, data ++ given.data, last, errors⟩ := by
  rw [Receiver.drain_length hopen.body] at h
  by_cases hall : n - data.length ≤ r.buffer.length
  · rw [if_pos hall] at h
    cases h
    refine .after rfl rfl rfl ?_ ?_
    · rw [htail, List.take_append, List.take_append_of_le_length hall, List.take_of_length_le hle]
    · show (data ++ r.buffer.take _).length = n
      rw [List.length_append, List.length_take_of_le hall]
      omega
  · rw [if_neg hall] at h
    cases h
    refine .inside rfl ⟨?_, hopen.unfinished, hopen.room⟩ ?_ ?_
    · show some _ = some _
      rw [List.length_append, Nat.sub_add_eq]
    · show (data ++ r.buffer).length ≤ n
      rw [List.length_append]
      omega
    · rw [htail, ← List.append_assoc]
      rfl

end Drain

/-- Bytes that are read are ahead as they were. -/
theorem ahead_of_took {t : Bytes} {m : Receiver × Wire}
    (h : Receiver.Took t (s.receiver, s.wire) m) : s.ahead = m.1.buffer ++ m.2.unread := by
  have hunread : s.wire.unread = t ++ m.2.unread := h.unread
  rw [h.buffer, ahead, hunread, List.append_assoc]

/-- The bytes still to be read when `n` bytes are to be handed over. -/
def due (n : Nat) (s : Reading) : Nat := n - (s.data.length + s.receiver.buffer.length)

/-- A question that hands nothing over keeps the account. -/
theorem account_took {t : Bytes} {r : Receiver} {w : Wire} {head : Response × Framing}
    (errors : List DecodeError) (hopen : s.receiver.OpenAt (.length (n - s.data.length)))
    (hle : s.data.length ≤ n) (htail : tail = s.data ++ s.ahead)
    (h : Receiver.Took t (s.receiver, s.wire) (r, w)) :
    Account n tail ⟨r, w, some head, s.data, s.last, errors⟩ ∧
      due n ⟨r, w, some head, s.data, s.last, errors⟩ ≤ due n s := by
  have hbuffer : r.buffer = s.receiver.buffer ++ t := h.buffer
  refine ⟨.inside rfl (h.openAt hopen) hle ?_, ?_⟩
  · rw [htail, ahead_of_took h]
    rfl
  · show n - (s.data.length + r.buffer.length) ≤ n - (s.data.length + s.receiver.buffer.length)
    rw [hbuffer, List.length_append]
    omega

/-- A question keeps the account, and does not add to what is to be read. -/
theorem Account.ask (h : Account n tail s) (size : Nat) :
    Account n tail (s.ask size) ∧ due n (s.ask size) ≤ due n s := by
  rcases hpoll : s.receiver.pollBody size s.wire with ⟨p, r, w⟩
  cases h with
  | @inside head hhead hopen hle htail =>
    cases Receiver.lengthTurn_pollBody (m := (s.receiver, s.wire)) hopen hpoll with
    | stays hp htook _ =>
      rcases p with (e | given) | again
      · rw [ask_of_error hhead hpoll, hhead]
        exact account_took _ hopen hle htail htook
      · exact absurd rfl (hp given)
      · rw [ask_of_wait hhead hpoll, hhead]
        exact account_took _ hopen hle htail htook
    | @gives t m₁ given r' htook _ hdrain =>
      have hbuffer : m₁.1.buffer = s.receiver.buffer ++ t := htook.buffer
      rw [ahead_of_took htook] at htail
      rw [ask_of_given hhead hpoll, hhead]
      refine ⟨account_drain _ _ (htook.openAt hopen) hle htail hdrain, ?_⟩
      have hlength := congrArg List.length (handsOver_drain (htook.openAt hopen) hle hdrain).data
      rw [List.length_take, hbuffer, List.length_append] at hlength
      show n - ((s.data ++ given.data).length + _) ≤ n - (s.data.length + s.receiver.buffer.length)
      rw [List.length_append]
      omega
  | @after head hhead hfinished hbuffer hdata hlength =>
    rw [ask_of_given hhead (Receiver.pollBody_of_finished hfinished size s.wire)]
    have hsame : s.data ++ Delivery.finished.data = s.data := List.append_nil _
    refine ⟨.after hhead hfinished hbuffer ?_ ?_, ?_⟩
    · show s.data ++ _ = _
      rw [hsame, hdata]
    · show (s.data ++ _).length = _
      rw [hsame, hlength]
    · show n - ((s.data ++ _).length + _) ≤ _
      rw [hsame]
      exact Nat.le_refl _

theorem account_past (h : Past (.length n) tail s) : Account n tail s :=
  h.induct (fun _ => account_of_opened) fun _ size h => (h.ask size).1

theorem Account.bodyLeft (h : Account n tail s) : s.receiver.bodyLeft = some (due n s) := by
  cases h with
  | inside _ hopen _ _ =>
    rw [Receiver.bodyLeft, if_neg (by simp [hopen.unfinished]), hopen.body, due, Nat.sub_add_eq]
    rfl
  | after _ hfinished _ _ hlength =>
    rw [Receiver.bodyLeft, if_pos hfinished, due, hlength, Nat.sub_add_eq, Nat.sub_self,
      Nat.zero_sub]

/-- The account goes on through any number of questions. -/
theorem Account.run : ∀ (sizes : List Nat) {s : Reading}, Account n tail s →
    Account n tail (s.run sizes) ∧ due n (s.run sizes) ≤ due n s
  | [], _, h => ⟨h, Nat.le_refl _⟩
  | size :: sizes, _, h => by
    obtain ⟨hask, hle⟩ := h.ask size
    obtain ⟨hrun, hle'⟩ := Account.run sizes hask
    exact ⟨hrun, Nat.le_trans hle' hle⟩

/-- When nothing is left to be read, the wire is left alone for good. -/
theorem Account.wire_run : ∀ (sizes : List Nat) {s : Reading}, Account n tail s → due n s = 0 →
    (s.run sizes).wire = s.wire
  | [], _, _, _ => rfl
  | size :: sizes, s, h, hzero => by
    obtain ⟨hask, hle⟩ := h.ask size
    have hnone : due n (s.ask size) = 0 := by omega
    have hwire : (s.ask size).wire = s.wire := by
      obtain ⟨head, hhead⟩ := h.head
      rw [wire_ask hhead]
      exact Receiver.wire_pollBody_of_bodyLeft (h.bodyLeft.trans (congrArg some hzero)) size s.wire
    exact (Account.wire_run sizes hask hnone).trans hwire

/-- **What is left to be read is what is neither handed over nor buffered**, at
every point of every run of questions for a body of `n` bytes. It never grows,
and when it is nothing, no question touches the wire. -/
theorem bodyLeft_past (h : Past (.length n) tail s) :
    s.receiver.bodyLeft = some (n - (s.data.length + s.receiver.buffer.length)) ∧
      (∀ sizes, ∃ l l', s.receiver.bodyLeft = some l ∧ (s.run sizes).receiver.bodyLeft = some l' ∧
        l' ≤ l ∧ l ≤ n) ∧
      (s.receiver.bodyLeft = some 0 → ∀ sizes, (s.run sizes).wire = s.wire) := by
  have haccount := account_past h
  refine ⟨haccount.bodyLeft, fun sizes => ?_, fun hzero sizes => ?_⟩
  · obtain ⟨hrun, hle⟩ := haccount.run sizes
    exact ⟨_, _, haccount.bodyLeft, hrun.bodyLeft, hle, Nat.sub_le ..⟩
  · rw [haccount.bodyLeft] at hzero
    exact haccount.wire_run sizes (Option.some.inj hzero)

/-- Given up while it was not ready. -/
theorem bodyLeft_past_halting :
    let s := (start false 16 8 halting).run [4, 4]
    Past (.length 2) ((start false 16 8 halting).run [4]).ahead s ∧
      s.receiver.buffer = Bytes.ofText "h" ∧ s.receiver.bodyLeft = some (2 - (0 + 1)) := by
  intro s
  have hpast : Past (.length 2) ((start false 16 8 halting).run [4]).ahead s := past_halting.ask 4
  have hbuffer : s.receiver.buffer = Bytes.ofText "h" := by decide +kernel
  have hdata : s.data = [] := by decide +kernel
  have hleft := (bodyLeft_past hpast).1
  rw [hbuffer, hdata] at hleft
  exact ⟨hpast, hbuffer, hleft⟩

end Reading
end Http1Client
