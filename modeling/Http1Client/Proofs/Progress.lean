/-
# Every delivery is a step forward

Whatever the framing of a body and whatever the state of the receiver, a
question for at least one byte that is answered with a delivery is answered with
data or with the last delivery (`Receiver.steps_pollBody`). A body of known
length waits until there is a byte, a chunked one until there is a whole chunk,
and the end of the stream ends a body that ends with it and is an error in any
other.

Behind the last delivery a receiver answers at once and leaves the wire alone. So
a caller that asks until it has the last delivery gets at most one delivery more
than it gets bytes, and at most one more than the body has
(`Reading.progress_past`).

Key definitions: `Delivery.IsStep`, `Receiver.Steps`, `Reading.Within`,
`Reading.deliveries`.
Key theorems: `Receiver.steps_pollBody`, `Reading.within_past`,
`Reading.progress_past`.
-/
import Http1Client.Proofs.Buffering
import Http1Client.Proofs.PastHead

namespace Http1Client

open Arrival

/-- There is data in the delivery, or it is the last one. -/
def Delivery.IsStep (given : Delivery) : Prop := given.data ≠ [] ∨ given.last = true

/-! ### Out of the buffer -/

/-- A body that is not chunked gives something out of any byte, and at its end. -/
theorem BodyDecoder.decode_gives {d : BodyDecoder} {b : Bytes} (hd : ∀ c, d ≠ .chunked c)
    (hb : b ≠ [] ∨ d.isFinished = true) :
    (d.decode b).1 ≠ .need ∧ ∀ x, (d.decode b).1 = .item (.data x) → x ≠ [] := by
  cases d with
  | length left =>
    by_cases hleft : left = 0
    · rw [decode, if_pos hleft]
      exact ⟨by rintro ⟨⟩, by rintro _ ⟨⟩⟩
    · have hne : b ≠ [] := hb.resolve_right (by simpa [isFinished] using hleft)
      rw [decode, if_neg hleft, if_neg hne]
      refine ⟨by rintro ⟨⟩, ?_⟩
      rintro x ⟨⟩
      simp [hleft, hne]
  | chunked c => exact absurd rfl (hd c)
  | untilClose ended =>
    by_cases hended : ended = true
    · rw [decode, if_pos hended]
      exact ⟨by rintro ⟨⟩, by rintro _ ⟨⟩⟩
    · have hne : b ≠ [] := hb.resolve_right hended
      rw [decode, if_neg hended, if_neg hne]
      refine ⟨by rintro ⟨⟩, ?_⟩
      rintro x ⟨⟩
      exact hne
  | empty => exact ⟨by rintro ⟨⟩, by rintro _ ⟨⟩⟩

/-- What gives out a piece first gives something out. -/
theorem Incoming.drain_gives {s s' : Incoming} {b data rest : Bytes} {last : Bool} {got : Nat}
    (hneed : (s.next b).1 ≠ .need)
    (hdata : ∀ x, (s.next b).1 = .item (.piece (.data x)) → x ≠ [])
    (h : s.drain none got b = (.ok (data, last), s', rest)) : data ≠ [] ∨ last = true := by
  rw [drain, if_pos Option.all_none] at h
  split at h
  · next x s₁ rest₁ hx =>
    have hne : x ≠ [] := hdata x (by rw [hx])
    split at h
    · cases h
      exact .inl (List.append_ne_nil_of_left_ne_nil hne _)
    · cases h
  · cases h
    exact .inr rfl
  · cases h
  · cases h
  · next hx => exact absurd (by rw [hx]) hneed

namespace Receiver

variable {r r' : Receiver} {w w' : Wire} {size : Nat} {given : Delivery} {d : BodyDecoder}

theorem isStep_drain (hbody : r.incoming.body = some d) (hd : ∀ c, d ≠ .chunked c)
    (hb : r.buffer ≠ [] ∨ d.isFinished = true) (h : r.drain none = (.ok given, r')) :
    given.IsStep := by
  obtain ⟨hneed, hdata⟩ := BodyDecoder.decode_gives hd hb
  have hnext : (r.incoming.next r.buffer).1 = Incoming.pieceEvent (d.decode r.buffer).1 := by
    rw [Incoming.next_of_body hbody]
  rcases hdrain : r.incoming.drain none 0 r.buffer with ⟨result, s, rest⟩
  have hgives : ∀ {data last}, result = .ok (data, last) → data ≠ [] ∨ last = true := by
    rintro data last rfl
    refine Incoming.drain_gives ?_ (fun x hx => hdata x ?_) hdrain
    · rwa [hnext, ne_eq, Incoming.pieceEvent_eq_need]
    · rwa [hnext, Incoming.pieceEvent_eq_piece] at hx
  rw [drain, hdrain] at h
  rcases result with e | ⟨data, _ | _⟩
  · cases h
  · cases h
    exact hgives rfl
  · cases h
    exact .inr rfl

/-- A last delivery is said to be one. -/
theorem finished_of_drain {limit : Option Nat} (h : r.drain limit = (.ok given, r'))
    (hlast : given.last = true) : r'.finished = true := by
  unfold drain at h
  split at h
  · cases h
  · cases h
    rfl
  · cases h
    cases hlast

/-! ### With readings -/

/-- When as much is in the buffer as is to be there, it stays there. -/
theorem length_fill {target : Nat} (h : fill target r w = (.ready (.ok ()), r', w')) :
    target ≤ r'.buffer.length ∧ r'.incoming = r.incoming := by
  fun_induction fill target r w with
  | case1 | case2 | case3 => cases h
  | case4 r w hlt x xs w₁ hread ih => exact ih h
  | case5 r w hge =>
    cases h
    exact ⟨Nat.le_of_not_lt hge, rfl⟩

/-- What becomes of a delivery: it is a step, if at least a byte was asked for,
and behind the last one the receiver is finished. -/
structure Steps (size : Nat) (given : Delivery) (r' : Receiver) : Prop where
  isStep : 1 ≤ size → given.IsStep
  finished : given.last = true → r'.finished = true

/-- As the size asked for is at least one byte, some byte of an open body is
waited for. -/
theorem steps_pollLength {left : Nat} (hb : r.incoming.body = some (.length left))
    (h : pollLength left size r w = (.ready (.ok given), r', w')) : Steps size given r' := by
  rcases hfill : fill (r.fillTarget left size) r w with ⟨(e | _) | again, r₁, w₁⟩
  · rw [pollLength, hfill] at h
    cases h
  · obtain ⟨htarget, hincoming⟩ := length_fill hfill
    have hb₁ : r₁.incoming.body = some (.length left) := hincoming ▸ hb
    rcases hdrain : r₁.drain none with ⟨result, r₂⟩
    rw [pollLength, hfill] at h
    dsimp only at h
    rw [hdrain] at h
    cases h
    refine ⟨fun hsize => isStep_drain hb₁ (by rintro _ ⟨⟩) ?_ hdrain, finished_of_drain hdrain⟩
    by_cases hleft : left = 0
    · exact .inr (by simp [BodyDecoder.isFinished, hleft])
    · rw [fillTarget_eq] at htarget
      exact .inl (List.length_pos_iff.mp (by omega))
  · rw [pollLength, hfill] at h
    cases h

/-- A chunked body is never given up as complete because the stream has ended. -/
theorem drainAtEnd_of_chunked (hc : r.incoming.chunking = some true)
    (hn : r.incoming.next r.buffer = (.need, r.incoming, r.buffer)) :
    ∃ e, (r.drainAtEnd).1 = .error e := by
  obtain ⟨c, hb⟩ := chunked_of_chunking hc
  obtain ⟨words, hcut⟩ := drainAtEnd_of_need hb (fun _ h => by cases h) hn
  exact ⟨_, congrArg Prod.fst hcut⟩

theorem steps_pollChunks (hc : r.incoming.chunking = some true)
    (h : pollChunks size r w = (.ready (.ok given), r', w')) : Steps size given r' := by
  have hsize : 0 < max size 1 := by omega
  fun_induction pollChunks size r w with
  | case1 | case3 | case4 => cases h
  | case2 r w given r₁ hdrain hgiven =>
    cases h
    exact ⟨fun _ => hgiven, finished_of_drain hdrain⟩
  | case5 r w given r₁ hdrain hnil w₁ hread result r₂ hend =>
    cases h
    obtain ⟨data, last⟩ := given
    obtain ⟨rfl, rfl⟩ : data = [] ∧ last = false := by simpa using hnil
    obtain ⟨e, he⟩ := drainAtEnd_of_chunked (open_of_drain_nil hc hdrain hnil).1
      (next_of_drain hsize hdrain)
    rw [hend] at he
    cases he
  | case6 r w given r₁ hdrain hnil x xs w₁ hread ih =>
    exact ih (open_of_drain_nil hc hdrain hnil).1 h

theorem steps_pollUntilClose {ended : Bool} (hb : r.incoming.body = some (.untilClose ended))
    (h : pollUntilClose size r w = (.ready (.ok given), r', w')) : Steps size given r' := by
  have hdrained : ∀ {r : Receiver}, r.incoming.body = some (.untilClose ended) → r.buffer ≠ [] →
      ∀ {r'}, r.drain none = (.ok given, r') → Steps size given r' :=
    fun hb hne _ hdrain =>
      ⟨fun _ => isStep_drain hb (by rintro _ ⟨⟩) (.inl hne) hdrain, finished_of_drain hdrain⟩
  unfold pollUntilClose at h
  split at h
  · next hnil =>
    split at h
    · cases h
    · cases h
    · have hend : r.drainAtEnd = (.ok .finished, finish { r with
          incoming := { r.incoming with body := none }, buffer := [] }) := by
        rw [drainAtEnd, Incoming.nextEnd, hb, hnil]
        rfl
      rw [hend] at h
      cases h
      exact ⟨fun _ => .inr rfl, fun _ => rfl⟩
    · next b w₁ hne hread =>
      rcases hdrain : (r.receive b).drain none with ⟨result, r₁⟩
      have hbuffer : (r.receive b).buffer ≠ [] := by
        rw [receive, hnil]
        exact hne
      rw [hdrain] at h
      cases h
      exact hdrained (r := r.receive b) hb hbuffer hdrain
  · next hne =>
    rcases hdrain : r.drain none with ⟨result, r₁⟩
    rw [hdrain] at h
    cases h
    exact hdrained hb hne hdrain

/-- Every delivery is a step forward, whatever the framing and the state of
the receiver. -/
theorem steps_pollBody (h : r.pollBody size w = (.ready (.ok given), r', w')) :
    Steps size given r' := by
  by_cases hf : r.finished = true
  · rw [pollBody_of_finished hf] at h
    cases h
    exact ⟨fun _ => .inr rfl, fun _ => hf⟩
  rw [pollBody, if_neg hf] at h
  cases hb : r.incoming.body with
  | none =>
    rw [hb] at h
    cases h
  | some d =>
    rw [hb] at h
    cases d with
    | length left => exact steps_pollLength hb h
    | chunked c => exact steps_pollChunks (by rw [Incoming.chunking, hb]; rfl) h
    | untilClose ended => exact steps_pollUntilClose hb h
    | empty =>
      rcases hdrain : r.drain none with ⟨result, r₁⟩
      dsimp only at h
      rw [hdrain] at h
      cases h
      exact ⟨fun _ => isStep_drain hb (by rintro _ ⟨⟩) (.inr rfl) hdrain, finished_of_drain hdrain⟩

/-- So is every delivery that a call ends with. -/
theorem steps_call {m m' : Receiver × Wire} (h : Call size m (.ready (.ok given)) m') :
    Steps size given m'.1 := by
  obtain ⟨m₁, -, hlast⟩ := h
  exact steps_pollBody hlast

end Receiver

namespace Reading

variable {s : Reading} {framing : Framing} {tail : Bytes}

/-! ### The body behind the head -/

/-- The data handed over is the front of the body. -/
inductive Within (framing : Framing) (tail : Bytes) (s : Reading) : Prop where
  | inside {head : Response × Framing} {d : BodyDecoder} : s.head = some head →
      s.receiver.OpenAt d → framing.bodyOf tail = s.data ++ d.dataIn s.ahead →
      Within framing tail s
  | after {head : Response × Framing} : s.head = some head → s.receiver.finished = true →
      s.data <+: framing.bodyOf tail → Within framing tail s

theorem within_of_opened (h : Opened framing tail s) : Within framing tail s := by
  obtain ⟨⟨response, hhead⟩, ⟨limit, hopen⟩, hdata, -, hahead⟩ := h
  refine .inside hhead hopen ?_
  rw [hdata, hahead, BodyDecoder.dataIn_ofFraming]
  rfl

theorem Within.isPrefix (h : Within framing tail s) : s.data <+: framing.bodyOf tail := by
  cases h with
  | inside _ _ hbody => exact ⟨_, hbody.symm⟩
  | after _ _ hbody => exact hbody

/-- A question that does not find a fault goes on in the body. -/
theorem Within.ask (h : Within framing tail s) (size : Nat)
    (hfault : ∀ fault, .badBody fault ∉ (s.ask size).errors) :
    Within framing tail (s.ask size) := by
  cases h with
  | inside hhead hopen hbody =>
    cases askTurn size hhead hopen with
    | inside hsame hopen' _ hdata hahead _ =>
      refine .inside (hsame.trans hhead) hopen' ?_
      rw [hbody, hahead, hdata, List.append_assoc]
    | after hsame hfinished hdata hahead _ =>
      refine .after (hsame.trans hhead) hfinished ?_
      rw [hbody, hahead, hdata, ← List.append_assoc]
      exact List.prefix_append _ _
    | fault hmem => exact absurd hmem (hfault _)
  | after hhead hfinished hbody =>
    rw [ask_of_given hhead (Receiver.pollBody_of_finished hfinished size s.wire)]
    exact .after hhead hfinished (by rwa [Delivery.finished, List.append_nil])

/-- Past the head the data handed over is the front of the body, as long as no
question has found a fault. -/
theorem within_past (h : Past framing tail s) (hfault : ∀ fault, .badBody fault ∉ s.errors) :
    Within framing tail s := by
  refine h.induct (P := fun s => (∀ fault, .badBody fault ∉ s.errors) → Within framing tail s)
    (fun _ hopened _ => within_of_opened hopened) (fun s size ih hfault => ?_) hfault
  have hbefore : ∀ fault, .badBody fault ∉ s.errors :=
    fun fault hmem => hfault fault (errors_ask s size _ hmem)
  exact (ih hbefore).ask size hfault

/-! ### How many deliveries there are -/

/-- Where the last delivery was made, the receiver is finished. -/
structure Closed (s : Reading) : Prop where
  head : ∃ head, s.head = some head
  finished : s.last = true → s.receiver.finished = true

theorem closed_past (h : Past framing tail s) : s.Closed := by
  refine h.induct (fun s hopened => ?_) fun s size ih => ?_
  · obtain ⟨response, hhead⟩ := hopened.head
    exact ⟨⟨_, hhead⟩, fun hlast => absurd hlast (by simp [hopened.last])⟩
  · obtain ⟨head, hhead⟩ := ih.head
    refine ⟨⟨head, head_ask hhead size⟩, fun hlast => ?_⟩
    by_cases hbefore : s.last = true
    · have hfinished := ih.finished hbefore
      rw [ask_of_given hhead (Receiver.pollBody_of_finished hfinished size s.wire)]
      exact hfinished
    rcases hpoll : s.receiver.pollBody size s.wire with ⟨(e | given) | again, r, w⟩
    · rw [ask_of_error hhead hpoll] at hlast
      exact absurd hlast hbefore
    · rw [ask_of_given hhead hpoll] at hlast ⊢
      have hgiven : given.last = true := by simpa [hbefore] using hlast
      exact (Receiver.steps_pollBody hpoll).finished hgiven
    · rw [ask_of_wait hhead hpoll] at hlast
      exact absurd hlast hbefore

/-- The answer is a delivery. -/
def isDelivery : Poll (Except DecodeError Delivery) → Bool
  | .ready (.ok _) => true
  | _ => false

/-- How many of the questions are answered with a delivery, up to the last one. -/
def deliveries (s : Reading) : List Nat → Nat
  | [] => 0
  | size :: sizes =>
    if s.last then 0
    else (isDelivery (s.receiver.pollBody size s.wire).1).toNat + deliveries (s.ask size) sizes

/-- Behind the last delivery none is counted. -/
theorem deliveries_of_last (h : s.last = true) : ∀ sizes : List Nat, deliveries s sizes = 0
  | [] => rfl
  | _ :: _ => by rw [deliveries, if_pos h]

theorem length_data_ask (s : Reading) (size : Nat) : s.data.length ≤ (s.ask size).data.length := by
  unfold ask
  split <;> split <;> simp

theorem length_data_run : ∀ (sizes : List Nat) (s : Reading),
    s.data.length ≤ (s.run sizes).data.length
  | [], _ => Nat.le_refl _
  | size :: sizes, s => Nat.le_trans (length_data_ask s size) (length_data_run sizes (s.ask size))

/-- Every delivery but the last one brings data. -/
theorem deliveries_le : ∀ {sizes : List Nat} {s : Reading} {head : Response × Framing},
    s.head = some head → (∀ size ∈ sizes, 1 ≤ size) →
    deliveries s sizes + s.data.length ≤ (s.run sizes).data.length + 1
  | [], s, _, _, _ => by
    rw [deliveries, Nat.zero_add]
    exact Nat.le_succ _
  | size :: sizes, s, head, hhead, hsizes => by
    obtain ⟨hsize, hrest⟩ := List.forall_mem_cons.mp hsizes
    have hrun : (s.ask size).data.length ≤ (s.run (size :: sizes)).data.length :=
      length_data_run sizes (s.ask size)
    have ih : deliveries (s.ask size) sizes + (s.ask size).data.length ≤
        (s.run (size :: sizes)).data.length + 1 :=
      deliveries_le (head_ask hhead size) hrest
    have hgrows := length_data_ask s size
    by_cases hlast : s.last = true
    · rw [deliveries, if_pos hlast]
      omega
    rw [deliveries, if_neg hlast]
    rcases hpoll : s.receiver.pollBody size s.wire with ⟨(e | given) | again, r, w⟩
    · show 0 + _ + _ ≤ _
      omega
    · show 1 + _ + _ ≤ _
      by_cases hfinal : given.last = true
      · have hnone : deliveries (s.ask size) sizes = 0 := by
          rw [ask_of_given hhead hpoll, deliveries_of_last (by simp [hfinal])]
        omega
      · have hdata : given.data ≠ [] :=
          ((Receiver.steps_pollBody hpoll).isStep hsize).resolve_right hfinal
        have hpos := List.length_pos_iff.mpr hdata
        have hmore : (s.ask size).data.length = s.data.length + given.data.length := by
          rw [ask_of_given hhead hpoll, List.length_append]
        omega
    · show 0 + _ + _ ≤ _
      omega

/-- **Every question for data makes progress.** Past the head, a call for at
least one byte that ends with a delivery ends with data or with the last one.
Once that was made, every call is answered with the last one again, at once, and
leaves receiver and wire alone. So there are no more deliveries than bytes
handed over and one, and, unless a fault is found, no more than bytes of the
body and one. -/
theorem progress_past (h : Past framing tail s) :
    (∀ size given m', 1 ≤ size →
      Receiver.Call size (s.receiver, s.wire) (.ready (.ok given)) m' →
        given.data ≠ [] ∨ given.last = true) ∧
      (s.last = true → ∀ size p m', Receiver.Call size (s.receiver, s.wire) p m' →
        p = .ready (.ok ⟨[], true⟩) ∧ m' = (s.receiver, s.wire)) ∧
      ∀ sizes, (∀ size ∈ sizes, 1 ≤ size) →
        deliveries s sizes + s.data.length ≤ (s.run sizes).data.length + 1 ∧
          ((∀ fault, .badBody fault ∉ (s.run sizes).errors) →
            deliveries s sizes ≤ (framing.bodyOf tail).length + 1) := by
  obtain ⟨⟨head, hhead⟩, hfinished⟩ := closed_past h
  refine ⟨fun size given m' hsize hcall => (Receiver.steps_call hcall).isStep hsize,
    fun hlast size p m' hcall => Receiver.call_of_finished (hfinished hlast) hcall,
    fun sizes hsizes => ?_⟩
  have hcount := deliveries_le hhead hsizes
  refine ⟨hcount, fun hfault => ?_⟩
  have hbody := (within_past (Past.run sizes h) hfault).isPrefix.length_le
  omega

/-- A body of two bytes, with a question that was not ready. -/
theorem progress_past_halting :
    let s := (start false 16 8 halting).run [4]
    Past (.length 2) s.ahead s ∧ (s.run [1, 1, 1, 1]).last = true ∧
      deliveries s [1, 1, 1, 1] ≤ 2 + 1 := by
  intro s
  have hlast : (s.run [1, 1, 1, 1]).last = true := by decide +kernel
  have herrors : (s.run [1, 1, 1, 1]).errors = [] := by decide +kernel
  have hbody : ((Framing.length 2).bodyOf s.ahead).length = 2 := by decide +kernel
  have hfault : ∀ fault, .badBody fault ∉ (s.run [1, 1, 1, 1]).errors := by
    rw [herrors]
    exact fun _ => List.not_mem_nil
  have hcount := ((progress_past past_halting).2.2 [1, 1, 1, 1] (by decide)).2 hfault
  rw [hbody] at hcount
  exact ⟨past_halting, hlast, hcount⟩

end Reading
end Http1Client
