/-
# Questions that leave the connection alone

Sending a request and reading a response neither make a connection nor let go of
one nor ask it to close (`Wire.SameLink`): whoever has a connection has it still,
whatever the wire answered. A receiver throws bytes away only where it comes to
the end of the body, for these are the bytes behind it.

Key definitions: `Wire.SameLink`, `Wire.Intact`.
Key theorems: `Sender.sameLink_pollFlush`, `Receiver.sameLink_pollBody`,
`Receiver.discarded_pollBody`.
-/
import Http1Client.Proofs.Output

namespace Http1Client

/-! ### Questions that leave the connection alone -/

namespace Wire

/-- The connection stands as it did: nobody made it, let go of it or asked it to
close. -/
structure SameLink (w w' : Wire) : Prop where
  connected : w'.connected = w.connected
  dropped : w'.dropped = w.dropped
  closes : w'.closes = w.closes

/-- Nobody let go of the connection or asked it to close. -/
structure Intact (base w : Wire) : Prop where
  dropped : w.dropped = base.dropped
  closes : w.closes = base.closes

variable {base w w' w'' : Wire}

theorem SameLink.refl (w : Wire) : w.SameLink w := ⟨rfl, rfl, rfl⟩

theorem SameLink.trans (h : w.SameLink w') (h' : w'.SameLink w'') : w.SameLink w'' :=
  ⟨h'.connected.trans h.connected, h'.dropped.trans h.dropped, h'.closes.trans h.closes⟩

theorem Intact.sameLink (h : Intact base w) (hw : w.SameLink w') : Intact base w' :=
  ⟨hw.dropped.trans h.dropped, hw.closes.trans h.closes⟩

theorem sameLink_of_outward (h : w'.outward = w.outward) : w.SameLink w' :=
  ⟨congrArg (·.connected) h, congrArg (·.dropped) h, congrArg (·.closes) h⟩

theorem sameLink_flush {p : Poll (Except IoError Unit)} (h : w.flush = (p, w')) :
    w.SameLink w' := by
  cases h
  exact ⟨rfl, rfl, rfl⟩

theorem sameLink_write {b : Bytes} {p : Poll (Except IoError Nat)} (h : w.write b = (p, w')) :
    w.SameLink w' := by
  dsimp only [write] at h
  split at h <;> cases h <;> exact ⟨rfl, rfl, rfl⟩

theorem Intact.connect {p : Poll (Except IoError Unit)} (hw : Intact base w)
    (h : w.connect = (p, w')) : Intact base w' := by
  dsimp only [Wire.connect] at h
  split at h <;> cases h <;> exact ⟨hw.dropped, hw.closes⟩

theorem connected_connect (h : w.connect = (.ready (.ok ()), w')) : w'.connected = true := by
  dsimp only [connect] at h
  split at h
  · cases h
    rfl
  · next hno =>
    rw [Prod.mk.injEq] at h
    exact absurd h.1 hno

end Wire

theorem sameLink_writeAll (b : Bytes) (w : Wire) : w.SameLink (writeAll b w).2.2 := by
  fun_induction writeAll b w with
  | case1 w => exact .refl w
  | case2 b w hb w' hw => exact Wire.sameLink_write hw
  | case3 b w hb n w' hw hn ih => exact (Wire.sameLink_write hw).trans ih
  | case4 b w hb e w' hw => exact Wire.sameLink_write hw
  | case5 b w hb again w' hw => exact Wire.sameLink_write hw

namespace Sender

theorem sameLink_pollSync (s : Sender) (w : Wire) : w.SameLink (s.pollSync w).wire := by
  unfold pollSync
  split <;> next h => exact Wire.sameLink_flush h

theorem sameLink_pollWrite (s : Sender) (left : Bytes) (w : Wire) :
    w.SameLink (s.pollWrite left w).wire := by
  have hall := sameLink_writeAll left w
  unfold pollWrite
  split
  all_goals
    next h =>
      rw [h] at hall
      first
        | exact hall
        | exact hall.trans (sameLink_pollSync ..)

theorem sameLink_pollFlush {s : Sender} {f : Flush} {w : Wire} {o : Flushed}
    (h : s.pollFlush f w = o) : w.SameLink o.wire := by
  subst h
  cases f with
  | start =>
    rw [pollFlush]
    split
    · exact .refl w
    · exact sameLink_pollWrite ..
  | writing left => exact sameLink_pollWrite ..
  | syncing => exact sameLink_pollSync ..

end Sender

namespace Receiver

variable {r r' : Receiver} {w w' : Wire}

theorem sameLink_pollHead {p : Poll (Except DecodeError (Response × Framing))}
    (h : r.pollHead w = (p, r', w')) : w.SameLink w' := by
  have hsame := Wire.sameLink_of_outward (r.outward_pollHead w)
  rwa [h] at hsame

theorem sameLink_pollBody {size : Nat} {p : Poll (Except DecodeError Delivery)}
    (h : r.pollBody size w = (p, r', w')) : w.SameLink w' := by
  have hsame := Wire.sameLink_of_outward (r.outward_pollBody size w)
  rwa [h] at hsame

/-! ### Bytes behind the body -/

/-- Nothing is thrown away but by the delivery that ends the body. -/
theorem discarded_drain {limit : Option Nat} {result : Except DecodeError Delivery}
    (h : r.drain limit = (result, r')) :
    (∃ d, result = .ok d ∧ d.last = true ∧ r'.finished = true) ∨ r'.discarded = r.discarded := by
  unfold drain at h
  split at h
  · cases h
    exact .inr rfl
  · cases h
    exact .inl ⟨_, rfl, rfl, rfl⟩
  · cases h
    exact .inr rfl

/-- Bytes are thrown away only where the body has come to its end. -/
theorem finished_drain {limit : Option Nat} {result : Except DecodeError Delivery}
    (h : r.drain limit = (result, r')) : r'.finished = true ∨ r'.discarded = r.discarded := by
  rcases discarded_drain h with ⟨_, _, _, hfinished⟩ | hsame
  · exact .inl hfinished
  · exact .inr hsame

theorem discarded_drainAtEnd {result : Except DecodeError Delivery}
    (h : r.drainAtEnd = (result, r')) : r'.finished = true ∨ r'.discarded = r.discarded := by
  unfold drainAtEnd at h
  split at h
  · cases h
    exact .inr rfl
  · cases h
    exact .inl rfl
  · cases h
    exact .inr rfl
  · cases h
    exact .inr rfl

theorem discarded_fill (target : Nat) (r : Receiver) (w : Wire) :
    (fill target r w).2.1.discarded = r.discarded := by
  fun_induction fill target r w with
  | case4 r w hlt x xs w' hread ih => exact ih
  | _ => rfl

theorem discarded_pollLength {left size : Nat} {p : Poll (Except DecodeError Delivery)}
    (h : pollLength left size r w = (p, r', w')) :
    r'.finished = true ∨ r'.discarded = r.discarded := by
  have hfill := discarded_fill (r.fillTarget left size) r w
  unfold pollLength at h
  split at h
  · next hf =>
    rw [hf] at hfill
    cases h
    exact .inr hfill
  · next hf =>
    rw [hf] at hfill
    cases h
    exact .inr hfill
  · next r₁ w₁ hf =>
    rw [hf] at hfill
    rcases hdrain : r₁.drain none with ⟨result, r₂⟩
    simp only [hdrain, Prod.mk.injEq] at h
    obtain ⟨-, rfl, -⟩ := h
    exact (finished_drain hdrain).imp_right fun hsame => hsame.trans hfill

theorem discarded_pollChunks {size : Nat} {p : Poll (Except DecodeError Delivery)}
    (h : pollChunks size r w = (p, r', w')) :
    r'.finished = true ∨ r'.discarded = r.discarded := by
  -- A drain that gives nothing out has not come to the end of the body.
  have hnone : ∀ {r r₁ : Receiver} {d : Delivery}, r.drain (some (max size 1)) = (.ok d, r₁) →
      ¬ (d.data ≠ [] ∨ d.last = true) → r₁.discarded = r.discarded := by
    intro r r₁ d hdrain hnil
    rcases discarded_drain hdrain with ⟨d', hd, hlast, -⟩ | hsame
    · cases hd
      exact absurd (.inr hlast) hnil
    · exact hsame
  fun_induction pollChunks size r w with
  | case1 r w e r₁ hdrain =>
    cases h
    exact finished_drain hdrain
  | case2 r w d r₁ hdrain hgiven =>
    cases h
    exact finished_drain hdrain
  | case3 r w d r₁ hdrain hnil again w₁ hread =>
    cases h
    exact .inr (hnone hdrain hnil)
  | case4 r w d r₁ hdrain hnil e w₁ hread =>
    cases h
    exact .inr (hnone hdrain hnil)
  | case5 r w d r₁ hdrain hnil w₁ hread result r₂ hend =>
    cases h
    exact (discarded_drainAtEnd hend).imp_right fun hsame => hsame.trans (hnone hdrain hnil)
  | case6 r w d r₁ hdrain hnil x xs w₁ hread ih =>
    have hr₁ := hnone hdrain hnil
    exact (ih h).imp_right fun hsame => hsame.trans hr₁

theorem discarded_pollUntilClose {size : Nat} {p : Poll (Except DecodeError Delivery)}
    (h : pollUntilClose size r w = (p, r', w')) :
    r'.finished = true ∨ r'.discarded = r.discarded := by
  unfold pollUntilClose at h
  split at h
  · split at h
    · cases h
      exact .inr rfl
    · cases h
      exact .inr rfl
    · cases h
      exact discarded_drainAtEnd rfl
    · next b _ _ _ =>
      rcases hdrain : (r.receive b).drain none with ⟨result, r₂⟩
      simp only [hdrain, Prod.mk.injEq] at h
      obtain ⟨-, rfl, -⟩ := h
      have hsame : r₂.finished = true ∨ r₂.discarded = (r.receive b).discarded :=
        finished_drain hdrain
      exact hsame
  · rcases hdrain : r.drain none with ⟨result, r₂⟩
    simp only [hdrain, Prod.mk.injEq] at h
    obtain ⟨-, rfl, -⟩ := h
    exact finished_drain hdrain

/-- Bytes are thrown away only behind the body. -/
theorem discarded_pollBody {size : Nat} {p : Poll (Except DecodeError Delivery)}
    (h : r.pollBody size w = (p, r', w')) :
    r'.finished = true ∨ r'.discarded = r.discarded := by
  unfold pollBody at h
  split at h
  · cases h
    exact .inr rfl
  · split at h
    · cases h
      exact .inr rfl
    · exact discarded_pollLength h
    · exact discarded_pollChunks h
    · exact discarded_pollUntilClose h
    · cases h
      exact finished_drain rfl

end Receiver

end Http1Client
