/-
# Where an exchange dials

An exchange dials when an execution sets out from its start, and at no other
time (`Execution.dialled_poll`, `Execution.dials_poll_start`). It has left its
first stage then and does not come back to it, so whatever is done with it, it
dials at most once: the host that the URI of its request names, at the port that
the URI means (`Course.Dials.step`, `Course.dials_run`). A request without a host
is never dialled for.

Host and port are those that stand in the text of the URI (`Uri.Endpoint`). But
where the text has a port that is no number of a port, the usual port of the
scheme is dialled, as if there were none (`Course.dials_overflowing`).

Key definitions: `Course.Dials`.
Key theorems: `Execution.dials_poll_start`, `Course.Dials.step`,
`Course.dials_run`, `Course.dials_overflowing`.
-/
import Http1Client.Proofs.Emission
import Http1Client.Proofs.Keeping
import Http1Client.Proofs.Patience
import Http1Client.Proofs.Head.RequestLine

namespace Http1Client

/-! ### Executions -/

namespace Execution

variable {x x' : Execution} {e e' : Exchange} {w w' : Wire}

/-- Behind its start, an execution goes on without dialling. -/
theorem Strides.dialled (h : Strides e w x x' e' w') (hx : x.stage ≠ .idle) :
    w'.dialled = w.dialled := by
  cases h with
  | starts => exact absurd rfl hx
  | connects _ hw _ =>
    obtain ⟨v, hv, rfl⟩ := Wire.connect_ok hw
    exact hv.dialled
  | sendsHead _ hf _ => exact (Sender.asked_pollFlush hf).dialled
  | sendsBody _ hf => exact (Sender.asked_pollFlush hf).dialled

theorem Strides.begun (h : Strides e w x x' e' w') : x'.stage ≠ .idle := by
  cases h <;> nofun

/-- An execution that stops does not dial. -/
theorem Stops.dialled {a : Answer} (h : Stops e w x a) : a.2.2.dialled = w.dialled := by
  have hfailed : ∀ {f : Failure} {e₁ : Exchange} {w₁ : Wire}, w₁.dialled = w.dialled →
      (failed f e₁ w₁).2.2.dialled = w.dialled := by
    intro f e₁ w₁ hw
    exact (e₁.fail_frame Wire.dialled rfl).trans hw
  have hread (r : Receiver) : (r.pollHead w).2.2.dialled = w.dialled := (r.asked_pollHead w).dialled
  cases h with
  | busy => rfl
  | hostless => exact hfailed rfl
  | cancelledFirst => exact hfailed rfl
  | cancelled => exact hfailed (Op.abandon_frame Wire.dialled rfl _)
  | notConnected _ hw => exact hfailed (Wire.asked_connect hw (by simp)).dialled
  | connecting _ hw => exact (Wire.asked_connect hw (by simp)).dialled
  | headRefused _ hw =>
    obtain ⟨v, hv, rfl⟩ := Wire.connect_ok hw
    exact hfailed hv.dialled
  | headUnsent _ hf => exact hfailed (Sender.asked_pollFlush hf).dialled
  | sendingHead _ hf => exact (Sender.asked_pollFlush hf).dialled
  | bodyRefused _ hf => exact hfailed (Sender.asked_pollFlush hf).dialled
  | bodyUnsent _ hf => exact hfailed (Sender.asked_pollFlush hf).dialled
  | sendingBody _ hf => exact (Sender.asked_pollFlush hf).dialled
  | @headUnread r _ _ _ _ _ hr =>
    have hdialled := hread r
    rw [hr] at hdialled
    exact hfailed hdialled
  | @awaitingHead r _ _ _ _ hr =>
    have hdialled := hread r
    rw [hr] at hdialled
    exact hdialled
  | @head r _ _ _ _ _ hr =>
    have hdialled := hread r
    rw [hr] at hdialled
    exact hdialled

/-- An exchange that has gone on is not brought back. -/
theorem Stops.begun {a : Answer} (h : Stops e w x a) (he : e.stage ≠ .idle) :
    a.2.1.stage ≠ .idle := by
  cases h with
  | busy => exact he
  | connecting => exact he
  | sendingHead => exact he
  | sendingBody => exact he
  | awaitingHead => exact he
  | _ => nofun

/-- Behind its start, an execution is asked without dialling. -/
theorem dialled_poll (hx : x.stage ≠ .idle) : (x.poll e w).2.2.dialled = w.dialled :=
  poll_induct (P := fun x _ w' => x.stage ≠ .idle ∧ w'.dialled = w.dialled)
    (Q := fun a => a.2.2.dialled = w.dialled)
    (fun h hstride => ⟨hstride.begun, (hstride.dialled h.1).trans h.2⟩)
    (fun h hstop => hstop.dialled.trans h.2) ⟨hx, rfl⟩

theorem begun_poll (he : e.stage ≠ .idle) : (x.poll e w).2.1.stage ≠ .idle :=
  poll_induct (P := fun _ e _ => e.stage ≠ .idle) (Q := fun a => a.2.1.stage ≠ .idle)
    (fun _ hstride => hstride.stage_next ▸ hstride.begun) (fun h hstop => hstop.begun h) he

/-- A start dials where the URI says, or not at all: not where the exchange
executes a request already, nor where the URI names no host, nor where the
exchange is cancelled. -/
theorem dials_poll_start (q : Request) (e : Exchange) (w : Wire) :
    let a := (start q).poll e w
    (e.stage = .idle ∧ e.isCancelled w = false ∧ a.2.1.stage ≠ .idle ∧
      ∃ host, q.head.uri.host = some host ∧
        a.2.2.dialled = w.dialled ++ [(host, q.head.uri.port)]) ∨
    ((e.stage ≠ .idle ∨ q.head.uri.host = none ∨ e.isCancelled w = true) ∧
      a.2.2.dialled = w.dialled) := by
  intro a
  rcases proceeds (start q) e w with hstop | ⟨x', e', w', hstride, hpoll⟩
  · refine .inr ⟨?_, hstop.dialled⟩
    show e.stage ≠ .idle ∨ q.head.uri.host = none ∨ e.isCancelled w = true
    change Stops e w (start q) a at hstop
    generalize a = a' at hstop
    cases hstop with
    | busy hs => exact .inl hs
    | hostless _ hhost => exact .inr (.inl hhost)
    | cancelledFirst _ _ hc => exact .inr (.inr hc)
    | cancelled hs => exact absurd rfl hs
  · left
    have hbegun : e'.stage ≠ .idle := hstride.stage_next ▸ hstride.begun
    have hdialled : a.2.2.dialled = w'.dialled := by
      rw [show a = x'.poll e' w' from hpoll]
      exact dialled_poll hstride.begun
    have hstage : a.2.1.stage ≠ .idle := by
      rw [show a = x'.poll e' w' from hpoll]
      exact begun_poll hbegun
    cases hstride with
    | starts hs hhost hc => exact ⟨hs, hc, hstage, _, hhost, hdialled⟩

end Execution

/-! ### Reading and closing -/

namespace Exchange

variable {e : Exchange} {w : Wire}

theorem dialled_pollRead (size : Nat) (e : Exchange) (w : Wire) :
    (e.pollRead size w).2.2.dialled = w.dialled := by
  unfold pollRead
  split
  · rfl
  · next r _ _ =>
    have hasked := r.asked_pollBody size w
    split
    · exact e.fail_frame Wire.dialled rfl
    · split
      · next h =>
        rw [h] at hasked
        exact hasked.dialled
      · next h =>
        rw [h] at hasked
        exact (fail_frame Wire.dialled rfl _).trans hasked.dialled
      · next h =>
        rw [h] at hasked
        exact hasked.dialled
  · rfl
  · rfl

theorem dialled_pollClosing (e : Exchange) (w : Wire) :
    (e.pollClosing w).2.2.dialled = w.dialled := by
  unfold pollClosing
  split
  · next h => exact (Wire.asked_close h).dialled
  · next h => exact (Wire.asked_close h).dialled
  · next h => exact (Wire.asked_close h).dialled

theorem dialled_pollClose (e : Exchange) (w : Wire) :
    (e.pollClose w).2.2.dialled = w.dialled := by
  unfold pollClose
  split
  · exact dialled_pollClosing ..
  · rfl

theorem dialled_abort (e : Exchange) (w : Wire) : (e.abort w).2.dialled = w.dialled := by
  unfold abort
  split
  · exact fail_frame Wire.dialled rfl _
  · rfl

end Exchange

/-! ### Courses -/

namespace Course

/-- Nothing was dialled behind `base`, or the exchange has left its first stage
and dialled once, for a request that was asked for: the host of its URI, at the
port that the URI means. -/
def Dials (asked : Request → Prop) (base : List (List Char × Nat)) (c : Course) : Prop :=
  c.wire.dialled = base ∨ c.exchange.stage ≠ .idle ∧ ∃ q host, asked q ∧
    q.head.uri.host = some host ∧ c.wire.dialled = base ++ [(host, q.head.uri.port)]

variable {asked : Request → Prop} {base : List (List Char × Nat)} {c c' : Course}

theorem Dials.same (h : c.Dials asked base) (hw : c'.wire.dialled = c.wire.dialled)
    (hs : c.exchange.stage ≠ .idle → c'.exchange.stage ≠ .idle) : c'.Dials asked base := by
  rcases h with hnone | ⟨hbegun, q, host, hq, hhost, hdialled⟩
  · exact .inl (hw.trans hnone)
  · exact .inr ⟨hs hbegun, q, host, hq, hhost, hw.trans hdialled⟩

theorem dialled_settle (a : Turn Reply Op × Exchange × Wire) :
    (c.settle a).wire.dialled = a.2.2.dialled := by
  obtain ⟨t, e, w⟩ := a
  cases t <;> rfl

/-- To ask the operation under way. -/
theorem Dials.ask {op : Op} (h : c.Dials asked base)
    (hasked : ∀ q, op = .execute (.start q) → c.exchange.stage = .idle → asked q) :
    (c.settle (op.poll c.exchange c.wire)).Dials asked base := by
  have hsame : (op.poll c.exchange c.wire).2.2.dialled = c.wire.dialled →
      (c.exchange.stage ≠ .idle → (op.poll c.exchange c.wire).2.1.stage ≠ .idle) →
      (c.settle (op.poll c.exchange c.wire)).Dials asked base := by
    intro hw hs
    refine h.same ((dialled_settle _).trans hw) fun hbegun => ?_
    rw [exchange_settle]
    exact hs hbegun
  cases op with
  | execute x =>
    by_cases hx : x.stage = .idle
    · cases x with
      | start q =>
        rcases Execution.dials_poll_start q c.exchange c.wire with
          ⟨hidle, -, hbegun, host, hhost, hdialled⟩ | ⟨-, hdialled⟩
        · have hbase : c.wire.dialled = base := h.resolve_right fun hd => hd.1 hidle
          refine .inr ⟨?_, q, host, hasked q rfl hidle, hhost, ?_⟩
          · rw [exchange_settle]
            exact hbegun
          · rw [dialled_settle, ← hbase]
            exact hdialled
        · exact hsame hdialled fun hbegun => Execution.begun_poll (x := .start q) hbegun
      | _ => cases hx
    · exact hsame (Execution.dialled_poll hx) Execution.begun_poll
  | read size =>
    refine hsame (Exchange.dialled_pollRead ..) fun hbegun hidle => hbegun ?_
    exact (Exchange.silent_pollRead size c.exchange c.wire).idle.mp hidle
  | close =>
    refine hsame (Exchange.dialled_pollClose ..) fun hbegun hidle => hbegun ?_
    exact (Exchange.silent_pollClose c.exchange c.wire).idle.mp hidle
  | closing =>
    refine hsame (Exchange.dialled_pollClosing ..) fun hbegun hidle => hbegun ?_
    exact (Exchange.silent_pollClosing c.exchange c.wire).idle.mp hidle

/-- Every deed dials at most for the request that is under way, and only if
nothing was dialled yet. -/
theorem Dials.step (h : c.Dials asked base) (deed : Deed)
    (hasked : ∀ q, deed = .ask → c.pending = some (.execute (.start q)) →
      c.exchange.stage = .idle → asked q) : (c.step deed).Dials asked base := by
  cases deed with
  | begin call =>
    rw [Course.step]
    split
    · exact h
    · exact h
  | ask =>
    rw [Course.step]
    split
    · exact h
    · next op hop => exact h.ask fun q hq hidle => hasked q rfl (hq ▸ hop) hidle
  | letGo =>
    rw [Course.step]
    split
    · exact h
    · exact h.same (Op.abandon_frame Wire.dialled rfl _) id
  | cancel => exact h
  | abort =>
    rw [Course.step]
    split
    · exact h
    · refine h.same (Exchange.dialled_abort ..) fun hbegun hidle => hbegun ?_
      exact (Exchange.silent_abort c.exchange c.wire).idle.mp hidle

theorem dials_start_run (settings : Settings) (w : Wire) (deeds : List Deed) :
    ∀ before after, deeds = before ++ after →
      ((start settings w).run before).Dials ((start settings w).Executes deeds) w.dialled := by
  intro before
  induction before using List.reverseRecOn with
  | nil => exact fun _ _ => .inl rfl
  | append_singleton before deed ih =>
    intro after hdeeds
    rw [List.append_assoc, List.singleton_append] at hdeeds
    rw [run_concat]
    refine (ih _ hdeeds).step deed fun q hask hop hidle => ?_
    subst hask
    exact ⟨before, after, hdeeds, hidle, hop⟩

/-- **An exchange dials once, where the URI of its request says**, whatever is
done with it and whatever its wire does. Nothing was dialled, or the request that
is executed names a host and this host was dialled, at the port that its URI
means; both are those of the text that the URI was read from. A request that is
asked for first is dialled for, unless the exchange has executed another one or
is cancelled, or the URI names no host. -/
theorem dials_run (settings : Settings) (w : Wire) (deeds : List Deed) :
    let c := (start settings w).run deeds
    (c.wire.dialled = w.dialled ∨ ∃ q host, (start settings w).Executes deeds q ∧
        q.head.uri.host = some host ∧
        c.wire.dialled = w.dialled ++ [(host, q.head.uri.port)] ∧
        ∀ s, Uri.parse s = .ok q.head.uri → q.head.uri.Endpoint s host q.head.uri.port) ∧
      ∀ q, c.pending = some (.execute (.start q)) →
        (c.exchange.stage = .idle ∧ c.exchange.isCancelled c.wire = false ∧
          ∃ host, q.head.uri.host = some host ∧
            (c.step .ask).wire.dialled = w.dialled ++ [(host, q.head.uri.port)]) ∨
        ((c.exchange.stage ≠ .idle ∨ q.head.uri.host = none ∨
            c.exchange.isCancelled c.wire = true) ∧
          (c.step .ask).wire.dialled = c.wire.dialled) := by
  intro c
  have hdials : c.Dials ((start settings w).Executes deeds) w.dialled :=
    dials_start_run settings w deeds deeds [] (by simp)
  refine ⟨?_, fun q hop => ?_⟩
  · rcases hdials with hnone | ⟨-, q, host, hq, hhost, hdialled⟩
    · exact .inl hnone
    · exact .inr ⟨q, host, hq, hhost, hdialled, fun s hs => Uri.endpoint_of_parse hs hhost⟩
  · have hask : (c.step .ask).wire.dialled =
        ((Execution.start q).poll c.exchange c.wire).2.2.dialled := by
      rw [Course.step, hop]
      exact dialled_settle _
    rw [hask]
    rcases Execution.dials_poll_start q c.exchange c.wire with
      ⟨hidle, hc, -, host, hhost, hdialled⟩ | hkept
    · have hbase : c.wire.dialled = w.dialled := hdials.resolve_right fun hd => hd.1 hidle
      rw [hbase] at hdialled
      exact .inl ⟨hidle, hc, host, hhost, hdialled⟩
    · exact .inr hkept

/-- A wire that does not tell when it is connected. -/
def deafWire : Wire := { connecting := [.hang] }

/-- The request for what a URI names. -/
def fetch (u : Uri) : List Deed := [.begin (.execute { head := .plainGet u }), .ask]

/-- A URI with an address in brackets. -/
def bracketedUri : Uri where
  scheme := some "https".toList
  authority := some "u@[::1]:8443".toList
  path := ['/']

theorem dials_run_bracketed : Uri.parse "HTTPS://u@[::1]:8443/".toList = .ok bracketedUri ∧
    ((start {} deafWire).run (fetch bracketedUri)).wire.dialled = [("[::1]".toList, 8443)] := by
  refine ⟨rfl, ?_⟩
  obtain ⟨-, hask⟩ :=
    dials_run {} deafWire [.begin (.execute { head := .plainGet bracketedUri })]
  rcases hask { head := .plainGet bracketedUri } rfl with
    ⟨-, -, host, hhost, hdialled⟩ | ⟨hnot, -⟩
  · obtain rfl : "[::1]".toList = host := Option.some.inj hhost
    exact hdialled
  · exact absurd hnot (by decide)

/-- A URI with a port that is no number of a port. -/
def overflowingUri : Uri where
  scheme := some "http".toList
  authority := some "h:99999".toList
  path := ['/']

/-- A port that is written but is no number of a port is passed over, and the
usual one is dialled. -/
theorem dials_overflowing : Uri.parse "http://h:99999/".toList = .ok overflowingUri ∧
    Uri.Splits "h:99999".toList none ['h'] (some "99999".toList) ∧
    (∀ n, ¬ Uri.IsPort "99999".toList n) ∧
    ((start {} deafWire).run (fetch overflowingUri)).wire.dialled = [(['h'], 80)] := by
  refine ⟨rfl, ⟨rfl, by decide, ?_, nofun⟩, fun n hn => ?_, rfl⟩
  · rintro p ⟨⟩ c hc
    obtain rfl : c = '9' := by simpa using hc
    decide
  · have hread : Uri.portNumber? "99999".toList = some n :=
      Uri.portNumber?_eq_some_iff.mpr (.inl hn)
    cases hread

end Course
end Http1Client
