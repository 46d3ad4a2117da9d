/-
# How far one question takes an execution

Asked for progress, an execution goes on from one of its points to the next as
long as its wire is ready. `Execution.Strides` lists the ways to the next point,
and `Execution.Stops` lists the ways in which a question is answered at a point.
Every question to an execution is answered after some strides
(`Execution.proceeds`), so what every stride keeps and every stop ends in
holds of every answer (`Execution.poll_induct`).

Key definitions: `Execution.Strides`, `Execution.Stops`, `Execution.Proceeds`.
Key theorems: `Execution.proceeds`, `Execution.poll_induct`.
-/
import Http1Client.Exchange

namespace Http1Client
namespace Execution

/-- The stage to which an execution has brought its exchange. -/
def stage : Execution → Stage
  | start _ => .idle
  | connecting _ => .connecting
  | sendingHead _ _ _ => .sendingHead
  | sendingBody _ _ _ => .sendingBody
  | awaitingHead _ => .awaitingHead

theorem rank_stage_le (x : Execution) : x.stage.rank ≤ Stage.rank .awaitingHead := by
  cases x <;> simp [stage, Stage.rank]

section Proceeds

variable {e : Exchange} {w w' : Wire}

/-- The next point, and the exchange and the wire there. -/
inductive Strides (e : Exchange) (w : Wire) :
    Execution → Execution → Exchange → Wire → Prop where
  | starts {q : Request} {host : List Char} : e.stage = .idle → q.head.uri.host = some host →
      e.isCancelled w = false → Strides e w (start q) (connecting q) (e.advance .connecting)
        (w.dial host q.head.uri.port)
  | connects {q : Request} {s : Sender} {w' : Wire} : e.isCancelled w = false →
      w.connect = (.ready (.ok ()), w') →
      Sender.putHead { segment := e.settings.segment } q.head (q.head.framing q.body.length) =
        (.ok (), s) →
      Strides e w (connecting q) (sendingHead q s .start) (e.advance .sendingHead) w'
  | sendsHead {q : Request} {s s' s'' : Sender} {f f' : Flush} {w' : Wire} :
      e.isCancelled w = false → s.pollFlush f w = ⟨.ready (.ok ()), f', s', w'⟩ →
      s'.putBody q.body = (.ok (), s'') →
      Strides e w (sendingHead q s f) (sendingBody q s'' .start) (e.advance .sendingBody) w'
  | sendsBody {q : Request} {s s' : Sender} {f f' : Flush} {w' : Wire} :
      e.isCancelled w = false → s.pollFlush f w = ⟨.ready (.ok ()), f', s', w'⟩ →
      Strides e w (sendingBody q s f)
        (awaitingHead (.ofRequest q.head.method.isHead e.settings.readBuffer e.settings.chunkLimit))
        (e.advance .awaitingHead) w'

theorem Strides.rank_lt {x x' : Execution} {e' : Exchange} (h : Strides e w x x' e' w') :
    x.stage.rank < x'.stage.rank := by
  cases h <;> exact Nat.lt_succ_self _

theorem Strides.settings {x x' : Execution} {e' : Exchange} (h : Strides e w x x' e' w') :
    e'.settings = e.settings := by
  cases h <;> rfl

theorem Strides.stage_next {x x' : Execution} {e' : Exchange} (h : Strides e w x x' e' w') :
    e'.stage = x'.stage := by
  cases h <;> rfl

/-- The answer of a question that is answered at this point. -/
inductive Stops (e : Exchange) (w : Wire) : Execution → Answer → Prop where
  /-- The exchange executes a request already, or has done so. -/
  | busy {q : Request} : e.stage ≠ .idle →
      Stops e w (start q) (.done (.error ⟨.stage .execute e.stage, e.response⟩), e, w)
  | hostless {q : Request} {reason : String} : e.stage = .idle → q.head.uri.host = none →
      Stops e w (start q) (failed (.invalidRequest reason) e w)
  | cancelledFirst {q : Request} {host : List Char} : e.stage = .idle →
      q.head.uri.host = some host → e.isCancelled w = true →
      Stops e w (start q) (failed .cancelled (e.advance .connecting) w)
  | cancelled {x : Execution} {response : Response} : x.stage ≠ .idle → e.isCancelled w = true →
      Stops e w x (failed .cancelled { e with response } ((Op.execute x).abandon w))
  | notConnected {q : Request} {host : String} {port : Nat} {error : IoError} {w' : Wire} :
      e.isCancelled w = false → w.connect = (.ready (.error error), w') →
      Stops e w (connecting q) (failed (.connect host port error) e w')
  | connecting {q : Request} {again : Bool} {w' : Wire} : e.isCancelled w = false →
      w.connect = (.wait again, w') →
      Stops e w (.connecting q) (.wait (again || e.isCancelled w') (.connecting q), e, w')
  | headRefused {q : Request} {error : EncodeError} {s : Sender} {w' : Wire} :
      e.isCancelled w = false → w.connect = (.ready (.ok ()), w') →
      Sender.putHead { segment := e.settings.segment } q.head (q.head.framing q.body.length) =
        (.error error, s) →
      Stops e w (.connecting q) (failed (.write error) (e.advance .sendingHead) w'.drop)
  | headUnsent {q : Request} {s s' : Sender} {f f' : Flush} {error : EncodeError} {w' : Wire} :
      e.isCancelled w = false → s.pollFlush f w = ⟨.ready (.error error), f', s', w'⟩ →
      Stops e w (.sendingHead q s f) (failed (.write error) e w'.drop)
  | sendingHead {q : Request} {s s' : Sender} {f f' : Flush} {again : Bool} {w' : Wire} :
      e.isCancelled w = false → s.pollFlush f w = ⟨.wait again, f', s', w'⟩ →
      Stops e w (.sendingHead q s f)
        (.wait (again || e.isCancelled w') (.sendingHead q s' f'), e, w')
  | bodyRefused {q : Request} {s s' s'' : Sender} {f f' : Flush} {error : EncodeError}
      {w' : Wire} : e.isCancelled w = false →
      s.pollFlush f w = ⟨.ready (.ok ()), f', s', w'⟩ → s'.putBody q.body = (.error error, s'') →
      Stops e w (.sendingHead q s f) (failed (.write error) (e.advance .sendingBody) w'.drop)
  | bodyUnsent {q : Request} {s s' : Sender} {f f' : Flush} {error : EncodeError} {w' : Wire} :
      e.isCancelled w = false → s.pollFlush f w = ⟨.ready (.error error), f', s', w'⟩ →
      Stops e w (.sendingBody q s f) (failed (.write error) e w'.drop)
  | sendingBody {q : Request} {s s' : Sender} {f f' : Flush} {again : Bool} {w' : Wire} :
      e.isCancelled w = false → s.pollFlush f w = ⟨.wait again, f', s', w'⟩ →
      Stops e w (.sendingBody q s f)
        (.wait (again || e.isCancelled w') (.sendingBody q s' f'), e, w')
  | headUnread {r r' : Receiver} {error : DecodeError} {response : Response} {w' : Wire} :
      e.isCancelled w = false → r.pollHead w = (.ready (.error error), r', w') →
      Stops e w (.awaitingHead r) (failed (.ofDecode error) { e with response } w'.drop)
  | awaitingHead {r r' : Receiver} {again : Bool} {w' : Wire} : e.isCancelled w = false →
      r.pollHead w = (.wait again, r', w') →
      Stops e w (.awaitingHead r) (.wait (again || e.isCancelled w') (.awaitingHead r'), e, w')
  | head {r r' : Receiver} {response : Response} {framing : Framing} {w' : Wire} :
      e.isCancelled w = false → r.pollHead w = (.ready (.ok (response, framing)), r', w') →
      Stops e w (.awaitingHead r) (.done (.ok response), Exchange.advance
        { e with
          response
          keepAlive := response.keepAlive && !framing.isUntilClose
          connected := true
          receiver := some r' } .readingBody, w')

/-- A question is answered at the point where the execution is, or the execution
goes on to the next point. -/
def Proceeds (x : Execution) (e : Exchange) (w : Wire) : Prop :=
  Stops e w x (x.poll e w) ∨ ∃ x' e' w', Strides e w x x' e' w' ∧ x.poll e w = x'.poll e' w'

theorem proceeds_start (q : Request) (e : Exchange) (w : Wire) : (start q).Proceeds e w := by
  show Stops e w _ (pollStart q e w) ∨ ∃ x' e' w', _ ∧ pollStart q e w = _
  unfold pollStart
  split
  · next hs => exact .inl (.busy hs)
  · next hs =>
    have hidle : e.stage = .idle := Decidable.of_not_not hs
    split
    · next hhost => exact .inl (.hostless hidle hhost)
    · next host hhost =>
      split
      · next hc => exact .inl (.cancelledFirst hidle hhost hc)
      · next hc => exact .inr ⟨_, _, _, .starts hidle hhost (by simpa using hc), rfl⟩

theorem proceeds_connecting (q : Request) (e : Exchange) (w : Wire) :
    (connecting q).Proceeds e w := by
  show Stops e w _ (pollConnecting q e w) ∨ ∃ x' e' w', _ ∧ pollConnecting q e w = _
  unfold pollConnecting
  split
  · next hc => exact .inl (.cancelled nofun hc)
  · next hc =>
    rw [Bool.not_eq_true] at hc
    split
    · next w' hw =>
      unfold startHead
      split
      · next error s hput => exact .inl (.headRefused hc hw hput)
      · next s hput => exact .inr ⟨_, _, _, .connects hc hw hput, rfl⟩
    · next error w' hw => exact .inl (.notConnected hc hw)
    · next again w' hw => exact .inl (.connecting hc hw)

theorem proceeds_sendingHead (q : Request) (s : Sender) (f : Flush) (e : Exchange) (w : Wire) :
    (sendingHead q s f).Proceeds e w := by
  show Stops e w _ (pollSendingHead q s f e w) ∨ ∃ x' e' w', _ ∧ pollSendingHead q s f e w = _
  unfold pollSendingHead
  split
  · next hc => exact .inl (.cancelled nofun hc)
  · next hc =>
    rw [Bool.not_eq_true] at hc
    split
    · next f' s' w' hf =>
      unfold startBody
      split
      · next error s'' hput => exact .inl (.bodyRefused hc hf hput)
      · next s'' hput => exact .inr ⟨_, _, _, .sendsHead hc hf hput, rfl⟩
    · next error f' s' w' hf => exact .inl (.headUnsent hc hf)
    · next again f' s' w' hf => exact .inl (.sendingHead hc hf)

theorem proceeds_sendingBody (q : Request) (s : Sender) (f : Flush) (e : Exchange) (w : Wire) :
    (sendingBody q s f).Proceeds e w := by
  show Stops e w _ (pollSendingBody q s f e w) ∨ ∃ x' e' w', _ ∧ pollSendingBody q s f e w = _
  unfold pollSendingBody
  split
  · next hc => exact .inl (.cancelled nofun hc)
  · next hc =>
    rw [Bool.not_eq_true] at hc
    split
    · next f' s' w' hf => exact .inr ⟨_, _, _, .sendsBody hc hf, rfl⟩
    · next error f' s' w' hf => exact .inl (.bodyUnsent hc hf)
    · next again f' s' w' hf => exact .inl (.sendingBody hc hf)

theorem proceeds_awaitingHead (r : Receiver) (e : Exchange) (w : Wire) :
    (awaitingHead r).Proceeds e w := by
  left
  show Stops e w _ (pollAwaitingHead r e w)
  unfold pollAwaitingHead
  split
  · next hc => exact .cancelled nofun hc
  · next hc =>
    rw [Bool.not_eq_true] at hc
    split
    · next response framing r' w' hr => exact .head hc hr
    · next error r' w' hr => exact .headUnread hc hr
    · next again r' w' hr => exact .awaitingHead hc hr

/-- An execution proceeds by strides to where it stops. -/
theorem proceeds : ∀ (x : Execution) (e : Exchange) (w : Wire), x.Proceeds e w
  | start q => proceeds_start q
  | connecting q => proceeds_connecting q
  | sendingHead q s f => proceeds_sendingHead q s f
  | sendingBody q s f => proceeds_sendingBody q s f
  | awaitingHead r => proceeds_awaitingHead r

end Proceeds

/-- What every stride keeps and every stop ends in holds of every answer. -/
theorem poll_induct {P : Execution → Exchange → Wire → Prop} {Q : Answer → Prop}
    (strides : ∀ {x e w x' e' w'}, P x e w → Strides e w x x' e' w' → P x' e' w')
    (stops : ∀ {x e w a}, P x e w → Stops e w x a → Q a) {x : Execution} {e : Exchange} {w : Wire}
    (h : P x e w) : Q (x.poll e w) := by
  rcases proceeds x e w with hstop | ⟨x', e', w', hstride, hpoll⟩
  · exact stops h hstop
  · rw [hpoll]
    exact poll_induct strides stops (strides h hstride)
termination_by Stage.rank .awaitingHead - x.stage.rank
decreasing_by
  have := hstride.rank_lt
  have := x'.rank_stage_le
  omega

end Execution
end Http1Client
