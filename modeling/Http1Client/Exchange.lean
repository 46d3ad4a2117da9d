/-
# One exchange of a request for a response

An exchange connects, sends one request, reads the head of the response, and
hands out its body as it is asked to. What it asks of its wire may not be ready,
so an operation under way is a value: asked for progress it either ends with
a result or becomes the operation that is left to do (`Turn`). Such a value
may be asked again, or be let go of, and then the exchange stays as it is.

Every question to the wire on behalf of an execution or a reading is preceded
by a look at the cancellation token; closing goes on regardless. A failure of
any kind lets go of the connection and is final.

Key definitions: `Exchange`, `Execution`, `Op`, `Op.poll`, `Op.abandon`,
`Exchange.carryOut`, `Exchange.abort`.
-/
import Http1Client.Sender
import Http1Client.Receiver
import Http1Client.Failure
import Http1Client.Settings

namespace Http1Client

/-- The state of an exchange between two questions for progress. -/
structure Exchange where
  settings : Settings := {}
  stage : Stage := .idle
  response : Response := {}
  /-- May the connection be used again when the exchange is complete? -/
  keepAlive : Bool := false
  /-- Has the holder of the cancellation token cancelled the exchange? -/
  cancelled : Bool := false
  /-- Does the exchange hold a connection? -/
  connected : Bool := false
  /-- The receiver of the response, if the exchange holds one. -/
  receiver : Option Receiver := none
  /-- Was every change of stage one that may be made? -/
  inOrder : Bool := true
  deriving DecidableEq

/-- An answer of an operation that was asked for progress: its result, or what
is left to do. `again` tells whether it is worth asking again at once. -/
inductive Turn (ρ ω : Type) where
  | done (result : ρ)
  | wait (again : Bool) (left : ω)

/-- The same answer with a result and a rest of other types. -/
def Turn.map {ρ ρ' ω ω' : Type} (f : ρ → ρ') (g : ω → ω') : Turn ρ ω → Turn ρ' ω'
  | done r => done (f r)
  | wait again left => wait again (g left)

namespace Exchange

/-- Is the exchange cancelled, by the holder of its token or by its wire? -/
def isCancelled (e : Exchange) (w : Wire) : Bool := e.cancelled || w.cancelled

/-- The bytes of the body still to be read, where the framing tells. -/
def bodyLeft (e : Exchange) : Option Nat := e.receiver.bind Receiver.bodyLeft

/-- The receiver, where the exchange holds a connection for it too. -/
def link (e : Exchange) : Option Receiver := if e.connected then e.receiver else none

theorem link_eq_some_iff {e : Exchange} {r : Receiver} :
    e.link = some r ↔ e.connected = true ∧ e.receiver = some r := by
  simp [link]

/-- Goes on to a stage, and notes whether that stage may follow. -/
def advance (e : Exchange) (next : Stage) : Exchange :=
  { e with stage := next, inOrder := e.inOrder && e.stage.mayAdvance next }

/-- The exchange without its connection and its receiver. -/
def unlink (e : Exchange) : Exchange := { e with connected := false, receiver := none }

/-- Lets go of the connection, if the exchange holds one. -/
def release (e : Exchange) (w : Wire) : Wire := if e.connected then w.drop else w

theorem release_cases (e : Exchange) (w : Wire) : e.release w = w ∨ e.release w = w.drop := by
  unfold release
  split
  · exact .inr rfl
  · exact .inl rfl

/-- To let go leaves alone what dropping the wire leaves alone. -/
theorem release_frame {α : Type} (f : Wire → α) {w : Wire} (hf : f w.drop = f w) (e : Exchange) :
    f (e.release w) = f w :=
  Wire.frame_of_drop hf (e.release_cases w)

/-- Lets go of the connection and ends in failure. -/
def fail (e : Exchange) (w : Wire) : Exchange × Wire :=
  (advance { e.unlink with keepAlive := false } .failed, e.release w)

theorem fail_frame {α : Type} (f : Wire → α) {w : Wire} (hf : f w.drop = f w) (e : Exchange) :
    f (e.fail w).2 = f w :=
  e.release_frame f hf

/-- Cancels the token. -/
def cancel (e : Exchange) : Exchange := { e with cancelled := true }

/-- Cancels the token and gives up what is under way. -/
def abort (e : Exchange) (w : Wire) : Exchange × Wire :=
  if e.stage ≠ .idle ∧ e.stage.isTerminal = false then e.cancel.fail w else (e.cancel, w)

end Exchange

/-! ### Executing a request -/

/-- How far an execution has come. From the sending of the head on it owns the
connection. -/
inductive Execution where
  | start (q : Request)
  | connecting (q : Request)
  | sendingHead (q : Request) (s : Sender) (f : Flush)
  | sendingBody (q : Request) (s : Sender) (f : Flush)
  | awaitingHead (r : Receiver)
  deriving DecidableEq

namespace Execution

/-- What an execution answers. -/
abbrev Answer := Turn (Except FailedExecution Response) Execution × Exchange × Wire

/-- Ends in failure, with the response as far as it has arrived. -/
def failed (f : Failure) (e : Exchange) (w : Wire) : Answer :=
  (.done (.error ⟨f, e.response⟩), e.fail w)

/-- Waits for the head of the response. -/
def pollAwaitingHead (r : Receiver) (e : Exchange) (w : Wire) : Answer :=
  if e.isCancelled w then
    failed .cancelled { e with response := r.incoming.salvaged.getD e.response } w.drop
  else
    match r.pollHead w with
    | (.ready (.ok (response, framing)), r', w') =>
      (.done (.ok response),
        Exchange.advance
          { e with
            response
            keepAlive := response.keepAlive && !framing.isUntilClose
            connected := true
            receiver := some r' }
          .readingBody, w')
    | (.ready (.error error), r', w') =>
      failed (.ofDecode error) { e with response := r'.incoming.salvaged.getD e.response } w'.drop
    | (.wait again, r', w') => (.wait (again || e.isCancelled w') (.awaitingHead r'), e, w')

/-- Flushes the body, then waits for the head of the response. -/
def pollSendingBody (q : Request) (s : Sender) (f : Flush) (e : Exchange) (w : Wire) : Answer :=
  if e.isCancelled w then failed .cancelled e w.drop
  else
    match s.pollFlush f w with
    | ⟨.ready (.ok ()), _, _, w'⟩ =>
      pollAwaitingHead
        (Receiver.ofRequest q.head.method.isHead e.settings.readBuffer e.settings.chunkLimit)
        (e.advance .awaitingHead) w'
    | ⟨.ready (.error error), _, _, w'⟩ => failed (.write error) e w'.drop
    | ⟨.wait again, f', s', w'⟩ => (.wait (again || e.isCancelled w') (.sendingBody q s' f'), e, w')

/-- Encodes the body and sends it. -/
def startBody (q : Request) (s : Sender) (e : Exchange) (w : Wire) : Answer :=
  match s.putBody q.body with
  | (.error error, _) => failed (.write error) e w.drop
  | (.ok (), s') => pollSendingBody q s' .start e w

/-- Flushes the head, then sends the body. -/
def pollSendingHead (q : Request) (s : Sender) (f : Flush) (e : Exchange) (w : Wire) : Answer :=
  if e.isCancelled w then failed .cancelled e w.drop
  else
    match s.pollFlush f w with
    | ⟨.ready (.ok ()), _, s', w'⟩ => startBody q s' (e.advance .sendingBody) w'
    | ⟨.ready (.error error), _, _, w'⟩ => failed (.write error) e w'.drop
    | ⟨.wait again, f', s', w'⟩ => (.wait (again || e.isCancelled w') (.sendingHead q s' f'), e, w')

/-- Encodes the head and sends it. -/
def startHead (q : Request) (e : Exchange) (w : Wire) : Answer :=
  match Sender.putHead { segment := e.settings.segment } q.head (q.head.framing q.body.length) with
  | (.error error, _) => failed (.write error) e w.drop
  | (.ok (), s) => pollSendingHead q s .start e w

/-- Waits for the connection, then sends the head. -/
def pollConnecting (q : Request) (e : Exchange) (w : Wire) : Answer :=
  if e.isCancelled w then failed .cancelled e w
  else
    match w.connect with
    | (.ready (.ok ()), w') => startHead q (e.advance .sendingHead) w'
    | (.ready (.error error), w') =>
      failed (.connect (String.ofList (q.head.uri.host.getD [])) q.head.uri.port error) e w'
    | (.wait again, w') => (.wait (again || e.isCancelled w') (.connecting q), e, w')

/-- Starts: an exchange executes one request, which has to name a host. -/
def pollStart (q : Request) (e : Exchange) (w : Wire) : Answer :=
  if e.stage ≠ .idle then (.done (.error ⟨.stage .execute e.stage, e.response⟩), e, w)
  else
    match q.head.uri.host with
    | none => failed (.invalidRequest s!"uri {q.head.uri.text} has no host") e w
    | some host =>
      if e.isCancelled w then failed .cancelled (e.advance .connecting) w
      else pollConnecting q (e.advance .connecting) (w.dial host q.head.uri.port)

/-- Asks an execution for progress. -/
def poll (x : Execution) (e : Exchange) (w : Wire) : Answer :=
  match x with
  | start q => pollStart q e w
  | connecting q => pollConnecting q e w
  | sendingHead q s f => pollSendingHead q s f e w
  | sendingBody q s f => pollSendingBody q s f e w
  | awaitingHead r => pollAwaitingHead r e w

/-- Does the execution own the connection? -/
def ownsConnection : Execution → Bool
  | start _ => false
  | connecting _ => false
  | _ => true

end Execution

/-! ### Reading the body and closing -/

namespace Exchange

/-- Asks for data of the body, about `size` bytes of it. -/
def pollRead (size : Nat) (e : Exchange) (w : Wire) :
    Turn (Except Failure Delivery) Unit × Exchange × Wire :=
  match e.stage, e.link with
  | .complete, _ => (.done (.ok .finished), e, w)
  | .readingBody, some r =>
    if e.isCancelled w then (.done (.error .cancelled), e.fail w)
    else
      match r.pollBody size w with
      | (.ready (.ok d), r', w') =>
        (.done (.ok d),
          advance { e with receiver := some r', keepAlive := e.keepAlive && !r'.discarded }
            (if d.last then .complete else .readingBody), w')
      | (.ready (.error error), r', w') =>
        (.done (.error (.ofDecode error)), fail { e with receiver := some r' } w')
      | (.wait again, r', w') =>
        (.wait (again || e.isCancelled w') (), { e with receiver := some r' }, w')
  | .failed, _ =>
    (.done (.error (if e.isCancelled w then .cancelled else .stage .readBody .failed)), e, w)
  | current, _ => (.done (.error (.stage .readBody current)), e, w)

/-- Asks the wire to close. Whatever it answers in the end, the connection is
let go of. -/
def pollClosing (e : Exchange) (w : Wire) : Turn (Except Failure Unit) Unit × Exchange × Wire :=
  match w.close with
  | (.ready (.ok ()), w') => (.done (.ok ()), e, w'.drop)
  | (.ready (.error error), w') => (.done (.error (.write (.io error))), e, w'.drop)
  | (.wait again, w') => (.wait again (), e, w')

/-- What closing does before it asks the wire: an exchange that is under way
fails. -/
def interrupt (e : Exchange) : Exchange :=
  if e.stage ≠ .idle ∧ e.stage.isTerminal = false then
    advance { e with keepAlive := false } .failed
  else e

/-- Starts closing. Without a connection there is nothing to do. -/
def pollClose (e : Exchange) (w : Wire) : Turn (Except Failure Unit) Unit × Exchange × Wire :=
  if e.connected then pollClosing e.interrupt.unlink w
  else (.done (.ok ()), e.interrupt.unlink, w)

end Exchange

/-! ### Operations -/

/-- An operation on an exchange, as far as it is left to do. -/
inductive Op where
  | execute (x : Execution)
  | read (size : Nat)
  | close
  /-- Closing, when the wire was asked to close already. It owns the connection. -/
  | closing
  deriving DecidableEq

/-- The result of an operation. -/
inductive Reply where
  | executed (r : Except FailedExecution Response)
  | delivered (r : Except Failure Delivery)
  | closed (r : Except Failure Unit)

namespace Op

/-- Asks an operation for progress. -/
def poll (op : Op) (e : Exchange) (w : Wire) : Turn Reply Op × Exchange × Wire :=
  match op with
  | execute x =>
    match x.poll e w with
    | (t, e', w') => (t.map .executed .execute, e', w')
  | read size =>
    match e.pollRead size w with
    | (t, e', w') => (t.map .delivered (fun _ => .read size), e', w')
  | close =>
    match e.pollClose w with
    | (t, e', w') => (t.map .closed (fun _ => .closing), e', w')
  | closing =>
    match e.pollClosing w with
    | (t, e', w') => (t.map .closed (fun _ => .closing), e', w')

/-- Does the operation own the connection? -/
def ownsConnection : Op → Bool
  | execute x => x.ownsConnection
  | closing => true
  | _ => false

/-- Lets go of an operation that is not ready, and of the connection if it
owns it. -/
def abandon (op : Op) (w : Wire) : Wire := if op.ownsConnection then w.drop else w

theorem abandon_cases (op : Op) (w : Wire) : op.abandon w = w ∨ op.abandon w = w.drop := by
  unfold abandon
  split
  · exact .inr rfl
  · exact .inl rfl

theorem abandon_frame {α : Type} (f : Wire → α) {w : Wire} (hf : f w.drop = f w) (op : Op) :
    f (op.abandon w) = f w :=
  Wire.frame_of_drop hf (op.abandon_cases w)

/-- Asks an operation for progress as long as it is worth it, at most `rounds`
times more. -/
def run (rounds : Nat) (op : Op) (e : Exchange) (w : Wire) : Turn Reply Op × Exchange × Wire :=
  match rounds, op.poll e w with
  | rounds + 1, (.wait true op', e', w') => run rounds op' e' w'
  | _, r => r

end Op

namespace Exchange

/-- Carries out an operation as far as its wire lets it: to its result, or to
where it is not ready and is let go of. Every answer that is worth asking
again uses up an event of the wire or comes of a cancelled token. -/
def carryOut (op : Op) (e : Exchange) (w : Wire) : Option Reply × Exchange × Wire :=
  match op.run (w.events + 1) e w with
  | (.done reply, e', w') => (some reply, e', w')
  | (.wait _ op', e', w') => (none, e', op'.abandon w')

end Exchange
end Http1Client
