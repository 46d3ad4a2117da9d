/-
# An exchange that is worked on in the background

A session starts an execution and any number of readings, reports their
results, and lets its owner cancel them. One task at a time has the exchange;
the others wait for it in the order they were started. A task that is not
ready keeps the exchange.

Cancelling sets the token, and if no task has the exchange it also aborts
what the exchange still holds.

Key definitions: `Task`, `Notice`, `Session`, `Session.turn`,
`Session.cancel`, `Session.isFree`.
-/
import Http1Client.Exchange
import Http1Client.OneShot

namespace Http1Client

/-- Work on an exchange, as far as it is left to do. -/
inductive Task where
  | execute (x : Execution)
  /-- The reading with this number. -/
  | read (index size : Nat)
  deriving DecidableEq

/-- What a session reports. -/
inductive Notice where
  | completed (r : Except FailedExecution Response)
  /-- The result of the reading with this number. -/
  | read (index : Nat) (r : Except Failure Delivery)

/-- Asks a task for progress. -/
def Task.poll (t : Task) (e : Exchange) (w : Wire) : Turn Notice Task × Exchange × Wire :=
  match t with
  | execute x =>
    match x.poll e w with
    | (turn, e', w') => (turn.map .completed .execute, e', w')
  | read index size =>
    match e.pollRead size w with
    | (turn, e', w') => (turn.map (.read index) (fun _ => .read index size), e', w')

/-- A task that has the exchange and was not ready. -/
structure Running where
  task : Task
  /-- Is it worth asking again? -/
  again : Bool
  deriving DecidableEq

/-- An exchange with the tasks that are to work on it. -/
structure Session where
  exchange : Exchange
  running : Option Running := none
  /-- The tasks that wait for the exchange, the first one first. -/
  waiting : List Task := []
  completion : OneShot (Except FailedExecution Response) := {}

namespace Session

/-- A session that is to execute a request. -/
def start (settings : Settings) (q : Request) : Session :=
  { exchange := { settings }, waiting := [.execute (.start q)] }

/-- Starts a reading. -/
def read (s : Session) (index size : Nat) : Session :=
  { s with waiting := s.waiting ++ [.read index size] }

/-- Has no task the exchange, and does none wait for it? -/
def isFree (s : Session) : Bool := s.running.isNone && s.waiting.isEmpty

/-- Cancels the exchange. -/
def cancel (s : Session) (w : Wire) : Session × Wire :=
  match s.running with
  | some _ => ({ s with exchange := s.exchange.cancel }, w)
  | none =>
    match s.exchange.abort w with
    | (e, w') => ({ s with exchange := e }, w')

/-- Makes a report; that of the execution is made once. -/
def report (s : Session) : Notice → List Notice × Session
  | .completed r =>
    match s.completion.fire r with
    | (some r, o) => ([.completed r], { s with completion := o })
    | (none, o) => ([], { s with completion := o })
  | .read index r => ([.read index r], s)

/-- Lets tasks work one behind the other, up to one that is not ready. -/
def work : List Task → Session → Wire → List Notice × Session × Wire
  | [], s, w => ([], { s with running := none, waiting := [] }, w)
  | task :: tasks, s, w =>
    match task.poll s.exchange w with
    | (.done notice, e, w') =>
      match report { s with exchange := e } notice with
      | (now, s') =>
        match work tasks s' w' with
        | (later, s'', w'') => (now ++ later, s'', w'')
    | (.wait again task', e, w') =>
      ([], { s with exchange := e, running := some ⟨task', again⟩, waiting := tasks }, w')

/-- Lets the tasks work as far as they come without being asked again. A task
that has no reason to be asked again stays as it is. -/
def turn (s : Session) (w : Wire) : List Notice × Session × Wire :=
  match s.running with
  | none => work s.waiting s w
  | some r =>
    if r.again || s.exchange.isCancelled w then work (r.task :: s.waiting) s w else ([], s, w)

/-- Is there a task that is worth asking again at once? -/
def isAwake (s : Session) : Bool := s.running.any (·.again)

/-- Lets go of the exchange, and of the connection it holds. -/
def drop (s : Session) (w : Wire) : Wire := s.exchange.release w

end Session
end Http1Client
