/-
# A client

A client starts exchanges that work in the background and deals with the one
it started last, as long as it keeps hold of it. A session that is let go of
works on to its end, and then lets go of its connection.

`Client.settle` lets all sessions work, those started first first, until none
of them can go on.

Key definitions: `Client`, `Client.start`, `Client.settle`, `Client.release`,
`Client.close`.
-/
import Http1Client.Session

namespace Http1Client

/-- A client with its sessions. -/
structure Client where
  settings : Settings := {}
  wire : Wire := {}
  /-- The session that the client keeps hold of. -/
  current : Option Session := none
  /-- Sessions that are let go of and still have work to do, in the order of
  their start. -/
  released : List Session := []

namespace Client

/-- Lets go of the released sessions that have no work left. -/
def sweep (c : Client) : Client :=
  { c with
    wire := (c.released.filter Session.isFree).foldl (fun w s => s.drop w) c.wire
    released := c.released.filter (!·.isFree) }

/-- Lets go of the current session. -/
def release (c : Client) : Client :=
  sweep { c with current := none, released := c.released ++ c.current.toList }

/-- Starts to execute a request, in a new session. -/
def start (c : Client) (q : Request) : Client :=
  { c.release with current := some (.start c.settings q) }

/-- Starts a reading of the current session. -/
def read (c : Client) (index size : Nat) : Client :=
  { c with current := c.current.map (·.read index size) }

/-- Cancels the current session. -/
def cancel (c : Client) : Client :=
  match c.current with
  | none => c
  | some s =>
    match s.cancel c.wire with
    | (s', w) => { c with current := some s', wire := w }

/-- Works on sessions in turn. -/
def turns (work : Session → Wire → List Notice × Session × Wire) :
    List Session → Wire → List Notice × List Session × Wire
  | [], w => ([], [], w)
  | s :: ss, w =>
    match work s w with
    | (now, s', w') =>
      match turns work ss w' with
      | (later, ss', w'') => (now ++ later, s' :: ss', w'')

/-- Works on every session once. -/
def each (work : Session → Wire → List Notice × Session × Wire) (c : Client) :
    List Notice × Client :=
  match turns work c.released c.wire with
  | (early, released, w) =>
    match turns work c.current.toList w with
    | (late, current, w') =>
      (early ++ late, sweep { c with released, current := current.head?, wire := w' })

/-- Lets every session work once. -/
def round (c : Client) : List Notice × Client := c.each Session.turn

/-- Is there a session that is worth asking again at once? -/
def isAwake (c : Client) : Bool := (c.released ++ c.current.toList).any Session.isAwake

/-- Lets the sessions work until none can go on, at most `rounds` times more. -/
def rounds : Nat → Client → List Notice × Client
  | 0, c => c.round
  | n + 1, c =>
    match c.round with
    | (now, c') =>
      if c'.isAwake then
        match rounds n c' with
        | (later, c'') => (now ++ later, c'')
      else (now, c')

/-- Lets the sessions work until none can go on. Each time they can, an event
of the wire was used up or a token is cancelled. -/
def settle (c : Client) : List Notice × Client := rounds (c.wire.events + 1) c

/-- The exchange of the current session, if no task has it or waits for it. -/
def exchange? (c : Client) : Option Exchange :=
  match c.current with
  | none => none
  | some s => if s.isFree then some s.exchange else none

/-- Closes the exchange of the current session, if no task has it or waits for
it. No result means that it was not ready. -/
def close (c : Client) : Option (Except Failure Unit) × Client :=
  match c.current with
  | none => (none, c)
  | some s =>
    if s.isFree then
      match s.exchange.carryOut .close c.wire with
      | (reply, e, w) =>
        let c' := { c with current := some { s with exchange := e }, wire := w }
        match reply with
        | some (.closed r) => (some r, c')
        | _ => (none, c')
    else (none, c)

end Client
end Http1Client
