/-
# The stages of an exchange

An exchange goes through its stages in one direction and stops at one of the
two last ones. Every stage before those may fail, and reading a body may be
followed by more reading.

Key definitions: `Stage`, `Stage.mayAdvance`.
-/

namespace Http1Client

/-- How far an exchange has come. -/
inductive Stage where
  | idle
  | connecting
  | sendingHead
  | sendingBody
  | awaitingHead
  | readingBody
  | complete
  | failed
  deriving DecidableEq, Repr

namespace Stage

/-- The name under which a stage is shown. -/
def text : Stage → String
  | idle => "Idle"
  | connecting => "Connecting"
  | sendingHead => "SendingHeaders"
  | sendingBody => "SendingBody"
  | awaitingHead => "ReadingHeaders"
  | readingBody => "ReadingBody"
  | complete => "Complete"
  | failed => "Failed"

/-- Is the exchange over? -/
def isTerminal : Stage → Bool
  | complete => true
  | failed => true
  | _ => false

/-- The place of a stage in the order of the stages. -/
def rank : Stage → Nat
  | idle => 0
  | connecting => 1
  | sendingHead => 2
  | sendingBody => 3
  | awaitingHead => 4
  | readingBody => 5
  | complete => 6
  | failed => 6

/-- May `next` follow? -/
def mayAdvance (s next : Stage) : Bool :=
  !s.isTerminal &&
    (next == failed || (s == readingBody && next == readingBody) || s.rank < next.rank)

theorem not_mayAdvance_of_isTerminal {s : Stage} (h : s.isTerminal = true) (next : Stage) :
    s.mayAdvance next = false := by
  simp [mayAdvance, h]

end Stage
end Http1Client
