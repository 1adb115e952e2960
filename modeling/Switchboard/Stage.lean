import Switchboard.Event

/-!
# Stages of a connection

A connection is set up, served, taken down and gone; one that is refused is never served.  Stages
only move forward.

    accepted targets of a run = a start of [established, closing, closed] or [closing, closed]
-/

namespace Switchboard

inductive Stage where
  | connecting
  | established
  | closing
  | closed
  deriving DecidableEq, Repr

namespace Stage

/-! ## Algorithm -/

def title : Stage → String
  | connecting => "Connecting"
  | established => "Established"
  | closing => "Closing"
  | closed => "Closed"

/-- May the second stage follow the first? -/
def allows : Stage → Stage → Bool
  | connecting, established => true
  | connecting, closing => true
  | established, closing => true
  | closing, closed => true
  | _, _ => false

/-- The stage after a move that was asked for; a move that is not allowed changes nothing. -/
def advance (s next : Stage) : Stage := if s.allows next then next else s

/-- What a move that was asked for is reported as. -/
def moveEvent (p : PeerId) (s next : Stage) : Event :=
  let fields := [Event.peer p, ("from", s.title), ("to", next.title)]
  if s.allows next then ⟨.debug, "Connection state changed", fields⟩
  else ⟨.warn, "Ignoring invalid connection state transition", fields⟩

/-- Asks for one move after the other. -/
def run (s : Stage) (targets : List Stage) : Stage := targets.foldl advance s

/-- The targets that are accepted. -/
def accepted : Stage → List Stage → List Stage
  | _, [] => []
  | s, t :: ts => if s.allows t then t :: accepted t ts else accepted s ts

/-! ## Lemmas -/

theorem accepted_closed (ts : List Stage) : accepted closed ts = [] := by
  induction ts with
  | nil => rfl
  | cons t ts ih => cases t <;> simpa [accepted, allows] using ih

end Stage

end Switchboard
