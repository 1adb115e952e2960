import Switchboard.Json.Decode
import Switchboard.Json.Print

/-!
# Counters

What a relay has seen since it started.  All counters only grow, but for the gauge of open
connections, which goes down with each closing and stays at zero there.

    parse (bytes (compact c.toValue)) = ok c
-/

namespace Switchboard

structure Counters where
  accepted : UInt64 := 0
  active : UInt64 := 0
  rejected : UInt64 := 0
  closed : UInt64 := 0
  evicted : UInt64 := 0
  received : UInt64 := 0
  forwarded : UInt64 := 0
  unroutable : UInt64 := 0
  dropped : UInt64 := 0
  violations : UInt64 := 0
  deriving DecidableEq, Repr

/-- Something that is counted. -/
inductive Tally where
  | connection
  | disconnection
  | rejection
  | eviction
  | received
  | forwarded
  | unroutable
  | dropped
  | violation
  deriving DecidableEq, Repr

namespace Counters

/-! ## Algorithm -/

def count (c : Counters) : Tally → Counters
  | .connection => { c with accepted := c.accepted + 1, active := c.active + 1 }
  | .disconnection =>
    { c with closed := c.closed + 1, active := if c.active = 0 then 0 else c.active - 1 }
  | .rejection => { c with rejected := c.rejected + 1 }
  | .eviction => { c with evicted := c.evicted + 1 }
  | .received => { c with received := c.received + 1 }
  | .forwarded => { c with forwarded := c.forwarded + 1 }
  | .unroutable => { c with unroutable := c.unroutable + 1 }
  | .dropped => { c with dropped := c.dropped + 1 }
  | .violation => { c with violations := c.violations + 1 }

/-- Counts one thing after the other. -/
def countAll (c : Counters) (ts : List Tally) : Counters := ts.foldl count c

/-- The counters in their order. -/
def toList (c : Counters) : List UInt64 :=
  [c.accepted, c.active, c.rejected, c.closed, c.evicted, c.received, c.forwarded, c.unroutable,
    c.dropped, c.violations]

/-! ## As a document -/

def names : List String :=
  ["connectionsAccepted", "connectionsActive", "connectionsRejected", "connectionsClosed",
    "peersEvicted", "framesReceived", "framesForwarded", "framesUnroutable",
    "framesDroppedBackpressure", "protocolViolations"]

def toValue (c : Counters) : Json.Value :=
  .object (names.zip (c.toList.map fun n => .number (.integer n.toNat)))

def record : Json.Record Counters where
  title := "RelayMetricsSnapshot"
  fields := [
    .of "connectionsAccepted" Json.word64 fun n c => { c with accepted := n },
    .of "connectionsActive" Json.word64 fun n c => { c with active := n },
    .of "connectionsRejected" Json.word64 fun n c => { c with rejected := n },
    .of "connectionsClosed" Json.word64 fun n c => { c with closed := n },
    .of "peersEvicted" Json.word64 fun n c => { c with evicted := n },
    .of "framesReceived" Json.word64 fun n c => { c with received := n },
    .of "framesForwarded" Json.word64 fun n c => { c with forwarded := n },
    .of "framesUnroutable" Json.word64 fun n c => { c with unroutable := n },
    .of "framesDroppedBackpressure" Json.word64 fun n c => { c with dropped := n },
    .of "protocolViolations" Json.word64 fun n c => { c with violations := n }]
  required := true

def codec : Json.Codec Counters := record.codec {}

/-! ## Lemmas -/

theorem countAll_append (c : Counters) (ts us : List Tally) :
    c.countAll (ts ++ us) = (c.countAll ts).countAll us := by
  simp [countAll]

theorem countAll_nil (c : Counters) : c.countAll [] = c := rfl

end Counters

end Switchboard
