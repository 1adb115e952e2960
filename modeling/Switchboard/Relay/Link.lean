import Switchboard.Hub.Report
import Switchboard.Relay.Wire
import Switchboard.Stage

/-!
# Links

One client and the relay's end of its connection.  The relay's end is served by two hands, one that
reads and one that writes, until it is taken down for a reason, or what serves it crashes.

    link.stage = closed ↔ it has been taken down
-/

namespace Switchboard.Relay

/-- What comes from a client: a frame, a failure of the transport, or that no more will come. -/
inductive Arrival where
  | frame (f : Frame)
  | fault (detail : String)
  | finished
  deriving Repr

/-- What a client gets to see. -/
inductive Item where
  | frame (f : Frame)
  | ending
  deriving Repr

structure Client where
  reading : Bool
  present : Bool := true
  ended : Bool := false
  inbox : List Item := []
  deriving Repr

/-- The writing hand: ready, in the middle of a frame, or done for. -/
inductive Writer where
  | idle
  | sending
  | stopped
  deriving DecidableEq, Repr

inductive Phase where
  | serving (writer : Writer)
  | closing (reason : CloseReason) (owed : Option Frame) (giveUp : Nat)
  | gone
  | lost (reached : Stage)
  deriving Repr

/-- Is the relay's end gone, one way or the other? -/
def Phase.isOver : Phase → Bool
  | .gone | .lost _ => true
  | .serving _ | .closing .. => false

/-- Times are milliseconds. -/
structure Link where
  name : String
  address : String
  peer : PeerId
  conn : Option ConnId
  client : Client
  wire : Wire
  inbound : List Arrival := []
  phase : Phase
  deadline : Nat := 0
  nextPing : Nat := 0
  deriving Repr

namespace Link

def stage (l : Link) : Stage :=
  match l.phase with
  | .serving _ => .established
  | .closing .. => .closing
  | .gone => .closed
  | .lost reached => reached

def isServed (l : Link) : Bool :=
  match l.phase with
  | .serving _ => true
  | _ => false

/-- The link after something has come from its client. -/
def hear (l : Link) (a : Arrival) : Link := { l with inbound := l.inbound ++ [a] }

/-- Does writing fail? -/
def isMute (l : Link) : Bool := l.wire.broken || !l.client.present

/-- Does writing fail for good, with these frames still to be written? -/
def failsOn (l : Link) (fs : List Frame) : Bool :=
  l.isMute && if l.wire.isClear then !fs.isEmpty else l.wire.hasRoom || !l.client.present

/-- The way to the client once these frames are written, as far as they can be. -/
def leftover (l : Link) (fs : List Frame) : Wire :=
  if l.failsOn fs then l.wire.cut else l.wire.sendAll fs

/-! ## What clients may send -/

def resetText : String := "WebSocket protocol error: Connection reset without closing handshake"

def brokenText : String := "IO error: broken pipe"

def controlLimit : Nat := 125

/-- Why the transport does not take a frame. -/
def transportFault? (most : Nat) (f : Frame) : Option String :=
  if most < f.payloadSize then
    some ("Space limit exceeded: Message too long: " ++ toString f.payloadSize ++ " > " ++
      toString most)
  else if f.isControl && controlLimit < f.payloadSize then
    some "WebSocket protocol error: Control frame too big (payload must be 125 bytes or less)"
  else none

/-- Codes that may stand in a close frame. -/
def isCloseCode (code : UInt16) : Bool :=
  (1000 ≤ code && code ≤ 1003) || (1007 ≤ code && code ≤ 1013) || (3000 ≤ code && code ≤ 4999)

/-- The close frame that answers a client's. -/
def echo : Option CloseFrame → Frame
  | none => .close none
  | some c => .close (some (if isCloseCode c.code then c else ⟨1002, "Protocol violation"⟩))

/-! ## Events -/

def addressField (l : Link) : String × String := ("client_addr", l.address)

/-- A socket is asked for. -/
def upgradeEvent (p : PeerId) (address : String) : Event :=
  ⟨.debug, "WebSocket upgrade requested", [Event.peer p, ("client_addr", address)]⟩

/-- A socket was asked for and could not be opened. -/
def noUpgradeEvent (p : PeerId) (address : String) : Event :=
  ⟨.warn, "WebSocket upgrade failed",
    [Event.peer p, ("client_addr", address), Event.failure "operation was canceled"]⟩

def welcomeEvent (l : Link) (c : ConnId) : Event :=
  ⟨.info, "WebSocket connection established",
    [Event.peer l.peer, l.addressField, Hub.connectionField "connection_id" c]⟩

def transportEvent (l : Link) (detail : String) : Event :=
  ⟨.warn, "WebSocket error", [Event.peer l.peer, Event.failure detail]⟩

def violationEvent (l : Link) (v : Violation) : Event :=
  ⟨.warn, "Rejected client WebSocket frame", [Event.peer l.peer, Event.failure v.message]⟩

def idleEvent (l : Link) (limit : Nat) : Event :=
  ⟨.info, "Peer stopped answering keepalive pings",
    [Event.peer l.peer, ("idle_secs", toString (limit / 1000) ++ ".0")]⟩

def pingEvent (l : Link) : Event := ⟨.trace, "Sending keepalive ping", [Event.peer l.peer]⟩

def writeEvent (l : Link) : Event :=
  ⟨.warn, "Failed to send message, connection closed",
    [Event.peer l.peer, Event.failure brokenText]⟩

def closeFrameEvent (l : Link) : Event :=
  ⟨.debug, "Failed to send close frame", [Event.peer l.peer, Event.failure brokenText]⟩

def giveUpEvent (l : Link) : Event := ⟨.debug, "Timed out closing WebSocket", [Event.peer l.peer]⟩

/-- What is reported once a link is gone. -/
def finalEvent (l : Link) (r : CloseReason) : Event :=
  let fields := [Event.peer l.peer, l.addressField, ("reason", r.message)]
  match r with
  | .rejected _ => ⟨.warn, "WebSocket connection refused", fields⟩
  | r => ⟨if r.isViolation then .warn else .info, "WebSocket connection closed", fields⟩

/-! ## Lemmas -/

theorem isServed_iff (l : Link) : l.isServed = true ↔ ∃ writer, l.phase = .serving writer := by
  unfold isServed
  cases l.phase <;> simp

theorem isServed_of_serving {l : Link} {writer : Writer} (h : l.phase = .serving writer) :
    l.isServed = true := by rw [isServed, h]

end Link

end Switchboard.Relay
