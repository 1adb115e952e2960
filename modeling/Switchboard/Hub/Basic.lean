import Switchboard.CloseReason
import Switchboard.Counters
import Switchboard.Hub.Mailbox
import Switchboard.Policy

/-!
# The hub

All that connections share: the table of peers, one mailbox for each connection, the counters, and
whether a shutdown was asked for.  An identifier that is taken is refused or handed over, as the
policy says.

    register p: free → entered; taken → refused, or the old connection is closed and returned
    route bound f = error v → nothing but two counters has changed
-/

namespace Switchboard

structure Hub where
  policy : Policy
  table : Peers := .empty
  boxes : List Mailbox := []
  counters : Counters := {}
  stopping : Bool := false

/-- A registration that came about, and the connection that had to give way. -/
structure Registered where
  conn : ConnId
  evicted : Option ConnId
  deriving DecidableEq, Repr

/-- Why a frame found no connection. -/
inductive Absence where
  | nobody
  | closing
  deriving DecidableEq, Repr

/-- What became of a valid frame. -/
inductive Outcome where
  | forwarded (dest : PeerId)
  | unroutable (dest : PeerId) (why : Absence)
  | dropped (dest : PeerId)
  deriving DecidableEq, Repr

namespace Hub

/-! ## Parts -/

/-- A hub that nobody has come to. -/
def new (p : Policy) : Hub := { policy := p }

def tally (h : Hub) (t : Tally) : Hub := { h with counters := h.counters.count t }

def box? (h : Hub) (c : ConnId) : Option Mailbox := h.boxes[c]?

def updateBox (h : Hub) (c : ConnId) (f : Mailbox → Mailbox) : Hub :=
  { h with boxes := h.boxes.modify c f }

/-- The number that the next connection gets. -/
def fresh (h : Hub) : ConnId := h.boxes.length

/-- Sets up a mailbox for a new connection, which is `h.fresh`. -/
def openBox (h : Hub) (p : PeerId) (capacity : Nat) : Hub :=
  { h with boxes := h.boxes ++ [.new p capacity] }

def requestClose (h : Hub) (c : ConnId) : Hub := h.updateBox c Mailbox.close

def isClosing (h : Hub) (c : ConnId) : Bool := (h.box? c).any (·.closing)

/-- Puts a frame into the mailbox of a connection. -/
def deliver (h : Hub) (c : ConnId) (f : Frame) : Hub × Except Refusal Unit :=
  match h.box? c with
  | none => (h, .error .closed)
  | some m =>
    match m.offer f with
    | .ok m' => (h.updateBox c fun _ => m', .ok ())
    | .error r => (h, .error r)

/-- Takes frames out of the mailbox of a connection. -/
def receive (h : Hub) (c : ConnId) (most : Option Nat) : List Frame × Hub :=
  match h.box? c with
  | none => ([], h)
  | some m => ((m.take most).1, h.updateBox c fun _ => (m.take most).2)

/-! ## The table -/

def lookup (h : Hub) (p : PeerId) : Option ConnId := h.table.find? p

def isCurrent (h : Hub) (p : PeerId) (c : ConnId) : Bool := h.lookup p == some c

/-- Enters a connection under `p`; the answer is the connection that was there. -/
def enter (h : Hub) (p : PeerId) (c : ConnId) : Hub × Except Taken (Option ConnId) :=
  match h.lookup p with
  | none => ({ h with table := h.table.insert p c }, .ok none)
  | some old =>
    match h.policy.duplicates with
    | .rejectNew => (h, .error ⟨p⟩)
    | .evictExisting =>
      ({ h with table := h.table.insert p c }.requestClose old, .ok (some old))

/-- Removes the entry of `p` if it is the given connection's. -/
def leave (h : Hub) (p : PeerId) (c : ConnId) : Hub :=
  if h.isCurrent p c then { h with table := h.table.erase p } else h

/-- Removes the entry of `p`, whosever it is. -/
def unregister (h : Hub) (p : PeerId) : Hub := { h with table := h.table.erase p }

/-! ## Registration -/

/-- Binds `p` to a new connection whose mailbox holds `capacity` frames. -/
def register (h : Hub) (p : PeerId) (capacity : Nat) : Hub × Except Taken Registered :=
  match (h.openBox p capacity).enter p h.fresh with
  | (h', .ok evicted) =>
    let h' := if evicted.isSome then h'.tally .eviction else h'
    (h'.tally .connection, .ok ⟨h.fresh, evicted⟩)
  | (_, .error t) => (h.tally .rejection, .error t)

/-- Ends the registration of a connection. -/
def release (h : Hub) (p : PeerId) (c : ConnId) : Hub := (h.leave p c).tally .disconnection

/-! ## Routing -/

/-- The envelope of a frame that the peer `bound` may send. -/
def accept (bound : PeerId) (f : Frame) : Except Violation Envelope :=
  match Envelope.ofFrame f with
  | .error v => .error v
  | .ok e =>
    match e.verify bound with
    | .error v => .error v
    | .ok () => .ok e

/-- Hands a frame over to the connection of `dest`. -/
def forward (h : Hub) (dest : PeerId) (f : Frame) : Hub × Outcome :=
  match h.lookup dest with
  | none => (h.tally .unroutable, .unroutable dest .nobody)
  | some c =>
    match h.deliver c f with
    | (h', .ok ()) => (h'.tally .forwarded, .forwarded dest)
    | (h', .error .full) => (h'.tally .dropped, .dropped dest)
    | (h', .error .closed) => (h'.tally .unroutable, .unroutable dest .closing)

/-- Routes a frame that came from the peer `bound`. -/
def route (h : Hub) (bound : PeerId) (f : Frame) : Hub × Except Violation Outcome :=
  let h := h.tally .received
  match accept bound f with
  | .error v => (h.tally .violation, .error v)
  | .ok e =>
    let (h', o) := h.forward e.recipient f
    (h', .ok o)

/-! ## Status -/

def online (h : Hub) : List PeerId := h.table.ids

/-- The identifiers in use, each in brackets. -/
def onlineText (h : Hub) : String :=
  String.join (h.online.map fun p => "[" ++ toString p ++ "]")

def healthy (h : Hub) : Bool := !h.stopping

def shutdown (h : Hub) : Hub := { h with stopping := true }

/-! ## Lemmas -/

theorem lookup_leave (h : Hub) (p j : PeerId) (c : ConnId) :
    (h.leave p c).lookup j = if j = p ∧ h.lookup p = some c then none else h.lookup j := by
  unfold leave isCurrent
  split
  · next hc =>
    simp only [beq_iff_eq] at hc
    simp [lookup, Peers.find?_erase] at hc ⊢
    by_cases hj : j = p <;> simp [hj, hc]
  · next hc =>
    simp only [beq_iff_eq] at hc
    simp [hc]

theorem lookup_unregister (h : Hub) (p j : PeerId) :
    (h.unregister p).lookup j = if j = p then none else h.lookup j := Peers.find?_erase _ _ _

end Hub

end Switchboard
