import Switchboard.Event
import Switchboard.Hub.Basic

/-!
# What the hub reports

The events that go with the operations of the hub, from their arguments and answers.
-/

namespace Switchboard.Hub

def connectionField (name : String) (c : ConnId) : String × String := (name, toString c)

def registerEvents (p : PeerId) : Except Taken Registered → List Event
  | .ok r =>
    (match r.evicted with
      | some old => [⟨.info, "Existing connection superseded by new connection",
          [Event.peer p, connectionField "evicted_connection" old]⟩]
      | none => []) ++
    [⟨.info, "Peer registered", [Event.peer p, connectionField "connection_id" r.conn]⟩]
  | .error t =>
    [⟨.warn, "Peer registration rejected", [Event.peer p, Event.failure t.message]⟩]

def releaseEvent (p : PeerId) (c : ConnId) (r : CloseReason) : Event :=
  ⟨.info, "Peer unregistered",
    [Event.peer p, connectionField "connection_id" c, ("reason", r.message)]⟩

/-- Nothing is reported of a violation here; it ends the connection and is reported with that. -/
def routeEvents (h : Hub) (bound : PeerId) : Except Violation Outcome → List Event
  | .error _ => []
  | .ok (.forwarded dest) => [⟨.trace, "Relayed frame", ends dest⟩]
  | .ok (.unroutable dest .nobody) =>
    [⟨.info, "Destination peer not found, dropping message", ends dest⟩]
  | .ok (.unroutable dest .closing) =>
    [⟨.debug, "Destination is closing, dropping message", ends dest⟩]
  | .ok (.dropped dest) =>
    [⟨.warn, "Destination outbound queue full, dropping message",
      ends dest ++ [("capacity", toString h.policy.queueCapacity)]⟩]
where
  ends (dest : PeerId) : List (String × String) := [("from", toString bound), ("to", toString dest)]

def statusEvent (h : Hub) : Event :=
  ⟨.info, "Relay status",
    [("online", toString h.table.size), ("peers", h.onlineText)]⟩

end Switchboard.Hub
