import Switchboard.Hub.Report
import Switchboard.Stage

/-!
# Sessions

A hub worked by hand: connections are kept under names, each with its identifier and maybe a guard
that holds its entry in the table, and steps are taken one after the other.

    run s (xs ++ ys) = run (run s xs) ys
-/

namespace Switchboard.Session

/-- A connection as a session keeps it. -/
structure Record where
  name : String
  peer : PeerId
  conn : ConnId
  guarded : Bool
  deriving DecidableEq, Repr

structure State where
  hub : Hub
  records : List Record := []

inductive Step where
  | register (name : String) (peer : PeerId) (capacity : Option Nat)
  | handle (name : String) (peer : PeerId) (capacity : Option Nat)
  | route (bound : PeerId) (frame : Frame)
  | status
  | health
  | shutdown
  | policy
  | count
  | contains (peer : PeerId)
  | lookup (peer : PeerId)
  | unregister (peer : PeerId)
  | insert (name : String)
  | acquire (name : String)
  | unregisterConnection (name : String) (peer : Option PeerId)
  | isCurrent (name : String) (peer : Option PeerId)
  | guardIsCurrent (name : String)
  | cancelled (name : String)
  | requestClose (name : String)
  | deliver (name : String) (frame : Frame)
  | receive (name : String) (most : Option Nat)
  | closeReceiver (name : String)
  | dropReceiver (name : String)
  | release (name : String) (reason : CloseReason)
  | dropGuard (name : String)
  deriving Repr

inductive Answer where
  | done
  | truth (b : Bool)
  | nothing
  | unknownName
  | noGuard
  | taken (t : Taken)
  | evicted (name : Option String)
  | found (name : String) (peer : PeerId) (closing : Bool)
  | removed (name : String)
  | routed (o : Outcome)
  | violated (v : Violation)
  | refused (peer : PeerId) (r : Refusal)
  | frames (fs : List Frame)
  | online (peers : List PeerId) (text : String)
  | policy (p : DuplicatePolicy)
  | size (n : Nat)
  deriving Repr

/-- The state after a step, the answer, and what was reported. -/
structure Result where
  state : State
  answer : Answer
  events : List Event := []

namespace State

/-! ## Records -/

def find? (s : State) (name : String) : Option Record := s.records.find? (·.name == name)

def nameOf (s : State) (c : ConnId) : String :=
  ((s.records.find? (·.conn == c)).map (·.name)).getD ""

def update (s : State) (name : String) (f : Record → Record) : State :=
  { s with records := s.records.map fun r => if r.name = name then f r else r }

/-- The end of a guard removes the entry it holds, if that is still the connection's. -/
def endGuard (s : State) (r : Record) : State :=
  if r.guarded then { s with hub := s.hub.leave r.peer r.conn } else s

/-- Keeps a record; one of the same name loses its guard and its reading end. -/
def keep (s : State) (r : Record) : State :=
  match s.find? r.name with
  | none => { s with records := s.records ++ [r] }
  | some old =>
    let s := s.endGuard old
    { s with
      hub := s.hub.updateBox old.conn Mailbox.discard
      records := s.records.map fun q => if q.name = r.name then r else q }

end State

/-! ## Steps -/

def capacityOr (s : State) (capacity : Option Nat) : Nat :=
  capacity.getD s.hub.policy.queueCapacity

/-- A question that changes nothing. -/
def tell (s : State) (a : Answer) : Result := { state := s, answer := a }

def register (s : State) (name : String) (p : PeerId) (capacity : Option Nat) : Result :=
  let (hub, r) := s.hub.register p (capacityOr s capacity)
  let s' := { s with hub := hub }
  match r with
  | .ok done =>
    { state := s'.keep ⟨name, p, done.conn, true⟩
      answer := .done
      events := Hub.registerEvents p r }
  | .error t => { state := s', answer := .taken t, events := Hub.registerEvents p r }

/-- A connection that is not entered anywhere. -/
def handle (s : State) (name : String) (p : PeerId) (capacity : Option Nat) : Result :=
  let s' := { s with hub := s.hub.openBox p (capacityOr s capacity) }
  tell (s'.keep ⟨name, p, s.hub.fresh, false⟩) .done

def route (s : State) (bound : PeerId) (f : Frame) : Result :=
  let (hub, r) := s.hub.route bound f
  let answer := match r with
    | .ok o => Answer.routed o
    | .error v => .violated v
  { state := { s with hub := hub }, answer := answer, events := s.hub.routeEvents bound r }

def lookup (s : State) (p : PeerId) : Answer :=
  match s.hub.lookup p with
  | none => .nothing
  | some c => .found (s.nameOf c) p (s.hub.isClosing c)

def unregister (s : State) (p : PeerId) : Result :=
  match s.hub.lookup p with
  | none => tell s .nothing
  | some c => tell { s with hub := s.hub.unregister p } (.removed (s.nameOf c))

/-- Enters the connection of a record, with a guard for it or without. -/
def enter (s : State) (r : Record) (guarded : Bool) : Result :=
  match s.hub.enter r.peer r.conn with
  | (_, .error t) => tell s (.taken t)
  | (hub, .ok evicted) =>
    let s' := { s with hub := hub }
    let answer := Answer.evicted (evicted.map s.nameOf)
    if guarded then tell ((s'.endGuard r).update r.name fun q => { q with guarded := true }) answer
    else tell s' answer

def deliver (s : State) (r : Record) (f : Frame) : Result :=
  match s.hub.deliver r.conn f with
  | (hub, .ok ()) => tell { s with hub := hub } .done
  | (_, .error e) => tell s (.refused r.peer e)

def release (s : State) (r : Record) (reason : CloseReason) : Result :=
  if r.guarded then
    { state := { s with hub := s.hub.release r.peer r.conn }.update r.name
        fun q => { q with guarded := false }
      answer := .done
      events := [Hub.releaseEvent r.peer r.conn reason] }
  else tell s .noGuard

/-- A step on the record `r`. -/
def onRecord (s : State) (r : Record) : Step → Result
  | .insert _ => enter s r false
  | .acquire _ => enter s r true
  | .unregisterConnection _ p =>
    let p := p.getD r.peer
    tell { s with hub := s.hub.leave p r.conn } (.truth (s.hub.isCurrent p r.conn))
  | .isCurrent _ p => tell s (.truth (s.hub.isCurrent (p.getD r.peer) r.conn))
  | .guardIsCurrent _ =>
    tell s (if r.guarded then .truth (s.hub.isCurrent r.peer r.conn) else .nothing)
  | .cancelled _ => tell s (.truth (s.hub.isClosing r.conn))
  | .requestClose _ => tell { s with hub := s.hub.requestClose r.conn } (.truth true)
  | .deliver _ f => deliver s r f
  | .receive _ most =>
    let (fs, hub) := s.hub.receive r.conn most
    tell { s with hub := hub } (.frames fs)
  | .closeReceiver _ => tell { s with hub := s.hub.updateBox r.conn Mailbox.shut } .done
  | .dropReceiver _ => tell { s with hub := s.hub.updateBox r.conn Mailbox.discard } .done
  | .release _ reason => release s r reason
  | .dropGuard _ =>
    tell ((s.endGuard r).update r.name fun q => { q with guarded := false }) (.truth r.guarded)
  | _ => tell s .unknownName

/-- The record that a step works on, if it works on one. -/
def Step.subject : Step → Option String
  | .insert n | .acquire n | .unregisterConnection n _ | .isCurrent n _ | .guardIsCurrent n
  | .cancelled n | .requestClose n | .deliver n _ | .receive n _ | .closeReceiver n
  | .dropReceiver n | .release n _ | .dropGuard n => some n
  | _ => none

def step (s : State) (st : Step) : Result :=
  match st with
  | .register name p capacity => register s name p capacity
  | .handle name p capacity => handle s name p capacity
  | .route bound f => route s bound f
  | .status =>
    { state := s, answer := .online s.hub.online s.hub.onlineText, events := [s.hub.statusEvent] }
  | .health => tell s (.truth s.hub.healthy)
  | .shutdown => tell { s with hub := s.hub.shutdown } (.truth true)
  | .policy => tell s (.policy s.hub.policy.duplicates)
  | .count => tell s (.size s.hub.table.size)
  | .contains p => tell s (.truth (s.hub.table.contains p))
  | .lookup p => tell s (lookup s p)
  | .unregister p => unregister s p
  | st =>
    match st.subject.bind s.find? with
    | some r => onRecord s r st
    | none => tell s .unknownName

/-- A session that has just begun. -/
def start (p : Policy) : State := { hub := .new p }

def run (s : State) (steps : List Step) : State := steps.foldl (fun s st => (step s st).state) s

/-! ## Lemmas -/

theorem find?_start (p : Policy) (name : String) : (start p).find? name = none := rfl

end Switchboard.Session
