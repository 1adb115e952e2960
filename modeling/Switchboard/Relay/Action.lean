import Switchboard.Http.Target
import Switchboard.Relay.Clock

/-!
# What is done to a relay

Clients come, send, fall silent and go, requests are made, and time passes.  An action happens at
once; then all turns are taken, and the clock moves one step.

    run w (as ++ bs) = run (run w as) bs
    (w.connect d).answer = upgraded ↔ d.path leads to the socket of a peer, and d is not broken
-/

namespace Switchboard.Relay

/-- How a client connects: `silent` clients do not read, `broken` ones cannot be written to. -/
structure Dial where
  name : String
  address : String
  path : String
  silent : Bool := false
  broken : Bool := false
  room : Nat
  deriving Repr

inductive Action where
  | connect (d : Dial)
  | send (name : String) (f : Frame)
  | silence (name : String)
  | resume (name : String)
  | drop (name : String)
  | breakWrites (name : String)
  | wait (ms : Nat)
  | request (method target : String) (headers : List (String × String))
  | status
  | health
  | shutdown
  | startStatus
  | statusRunning
  | evict (p : PeerId)
  | unregister (p : PeerId)
  | interrupt
  deriving Repr

inductive Answer where
  | nothing
  | truth (b : Bool)
  | unknownName
  | upgraded
  | notUpgraded (a : Http.Answer)
  | noHandshake
  | answered (a : Http.Answer)
  | badRequest
  | text (s : String)
  | interrupted
  deriving Repr

/-- The world after an action, the answer, and what was reported. -/
structure Result where
  world : World
  answer : Answer
  events : List Event := []

namespace World

/-! ## Clients -/

def update (w : World) (name : String) (f : Link → Link) : World :=
  { w with links := w.links.map fun l => if l.name = name then f l else l }

/-- An action on a client, if there is one of that name. -/
def onClient (w : World) (name : String) (f : Link → Result) : Result :=
  match w.links.find? (·.name == name) with
  | some l => f l
  | none => { world := w, answer := .unknownName }

def leave (l : Link) : Link := { l with client := { l.client with present := false } }

/-- Makes room for a new client of a name: an older one goes. -/
def forget (w : World) (name : String) : World :=
  w.update name fun l => { leave l with name := "" }

/-- A client that has gone cannot send, and what comes too late is lost. -/
def send (w : World) (name : String) (f : Frame) : Result :=
  w.onClient name fun l =>
    { world := if l.client.present && l.isServed then
        w.update name fun l => l.hear (.frame f) else w
      answer := .truth l.client.present }

def setReading (w : World) (name : String) (reading : Bool) : Result :=
  w.onClient name fun l =>
    { world := if l.client.present then
        w.update name fun l => { l with client := { l.client with reading := reading } } else w
      answer := .truth l.client.present }

/-! ## Connecting -/

def linkOf (d : Dial) (p : PeerId) (conn : Option ConnId) (phase : Phase) : Link where
  name := d.name
  address := d.address
  peer := p
  conn := conn
  client := { reading := !d.silent }
  wire := { capacity := d.room }
  phase := phase

/-- Takes a socket for the peer `p` into service, or refuses it; or what is to serve it crashes. -/
def welcome (w : World) (d : Dial) (p : PeerId) : Happening :=
  let w := w.forget d.name
  if w.queueTooLong then
    ({ w with links := w.links ++ [linkOf d p none (.lost .connecting)] }, [])
  else
  let (hub, r) := w.hub.register p w.hub.policy.queueCapacity
  let told := Hub.registerEvents p r
  match r with
  | .error t =>
    let reason := CloseReason.rejected t
    let l := linkOf d p none (.closing reason (owedFor reason) (w.now + closeTimeout))
    ({ w with hub := hub, links := w.links ++ [l] },
      told ++ [Stage.connecting.moveEvent p .closing])
  | .ok done =>
    let l := linkOf d p (some done.conn) (.serving .idle)
    let l := { l with deadline := w.now + w.idleLimit, nextPing := w.now + w.pingPeriod }
    let events := told ++ [Stage.connecting.moveEvent p .established, l.welcomeEvent done.conn]
    if w.idleTooLong then
      ({ w with
        hub := (hub.leave p done.conn).updateBox done.conn Mailbox.discard
        links := w.links ++ [{ l with phase := .lost .established }] }, events)
    else ({ w with hub := hub, links := w.links ++ [l] }, events)

def connect (w : World) (d : Dial) : Result :=
  match Http.pathOf ("ws://relay" ++ d.path) with
  | none => { world := w, answer := .noHandshake }
  | some path =>
    let refuse (r : Http.Answer × List Event) : Result :=
      { world := w, answer := if d.broken then .noHandshake else .notUpgraded r.1, events := r.2 }
    match Http.Route.ofPath path with
    | .socket segment =>
      match Http.peerOf segment with
      | .error a => refuse (a, [])
      | .ok p =>
        let asked := Link.upgradeEvent p d.address
        if d.broken then
          { world := w, answer := .noHandshake, events := [asked, Link.noUpgradeEvent p d.address] }
        else
          let (w', es) := w.welcome d p
          { world := w', answer := .upgraded, events := asked :: es }
    | _ => refuse (Http.answer w.hub w.site { method := "GET", path := path })

/-! ## Actions -/

def request (w : World) (method target : String) (headers : List (String × String)) : Result :=
  match Http.Request.of? method target headers with
  | none => { world := w, answer := .badRequest }
  | some r =>
    let (a, es) := Http.answer w.hub w.site r
    { world := w, answer := .answered a, events := es }

/-- What an action changes at once. -/
def act (w : World) (a : Action) : Result :=
  match a with
  | .connect d => w.connect d
  | .send name f => w.send name f
  | .silence name => w.setReading name false
  | .resume name => w.setReading name true
  | .drop name => w.onClient name fun _ => { world := w.update name leave, answer := .nothing }
  | .breakWrites name =>
    w.onClient name fun _ =>
      { world := w.update name fun l => { l with wire := { l.wire with broken := true } }
        answer := .nothing }
  | .wait _ => { world := w, answer := .nothing }
  | .request method target headers => w.request method target headers
  | .status => { world := w, answer := .text w.hub.onlineText, events := [w.hub.statusEvent] }
  | .health => { world := w, answer := .truth w.hub.healthy }
  | .shutdown => { world := { w with hub := w.hub.shutdown }, answer := .nothing }
  | .startStatus =>
    let (w', es) := reports { w with reporters := w.reporters ++ [⟨w.now, true⟩] }
    { world := w', answer := .nothing, events := es }
  | .statusRunning =>
    { world := w
      answer := match w.reporters.getLast? with
        | some r => .truth r.running
        | none => .nothing }
  | .evict p =>
    match w.hub.lookup p with
    | some c => { world := { w with hub := w.hub.requestClose c }, answer := .truth true }
    | none => { world := w, answer := .truth false }
  | .unregister p =>
    { world := { w with hub := w.hub.unregister p }, answer := .truth (w.hub.lookup p).isSome }
  | .interrupt =>
    { world := { w with hub := w.hub.shutdown }
      answer := .interrupted
      events := [⟨.info, "Interrupt received, shutting down", []⟩] }

/-- How long an action takes. -/
def duration : Action → Nat
  | .wait ms => ms
  | _ => 0

/-- The shortest time there is. -/
def tick : Nat := 1

/-- An action, all that comes of it, and one step of the clock. -/
def step (w : World) (a : Action) : Result :=
  let r := w.act a
  let (w', es) := andThen (andThen (r.world, r.events) settle) fun w =>
    andThen (w.advance (w.now + duration a)) fun w => w.advance (w.now + tick)
  { world := w', answer := r.answer, events := es }

/-- A world that has just begun, at the time `t`. -/
def start (p : Policy) (site : Http.Site) (t : Nat := 0) : World :=
  { hub := .new p, site := site, now := t }

def run (w : World) (as : List Action) : World := as.foldl (fun w a => (w.step a).world) w

/-- Takes what the clients have received. -/
def collect (w : World) : List (String × List Item) × World :=
  ((w.links.map fun l => (l.name, l.client.inbox)).filter fun r => !r.2.isEmpty,
    { w with links := w.links.map fun l => { l with client := { l.client with inbox := [] } } })

/-! ## Lemmas -/

end World

end Switchboard.Relay
