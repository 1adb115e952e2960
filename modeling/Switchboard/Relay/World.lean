import Switchboard.Http.Routes
import Switchboard.Relay.Link

/-!
# The running relay

A hub, the links it serves and a clock.  All that happens is a turn of one link: one hand reads
or writes, the end of a closing link moves on, or the client takes what has come.  The turns are
small and may come in any order; each of them is there only when it has something to do.

    a link that is told to close reads no further frame
    the entry in the table is gone before the close frame is handed over
    a link crashes if it reads a frame when no clock can measure the silence that may follow
-/

namespace Switchboard.Relay

/-- The periodic report on who is online. -/
structure Reporter where
  next : Nat
  running : Bool
  deriving Repr

/-- `site` is what is served besides the relay's own routes, and `now` what the clock shows. -/
structure World where
  hub : Hub
  site : Http.Site := none
  now : Nat := 0
  links : List Link := []
  reporters : List Reporter := []

inductive Turn where
  | read
  | write
  | close
  | receive
  deriving DecidableEq, Repr

/-- How long a closing link is waited for. -/
def closeTimeout : Nat := 5000

/-- How late a ping may be without moving those after it. -/
def lateness : Nat := 5

/-- A world after something has happened, and what was reported. -/
abbrev Happening := World × List Event

namespace World

/-! ## Parts -/

def idleLimit (w : World) : Nat := (w.hub.policy.pingInterval + w.hub.policy.pingTimeout) * 1000

def pingPeriod (w : World) : Nat := w.hub.policy.pingInterval * 1000

/-- No clock can measure the silence that a client may keep from now on: seconds are counted in 64
bits with a sign. -/
def idleTooLong (w : World) : Bool :=
  Bounds.half64 ≤ w.now / 1000 + (w.hub.policy.pingInterval + w.hub.policy.pingTimeout)

/-- A queue is too long to be set up. -/
def queueTooLong (w : World) : Bool := Bounds.eighth64 ≤ w.hub.policy.queueCapacity

def setLink (w : World) (i : Nat) (l : Link) : World := { w with links := w.links.set i l }

/-! ## Taking a link down -/

/-- Ends the service of a link: its entry goes, its signal is raised, and `owed` is what the client
is still to get. -/
def finish (w : World) (i : Nat) (l : Link) (reason : CloseReason) (owed : Option Frame) :
    Happening :=
  match l.conn with
  | none => (w, [])
  | some c =>
    let hub := (w.hub.release l.peer c).requestClose c
    let closing := Phase.closing reason owed (w.now + closeTimeout)
    ({ w with hub := hub }.setLink i { l with phase := closing },
      [l.stage.moveEvent l.peer .closing, Hub.releaseEvent l.peer c reason])

/-- The close frame that goes with a reason. -/
def owedFor (reason : CloseReason) : Option Frame :=
  match reason.closeFrame with
  | some f => some (.close (some f))
  | none => some (.close none)

/-- The link has closed, one way or the other. -/
def complete (w : World) (i : Nat) (l : Link) (reason : CloseReason) (before : List Event) :
    Happening :=
  let hub := match l.conn with
    | some c => w.hub.updateBox c Mailbox.discard
    | none => w.hub
  ({ w with hub := hub }.setLink i { l with phase := .gone, wire := l.wire.cut },
    before ++ [l.stage.moveEvent l.peer .closed, l.finalEvent reason])

/-- The service of a link breaks off: its entry goes and nobody is told.  What waits for the client is
still handed over, or fails as a whole. -/
def crash (w : World) (i : Nat) (l : Link) (c : ConnId) : Happening :=
  let fs := (w.hub.receive c none).1
  ({ w with hub := (w.hub.leave l.peer c).updateBox c Mailbox.discard }.setLink i
    { l with phase := .lost l.stage, wire := l.leftover fs },
    if l.failsOn fs then [l.writeEvent] else [])

/-! ## Turns -/

/-- Gives a link up because its transport failed. -/
def fail (w : World) (i : Nat) (l : Link) (detail : String) (owed : Option Frame) : Happening :=
  let (w', es) := w.finish i l (.transport detail) owed
  (w', l.transportEvent detail :: es)

/-- Reads a frame that the transport has let through. -/
def take (w : World) (i : Nat) (l : Link) (f : Frame) : Happening :=
  match f with
  | .close c => w.finish i l .clientClosed (some (Link.echo c))
  | .pong _ => (w.setLink i l, [])
  | .ping b =>
    match l.wire.send? (.pong b) with
    | some wire => (w.setLink i { l with wire := wire }, [])
    | none => w.fail i l Link.brokenText (some (.close none))
  | f =>
    let (hub, r) := w.hub.route l.peer f
    let events := w.hub.routeEvents l.peer r
    match r with
    | .ok _ => ({ w with hub := hub }.setLink i l, events)
    | .error v =>
      let (w', es) := { w with hub := hub }.finish i l (.violation v) (owedFor (.violation v))
      (w', l.violationEvent v :: es)

/-- The reading hand: the close signal comes first, then the silence, then the client. -/
def read (w : World) (i : Nat) (l : Link) : Option Happening :=
  match l.phase, l.conn with
  | .serving _, some c =>
    if w.hub.isClosing c then
      let reason := if w.hub.isCurrent l.peer c then .outboundFailed else .superseded
      some (w.finish i l reason (owedFor reason))
    else if l.deadline ≤ w.now then
      let (w', es) := w.finish i l .timeout (owedFor .timeout)
      some (w', l.idleEvent w.idleLimit :: es)
    else
      match l.inbound with
      | .finished :: rest => some (w.finish i { l with inbound := rest } .disconnected none)
      | .fault detail :: rest =>
        some (w.fail i { l with inbound := rest } detail (some (.close none)))
      | .frame f :: rest =>
        let l := { l with inbound := rest }
        match Link.transportFault? w.hub.policy.maxMessageSize f with
        | some detail => some (w.fail i l detail (some (.close none)))
        | none =>
          if w.idleTooLong then some (w.crash i l c)
          else some (w.take i { l with deadline := w.now + w.idleLimit } f)
      | [] => if l.client.present then none else some (w.fail i l Link.resetText none)
  | _, _ => none

/-- Hands a frame to the transport, or gives the link up. -/
def hand (w : World) (i : Nat) (l : Link) (c : ConnId) (f : Frame) : Happening :=
  match if l.isMute then none else l.wire.send? f with
  | some wire =>
    (w.setLink i { l with
      wire := wire
      phase := .serving (if wire.isClear then .idle else .sending) }, [])
  | none =>
    ({ w with hub := w.hub.requestClose c }.setLink i { l with phase := .serving .stopped },
      [l.writeEvent])

/-- The writing hand: waiting frames in their order, and a ping when one is due. -/
def write (w : World) (i : Nat) (l : Link) : Option Happening :=
  match l.phase, l.conn with
  | .serving writer, some c =>
    if w.hub.isClosing c then none
    else
      match writer with
      | .stopped => none
      | .sending =>
        if l.wire.isClear then some (w.setLink i { l with phase := .serving .idle }, [])
        else if l.isMute && (l.wire.hasRoom || !l.client.present) then
          some ({ w with hub := w.hub.requestClose c }.setLink i
            { l with phase := .serving .stopped }, [l.writeEvent])
        else none
      | .idle =>
        match w.hub.receive c (some 1) with
        | (f :: _, hub) => some ({ w with hub := hub }.hand i l c f)
        | ([], _) =>
          if l.nextPing ≤ w.now then
            let next :=
              if l.nextPing + lateness < w.now then w.now + w.pingPeriod
              else l.nextPing + w.pingPeriod
            let (w', es) := w.hand i { l with nextPing := next } c (.ping [])
            some (w', l.pingEvent :: es)
          else none
  | _, _ => none

/-- The end of a closing link: what is owed goes out behind what is under way, as long as it can and
the time for it has not run out. -/
def close (w : World) (i : Nat) (l : Link) : Option Happening :=
  match l.phase with
  | .closing reason owed giveUp =>
    let unsaid := if reason.closeFrame.isSome then [l.closeFrameEvent] else []
    if l.isMute && !l.wire.isClear && (l.wire.hasRoom || !l.client.present) then
      some (w.complete i l reason unsaid)
    else if l.wire.isClear then
      match owed with
      | none => some (w.complete i l reason [])
      | some f =>
        match if l.isMute then none else l.wire.send? f with
        | some wire =>
          some (w.setLink i { l with wire := wire, phase := .closing reason none giveUp }, [])
        | none => some (w.complete i l reason unsaid)
    else if giveUp ≤ w.now then some (w.complete i l reason [l.giveUpEvent])
    else none
  | _ => none

/-- The answers of a client to what it got. -/
def answers (fs : List Frame) : List Arrival :=
  fs.filterMap fun f =>
    match f with
    | .ping b => some (.frame (.pong b))
    | _ => none

/-- The client reads on, answers pings, and notices when the relay's end is gone. -/
def receive (w : World) (i : Nat) (l : Link) : Option Happening :=
  if !l.client.present || !l.client.reading || l.client.ended then none
  else if !l.wire.frames.isEmpty && l.wire.used ≠ 0 then
    let (fs, wire) := l.wire.drain
    some (w.setLink i { l with
      wire := wire
      inbound := l.inbound ++ answers fs
      client := { l.client with inbox := l.client.inbox ++ fs.map Item.frame } }, [])
  else if l.phase.isOver then
    some (w.setLink i { l with
      client := { l.client with ended := true, inbox := l.client.inbox ++ [.ending] } }, [])
  else none

/-- One turn of one link; none if there is nothing to do. -/
def turn (w : World) (i : Nat) (t : Turn) : Option Happening :=
  match w.links[i]? with
  | none => none
  | some l =>
    match t with
    | .read => w.read i l
    | .write => w.write i l
    | .close => w.close i l
    | .receive => w.receive i l

end World

end Switchboard.Relay
