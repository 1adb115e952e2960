import Switchboard.Relay.World

/-!
# Time

Between two instants nothing is left undone: turns are taken until there is none left, and only then
the clock moves on, to the next moment that somebody waits for.

    firstTurn w = none → settle w = (w, [])
    nextTimer? w t = some x → w.now < x and x ≤ t
-/

namespace Switchboard.Relay.World

/-! ## Turns until there are none -/

def turns : List Turn := [.read, .write, .close, .receive]

/-- The first turn there is: links in the order they came, and reading before all else. -/
def firstTurn (w : World) : Option Happening :=
  (List.range w.links.length).findSome? fun i => turns.findSome? fun t => w.turn i t

def settleWithin : Nat → World → Happening
  | 0, w => (w, [])
  | n + 1, w =>
    match w.firstTurn with
    | none => (w, [])
    | some (w', es) =>
      let (w'', more) := settleWithin n w'
      (w'', es ++ more)

/-- What comes from a client may still bring something about; a pong brings about nothing. -/
def inboundLoad : Arrival → Nat
  | .frame (.pong _) => 1
  | _ => 8

def phaseLoad : Phase → Nat
  | .serving .sending => 11
  | .serving _ => 10
  | .closing _ (some _) _ => 6
  | .closing _ none _ => 2
  | .gone | .lost _ => 1

def total (ns : List Nat) : Nat := ns.foldr (· + ·) 0

/-- A bound on the turns that a link alone can still take. -/
def linkLoad (now : Nat) (l : Link) : Nat :=
  total (l.inbound.map inboundLoad) + 3 * l.wire.frames.length + phaseLoad l.phase +
    (if l.client.ended then 0 else 1) + (if l.nextPing ≤ now then 5 else 0)

/-- A bound on the turns that are left: each of them takes something off. -/
def load (w : World) : Nat :=
  total (w.links.map (linkLoad w.now)) + total (w.hub.boxes.map fun m => 5 * m.frames.length)

/-- Takes turns until there is none left. -/
def settle (w : World) : Happening := settleWithin w.load w

/-! ## Timers -/

/-- The moments that a link waits for. -/
def linkTimers (l : Link) : List Nat :=
  match l.phase with
  | .serving .idle => [l.deadline, l.nextPing]
  | .serving _ => [l.deadline]
  | .closing _ _ giveUp => [giveUp]
  | .gone | .lost _ => []

def timers (w : World) : List Nat :=
  w.links.flatMap linkTimers ++ (w.reporters.filter (·.running)).map (·.next)

/-- The next timer after now and up to `t`. -/
def nextTimer? (w : World) (t : Nat) : Option Nat :=
  (w.timers.filter fun x => w.now < x && x ≤ t).min?

def reportPeriod (w : World) : Nat := w.hub.policy.statusInterval * 1000

/-- A report that is due: who is online, or that the reporter stops. -/
def report (w : World) (r : Reporter) : Reporter × List Event :=
  if !r.running || w.now < r.next then (r, [])
  else if w.hub.stopping then
    ({ r with running := false }, [⟨.info, "Status reporter stopping", []⟩])
  else ({ r with next := r.next + w.reportPeriod }, [w.hub.statusEvent])

/-- All reports that are due. -/
def reports (w : World) : Happening :=
  let rs := w.reporters.map w.report
  ({ w with reporters := rs.map (·.1) }, rs.flatMap (·.2))

/-- One after the other; what was reported is kept in order. -/
def andThen (a : Happening) (f : World → Happening) : Happening :=
  let (w, es) := f a.1
  (w, a.2 ++ es)

def advanceWithin : Nat → World → Nat → Happening
  | 0, w, t => ({ w with now := t }, [])
  | n + 1, w, t =>
    match w.nextTimer? t with
    | none => ({ w with now := t }, [])
    | some x =>
      andThen (andThen (reports { w with now := x }) settle) fun w' => advanceWithin n w' t

/-- Lets time pass until `t`; timers lie at least one step of the clock apart. -/
def advance (w : World) (t : Nat) : Happening := advanceWithin (t - w.now) w t

/-! ## Lemmas -/

theorem settle_of_firstTurn {w : World} (h : w.firstTurn = none) : w.settle = (w, []) := by
  unfold settle
  cases w.load with
  | zero => rfl
  | succ n => simp [settleWithin, h]

theorem firstTurn_eq_none_iff (w : World) :
    w.firstTurn = none ↔ ∀ i < w.links.length, ∀ t, w.turn i t = none := by
  simp only [firstTurn, turns, List.findSome?_eq_none_iff, List.mem_range]
  constructor
  · intro h i hi t
    exact h i hi t (by cases t <;> simp)
  · intro h i hi t _
    exact h i hi t

theorem nextTimer?_bounds {w : World} {t x : Nat} (h : w.nextTimer? t = some x) :
    w.now < x ∧ x ≤ t := by
  have hx := List.min?_mem h
  simpa using (List.mem_filter.1 hx).2

end Switchboard.Relay.World
