import Switchboard.Proofs.Hub.Flag
import Switchboard.Proofs.Relay.Lockstep
import Switchboard.Relay.Clock

/-!
# Links that serve on

No link looks at the stop flag, or at the reporters.  With a hub that has the flag the other way, and
with other reporters, it takes the same turns.

    (w.flagged b rs).turn i t = (w.turn i t).map (·.flagged b rs)
    (w.flagged b rs).settle = w.settle.flagged b rs
-/

namespace Switchboard.Relay

/-- The world with the stop flag and the reporters as given. -/
def World.flagged (w : World) (b : Bool) (rs : List Reporter) : World :=
  { w with hub := w.hub.flagged b, reporters := rs }

def Happening.flagged (r : Happening) (b : Bool) (rs : List Reporter) : Happening :=
  (r.1.flagged b rs, r.2)

namespace World

variable (w : World) (b : Bool) (rs : List Reporter) (i : Nat) (l : Link)

/-! ## The ends of a service -/

theorem finish_flagged (reason : CloseReason) (owed : Option Frame) :
    (w.flagged b rs).finish i l reason owed = (w.finish i l reason owed).flagged b rs := by
  unfold finish
  cases l.conn with
  | none => rfl
  | some c =>
    have hrelease := w.hub.release_flagged b l.peer c
    show ({ w.flagged b rs with
      hub := ((w.hub.flagged b).release l.peer c).requestClose c }.setLink i _, _) = _
    rw [hrelease]
    rfl

theorem fail_flagged (detail : String) (owed : Option Frame) :
    (w.flagged b rs).fail i l detail owed = (w.fail i l detail owed).flagged b rs := by
  unfold fail
  rw [finish_flagged]
  rfl

theorem complete_flagged (reason : CloseReason) (before : List Event) :
    (w.flagged b rs).complete i l reason before = (w.complete i l reason before).flagged b rs := by
  unfold complete
  cases l.conn <;> rfl

theorem crash_flagged (c : ConnId) :
    (w.flagged b rs).crash i l c = (w.crash i l c).flagged b rs := by
  have hleave : (w.flagged b rs).hub.leave l.peer c = _ := w.hub.leave_flagged b l.peer c
  have hreceive : (w.flagged b rs).hub.receive c none = _ := w.hub.receive_flagged b c none
  unfold crash
  rw [hleave, hreceive]
  rfl

theorem take_flagged (f : Frame) :
    (w.flagged b rs).take i l f = (w.take i l f).flagged b rs := by
  have hroute : (w.flagged b rs).hub.route l.peer f = _ := w.hub.route_flagged b l.peer f
  cases f with
  | close c => exact w.finish_flagged b rs i l _ _
  | pong _ => rfl
  | ping _ =>
    unfold take
    dsimp only
    split
    · rfl
    · exact w.fail_flagged b rs i l _ _
  | text | binary =>
    unfold take
    dsimp only
    rw [hroute]
    dsimp only
    split
    · rfl
    · next v _ =>
      exact congrArg (fun r : Happening => (r.1, l.violationEvent v :: r.2))
        (({ w with hub := _ } : World).finish_flagged b rs i l _ _)

/-! ## The four kinds of turns -/

theorem read_flagged : (w.flagged b rs).read i l = (w.read i l).map (·.flagged b rs) := by
  cases hp : l.phase with
  | closing | gone | lost => simp only [read, hp, Option.map_none]
  | serving writer =>
    cases hc : l.conn with
    | none => simp only [read, hp, hc, Option.map_none]
    | some d =>
      have hclosing : (w.flagged b rs).hub.isClosing d = w.hub.isClosing d := rfl
      have hcurrent : (w.flagged b rs).hub.isCurrent l.peer d = w.hub.isCurrent l.peer d := rfl
      have hnow : (w.flagged b rs).now = w.now := rfl
      have hpolicy : (w.flagged b rs).hub.policy = w.hub.policy := rfl
      have hlimit : (w.flagged b rs).idleLimit = w.idleLimit := rfl
      have hlong : (w.flagged b rs).idleTooLong = w.idleTooLong := rfl
      have hawake : ∀ rest, (w.flagged b rs).awake l rest = w.awake l rest := fun _ => rfl
      rw [read_serving hp hc, read_serving hp hc]
      simp only [hclosing, hcurrent, hnow, hpolicy, hlimit, hlong, hawake, finish_flagged,
        fail_flagged, take_flagged, crash_flagged]
      split
      · rfl
      split
      · rfl
      split
      · rfl
      · rfl
      · split
        · rfl
        · split <;> rfl
      · split <;> rfl

theorem hand_flagged (c : ConnId) (f : Frame) :
    (w.flagged b rs).hand i l c f = (w.hand i l c f).flagged b rs := by
  unfold hand
  split <;> rfl

theorem write_flagged : (w.flagged b rs).write i l = (w.write i l).map (·.flagged b rs) := by
  cases hp : l.phase with
  | closing | gone | lost => simp only [write, hp, Option.map_none]
  | serving writer =>
    cases hc : l.conn with
    | none => simp only [write, hp, hc, Option.map_none]
    | some d =>
      have hclosing : (w.flagged b rs).hub.isClosing d = w.hub.isClosing d := rfl
      have hreceive : (w.flagged b rs).hub.receive d (some 1) = _ :=
        w.hub.receive_flagged b d (some 1)
      have hnow : (w.flagged b rs).now = w.now := rfl
      have hping : (w.flagged b rs).pingAfter l = w.pingAfter l := rfl
      rw [write_serving hp hc, write_serving hp hc]
      simp only [hclosing, hnow, hping, hand_flagged]
      split
      · rfl
      cases writer with
      | stopped => rfl
      | sending =>
        dsimp only
        split
        · rfl
        split <;> rfl
      | idle =>
        dsimp only
        rw [hreceive]
        rcases w.hub.receive d (some 1) with ⟨_ | ⟨f, fs⟩, h⟩
        · dsimp only
          split <;> rfl
        · exact congrArg some (({ w with hub := h } : World).hand_flagged b rs i l d f)

theorem close_flagged : (w.flagged b rs).close i l = (w.close i l).map (·.flagged b rs) := by
  have hnow : (w.flagged b rs).now = w.now := rfl
  unfold close
  split
  · simp only [hnow, complete_flagged]
    split
    · rfl
    split
    · split
      · rfl
      · split <;> rfl
    split <;> rfl
  · rfl

theorem receive_flagged :
    (w.flagged b rs).receive i l = (w.receive i l).map (·.flagged b rs) := by
  unfold receive
  split
  · rfl
  split
  · rfl
  split <;> rfl

theorem turn_flagged (t : Turn) :
    (w.flagged b rs).turn i t = (w.turn i t).map (·.flagged b rs) := by
  have hlinks : (w.flagged b rs).links = w.links := rfl
  unfold turn
  rw [hlinks]
  cases w.links[i]? with
  | none => rfl
  | some l =>
    cases t with
    | read => exact w.read_flagged b rs i l
    | write => exact w.write_flagged b rs i l
    | close => exact w.close_flagged b rs i l
    | receive => exact w.receive_flagged b rs i l

/-! ## Turns until there are none -/

theorem firstTurn_flagged : (w.flagged b rs).firstTurn = w.firstTurn.map (·.flagged b rs) := by
  have hlinks : (w.flagged b rs).links = w.links := rfl
  unfold firstTurn
  simp only [hlinks, turn_flagged, List.map_findSome?, Function.comp_def]

theorem settleWithin_flagged (n : Nat) :
    settleWithin n (w.flagged b rs) = (settleWithin n w).flagged b rs := by
  induction n generalizing w with
  | zero => rfl
  | succ n ih =>
    rw [settleWithin, settleWithin, firstTurn_flagged]
    cases w.firstTurn with
    | none => rfl
    | some r =>
      obtain ⟨w', es⟩ := r
      show ((settleWithin n (w'.flagged b rs)).1, es ++ (settleWithin n (w'.flagged b rs)).2) = _
      rw [ih]
      rfl

/-- **Links come to rest the same**, whether a shutdown was asked for or not. -/
theorem settle_flagged : (w.flagged b rs).settle = w.settle.flagged b rs :=
  w.settleWithin_flagged b rs w.load

end World

end Switchboard.Relay
