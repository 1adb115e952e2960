import Mathlib.Data.List.ReduceOption
import Switchboard.Proofs.Hub.Flag
import Switchboard.Proofs.Session.Accounts

/-!
# Sessions that are asked to stop

A session goes on as before once a shutdown was asked for: each step does the same and answers the
same, but for the question whether the relay is healthy.

    step (s.flagged b) st = (step s st).flagged b
    run s (shutdowns put into a run) = (run s the run).flagged (a shutdown was asked for)
-/

namespace Switchboard.Session

/-- The session with the stop flag as given. -/
def State.flagged (s : State) (b : Bool) : State := { s with hub := s.hub.flagged b }

def Result.flagged (r : Result) (b : Bool) : Result := { r with state := r.state.flagged b }

/-- Does the step ask for a shutdown? -/
def Step.stops : Step → Bool
  | .shutdown => true
  | _ => false

/-- The run with a shutdown wherever no step is given. -/
def shutdownsIn (ms : List (Option Step)) : List Step := ms.map (·.getD .shutdown)

variable (s : State) (b : Bool)

/-! ## Records -/

theorem find?_flagged (name : String) : (s.flagged b).find? name = s.find? name := rfl

theorem endGuard_flagged (r : Record) : (s.flagged b).endGuard r = (s.endGuard r).flagged b := by
  unfold State.endGuard
  split
  · exact congrArg (State.mk · s.records) (s.hub.leave_flagged b r.peer r.conn)
  · rfl

theorem keep_flagged (r : Record) : (s.flagged b).keep r = (s.keep r).flagged b := by
  unfold State.keep
  rw [find?_flagged]
  cases s.find? r.name with
  | none => rfl
  | some old => simp only [endGuard_flagged]; rfl

/-! ## Steps -/

theorem register_flagged (name : String) (p : PeerId) (capacity : Option Nat) :
    register (s.flagged b) name p capacity = (register s name p capacity).flagged b := by
  have hr : (s.flagged b).hub.register p (capacityOr (s.flagged b) capacity) = _ :=
    s.hub.register_flagged b p (capacityOr s capacity)
  unfold register
  rw [hr]
  rcases s.hub.register p (capacityOr s capacity) with ⟨h', t | done⟩
  · rfl
  · exact congrArg (Result.mk · .done _) (keep_flagged { s with hub := h' } b _)

theorem enter_flagged (r : Record) (guarded : Bool) :
    enter (s.flagged b) r guarded = (enter s r guarded).flagged b := by
  have he : (s.flagged b).hub.enter r.peer r.conn = _ := s.hub.enter_flagged b r.peer r.conn
  unfold enter
  rw [he]
  rcases s.hub.enter r.peer r.conn with ⟨h', t | evicted⟩
  · rfl
  · cases guarded with
    | false => rfl
    | true =>
      have hg := endGuard_flagged { s with hub := h' } b r
      exact congrArg (fun s' : State => tell (s'.update r.name fun q => { q with guarded := true })
        (.evicted (evicted.map s.nameOf))) hg

theorem deliver_flagged (r : Record) (f : Frame) :
    deliver (s.flagged b) r f = (deliver s r f).flagged b := by
  have hd : (s.flagged b).hub.deliver r.conn f = _ := s.hub.deliver_flagged b r.conn f
  unfold deliver
  rw [hd]
  rcases s.hub.deliver r.conn f with ⟨h', e | u⟩ <;> rfl

theorem release_flagged (r : Record) (reason : CloseReason) :
    release (s.flagged b) r reason = (release s r reason).flagged b := by
  unfold release
  split
  · exact congrArg (fun h => Result.mk (State.update { s with hub := h } r.name
      fun q => { q with guarded := false }) .done [Hub.releaseEvent r.peer r.conn reason])
      (s.hub.release_flagged b r.peer r.conn)
  · rfl

theorem onRecord_flagged (r : Record) (st : Step) :
    onRecord (s.flagged b) r st = (onRecord s r st).flagged b := by
  cases st with
  | release n reason => exact release_flagged s b r reason
  | insert n => exact enter_flagged s b r false
  | acquire n => exact enter_flagged s b r true
  | deliver n f => exact deliver_flagged s b r f
  | unregisterConnection n p =>
    exact congrArg (fun h => tell { s with hub := h } _)
      (s.hub.leave_flagged b (p.getD r.peer) r.conn)
  | receive n most =>
    exact congrArg (fun a => tell { s with hub := a.2 } (.frames a.1))
      (s.hub.receive_flagged b r.conn most)
  | dropGuard n =>
    exact congrArg (fun s' : State => tell (s'.update r.name fun q => { q with guarded := false })
      (.truth r.guarded)) (endGuard_flagged s b r)
  | _ => rfl

/-- **No step asks for the flag**, but that for the health, nor sets it, but a shutdown. -/
theorem step_flagged {st : Step} (hhealth : st ≠ .health) (hshutdown : st ≠ .shutdown) :
    step (s.flagged b) st = (step s st).flagged b := by
  cases hs : st.subject with
  | some n =>
    rw [step_of_subject _ st n hs, step_of_subject s st n hs, find?_flagged]
    cases s.find? n with
    | none => rfl
    | some r => exact onRecord_flagged s b r st
  | none =>
    cases st with
    | health => exact absurd rfl hhealth
    | shutdown => exact absurd rfl hshutdown
    | register name p capacity => exact register_flagged s b name p capacity
    | handle name p capacity =>
      exact congrArg (tell · .done) (keep_flagged { s with hub := s.hub.openBox p _ } b _)
    | route bound f =>
      have hr : (s.flagged b).hub.route bound f = _ := s.hub.route_flagged b bound f
      simp only [step, route, hr]
      rfl
    | unregister p =>
      have hl : (s.flagged b).hub.lookup p = s.hub.lookup p := rfl
      simp only [step, unregister, hl]
      cases s.hub.lookup p <;> rfl
    | status | policy | count | contains | lookup => rfl
    | _ => cases hs

theorem state_step_flagged (st : Step) :
    (step (s.flagged b) st).state = (step s st).state.flagged (b || st.stops) := by
  by_cases hshutdown : st = .shutdown
  · subst hshutdown
    rw [Step.stops, Bool.or_true]
    rfl
  have hstops : st.stops = false := by
    cases st with
    | shutdown => exact absurd rfl hshutdown
    | _ => rfl
  rw [hstops, Bool.or_false]
  by_cases hhealth : st = .health
  · subst hhealth
    rfl
  · rw [step_flagged s b hhealth hshutdown]
    rfl

/-- A step answers the same and reports the same, unless it asks for the health. -/
theorem answer_flagged {st : Step} (hhealth : st ≠ .health) :
    (step (s.flagged b) st).answer = (step s st).answer ∧
      (step (s.flagged b) st).events = (step s st).events := by
  by_cases hshutdown : st = .shutdown
  · subst hshutdown
    exact ⟨rfl, rfl⟩
  · rw [step_flagged s b hhealth hshutdown]
    exact ⟨rfl, rfl⟩

/-! ## Runs -/

theorem run_flagged (ms : List (Option Step)) : run (s.flagged b) (shutdownsIn ms) =
    (run s ms.reduceOption).flagged (b || (shutdownsIn ms).any Step.stops) := by
  induction ms generalizing s b with
  | nil =>
    show s.flagged b = s.flagged (b || false)
    rw [Bool.or_false]
  | cons m ms ih =>
    cases m with
    | none =>
      have hflag : (step (s.flagged b) .shutdown).state = s.flagged true := rfl
      show run (step (s.flagged b) .shutdown).state (shutdownsIn ms) =
        (run s ms.reduceOption).flagged (b || (true || (shutdownsIn ms).any Step.stops))
      rw [hflag, ih, Bool.true_or, Bool.or_true]
    | some st =>
      show run (step (s.flagged b) st).state (shutdownsIn ms) =
        (run (step s st).state ms.reduceOption).flagged
          (b || (st.stops || (shutdownsIn ms).any Step.stops))
      rw [state_step_flagged, ih, Bool.or_assoc]

/-- **Shutdowns that are put into a run only raise the flag.** -/
theorem run_shutdownsIn (p : Policy) (ms : List (Option Step)) :
    run (start p) (shutdownsIn ms) =
      (run (start p) ms.reduceOption).flagged ((shutdownsIn ms).any Step.stops) :=
  run_flagged (start p) false ms

end Switchboard.Session
