import Switchboard.Proofs.Hub.Recount
import Switchboard.Proofs.Session.Accounts

/-!
# Steps never ask what was counted

Two sessions that differ in their counters take the same steps: the same answers, the same events,
the same everything but the counters, and on both the same things are counted.

    step (s.recount k) st = (step s st).recount (k.countAll (billOf s st))
-/

namespace Switchboard.Session

/-- The session with other counters. -/
def State.recount (s : State) (k : Counters) : State := { s with hub := s.hub.recount k }

def Result.recount (r : Result) (k : Counters) : Result := { r with state := r.state.recount k }

variable (s : State) (k : Counters)

/-! ## Records -/

theorem find?_recount (name : String) : (s.recount k).find? name = s.find? name := rfl

theorem endGuard_recount (r : Record) : (s.recount k).endGuard r = (s.endGuard r).recount k := by
  unfold State.endGuard
  split
  · exact congrArg (State.mk · s.records) (s.hub.leave_recount k r.peer r.conn)
  · rfl

theorem keep_recount (r : Record) : (s.recount k).keep r = (s.keep r).recount k := by
  unfold State.keep
  rw [find?_recount]
  cases s.find? r.name with
  | none => rfl
  | some old => simp only [endGuard_recount]; rfl

/-! ## Steps -/

theorem register_recount (name : String) (p : PeerId) (capacity : Option Nat) :
    register (s.recount k) name p capacity =
      (register s name p capacity).recount (k.countAll (billOf s (.register name p capacity))) := by
  have hr := s.hub.register_recount k p (capacityOr s capacity)
  have hreg : (s.recount k).hub.register p (capacityOr (s.recount k) capacity) =
      (s.hub.recount k).register p (capacityOr s capacity) := rfl
  unfold register
  simp only [billOf, step]
  unfold register
  rw [hreg, hr]
  obtain ⟨h', he, -⟩ | ⟨old, hl, -, he⟩ := s.hub.register_entered p (capacityOr s capacity)
  · rw [he]
    exact congrArg (Result.mk · .done _) (keep_recount { s with hub := h' } _ _)
  · rw [he]
    rfl

theorem enter_recount (r : Record) (guarded : Bool) :
    enter (s.recount k) r guarded = (enter s r guarded).recount k := by
  have he : (s.recount k).hub.enter r.peer r.conn =
      ((s.hub.enter r.peer r.conn).1.recount k, (s.hub.enter r.peer r.conn).2) :=
    s.hub.enter_recount k r.peer r.conn
  unfold enter
  rw [he]
  rcases s.hub.enter r.peer r.conn with ⟨h', t | evicted⟩
  · rfl
  · cases guarded with
    | false => rfl
    | true =>
      have hg := endGuard_recount { s with hub := h' } k r
      exact congrArg (fun s' : State => tell (s'.update r.name fun q => { q with guarded := true })
        (.evicted (evicted.map s.nameOf))) hg

theorem deliver_recount (r : Record) (f : Frame) :
    deliver (s.recount k) r f = (deliver s r f).recount k := by
  have hd : (s.recount k).hub.deliver r.conn f =
      ((s.hub.deliver r.conn f).1.recount k, (s.hub.deliver r.conn f).2) :=
    s.hub.deliver_recount k r.conn f
  unfold deliver
  rw [hd]
  rcases s.hub.deliver r.conn f with ⟨h', e | u⟩ <;> rfl

theorem release_recount (r : Record) (reason : CloseReason) :
    release (s.recount k) r reason =
      (release s r reason).recount (if r.guarded then k.count .disconnection else k) := by
  have hr := s.hub.release_recount k r.peer r.conn
  unfold release
  split
  · exact congrArg (fun h => Result.mk (State.update { s with hub := h } r.name
      fun q => { q with guarded := false }) .done [Hub.releaseEvent r.peer r.conn reason]) hr
  · rfl

theorem onRecord_recount (r : Record) (st : Step) (evicts : Bool) :
    onRecord (s.recount k) r st =
      (onRecord s r st).recount (k.countAll (tallies evicts st (onRecord s r st).answer)) := by
  cases st with
  | release n reason =>
    refine (release_recount s k r reason).trans ?_
    simp only [onRecord, release]
    split <;> rfl
  | insert n => exact enter_recount s k r false
  | acquire n => exact enter_recount s k r true
  | deliver n f => exact deliver_recount s k r f
  | unregisterConnection n p =>
    exact congrArg (fun h => tell { s with hub := h } _)
      (s.hub.leave_recount k (p.getD r.peer) r.conn)
  | receive n most =>
    exact congrArg (fun a => tell { s with hub := a.2 } (.frames a.1))
      (s.hub.receive_recount k r.conn most)
  | dropGuard n =>
    exact congrArg (fun s' : State => tell (s'.update r.name fun q => { q with guarded := false })
      (.truth r.guarded)) (endGuard_recount s k r)
  | _ => rfl

/-- On other counters a step does the same, and counts the same. -/
theorem step_recount (st : Step) :
    step (s.recount k) st = (step s st).recount (k.countAll (billOf s st)) := by
  cases hs : st.subject with
  | some n =>
    unfold billOf
    rw [step_of_subject _ st n hs, step_of_subject s st n hs, find?_recount]
    cases s.find? n with
    | none => cases st <;> rfl
    | some r => exact onRecord_recount s k r st (evicts s st)
  | none =>
    cases st with
    | register name p capacity => exact register_recount s k name p capacity
    | handle name p capacity =>
      exact congrArg (tell · .done) (keep_recount { s with hub := s.hub.openBox p _ } k _)
    | route bound f =>
      have hr : (s.recount k).hub.route bound f = _ := s.hub.route_recount k bound f
      have he := s.hub.routeEvents_recount k bound (s.hub.route bound f).2
      simp only [step, route, hr, billOf]
      cases (s.hub.route bound f).2 <;> rfl
    | unregister p =>
      have hl : (s.recount k).hub.lookup p = s.hub.lookup p := rfl
      simp only [step, unregister, hl, billOf]
      cases s.hub.lookup p <;> rfl
    | status | health | shutdown | policy | count | contains | lookup => rfl
    | _ => cases hs

end Switchboard.Session
