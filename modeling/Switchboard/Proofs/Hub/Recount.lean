import Switchboard.Hub.Report
import Switchboard.Proofs.Hub.Tallies

/-!
# Counters are only written

No operation asks what was counted before it.  On a hub with other counters it answers the same,
does the same to all else, and counts the same things.

    (h.recount k).enter p c = ((h.enter p c).1.recount k, (h.enter p c).2)
    (h.recount k).route bound f = ((h.route bound f).1.recount (k.countAll ts), (h.route bound f).2)
-/

namespace Switchboard.Hub

/-- The hub with other counters. -/
def recount (h : Hub) (k : Counters) : Hub := { h with counters := k }

variable (h : Hub) (k : Counters)

/-! ## Questions -/

theorem lookup_recount (p : PeerId) : (h.recount k).lookup p = h.lookup p := rfl

theorem box?_recount (c : ConnId) : (h.recount k).box? c = h.box? c := rfl

theorem isCurrent_recount (p : PeerId) (c : ConnId) :
    (h.recount k).isCurrent p c = h.isCurrent p c := rfl

theorem routeEvents_recount (bound : PeerId) (r : Except Violation Outcome) :
    (h.recount k).routeEvents bound r = h.routeEvents bound r := rfl

/-! ## Operations -/

theorem leave_recount (p : PeerId) (c : ConnId) :
    (h.recount k).leave p c = (h.leave p c).recount k := by
  unfold leave
  rw [isCurrent_recount]
  split <;> rfl

theorem release_recount (p : PeerId) (c : ConnId) :
    (h.recount k).release p c = (h.release p c).recount (k.count .disconnection) := by
  unfold release
  rw [leave_recount]
  rfl

theorem enter_recount (p : PeerId) (c : ConnId) :
    (h.recount k).enter p c = ((h.enter p c).1.recount k, (h.enter p c).2) := by
  unfold enter
  rw [lookup_recount]
  cases h.lookup p with
  | none => rfl
  | some old =>
    have hpolicy : (h.recount k).policy = h.policy := rfl
    simp only [hpolicy]
    cases h.policy.duplicates <;> rfl

theorem register_recount (p : PeerId) (n : Nat) :
    (h.recount k).register p n =
      ((h.register p n).1.recount (k.countAll (registerTallies (h.register p n).2)),
        (h.register p n).2) := by
  have henter := (h.openBox p n).enter_recount k p h.fresh
  have hopen : (h.recount k).openBox p n = (h.openBox p n).recount k := rfl
  have hfresh : (h.recount k).fresh = h.fresh := rfl
  unfold register
  rw [hopen, hfresh, henter]
  rcases (h.openBox p n).enter p h.fresh with ⟨h', t | evicted⟩
  · rfl
  · cases evicted <;> rfl

theorem deliver_recount (c : ConnId) (f : Frame) :
    (h.recount k).deliver c f = ((h.deliver c f).1.recount k, (h.deliver c f).2) := by
  unfold deliver
  rw [box?_recount]
  cases h.box? c with
  | none => rfl
  | some m =>
    dsimp only
    cases m.offer f <;> rfl

theorem receive_recount (c : ConnId) (most : Option Nat) :
    (h.recount k).receive c most = ((h.receive c most).1, (h.receive c most).2.recount k) := by
  unfold receive
  rw [box?_recount]
  cases h.box? c <;> rfl

theorem forward_recount (dest : PeerId) (f : Frame) :
    (h.recount k).forward dest f =
      ((h.forward dest f).1.recount (k.count (h.forward dest f).2.tally),
        (h.forward dest f).2) := by
  unfold forward
  rw [lookup_recount]
  cases h.lookup dest with
  | none => rfl
  | some c =>
    simp only [deliver_recount]
    rcases h.deliver c f with ⟨h', e | u⟩
    · cases e <;> rfl
    · rfl

theorem route_recount (bound : PeerId) (f : Frame) :
    (h.recount k).route bound f =
      ((h.route bound f).1.recount (k.countAll (routeTallies (h.route bound f).2)),
        (h.route bound f).2) := by
  unfold route
  cases accept bound f with
  | error v => rfl
  | ok e =>
    have hbefore := (h.tally .received).forward_recount (k.count .received) e.recipient f
    have htally : (h.recount k).tally .received =
        (h.tally .received).recount (k.count .received) := rfl
    simp only [htally, hbefore]
    rfl

end Switchboard.Hub
