import Switchboard.Hub.Report

/-!
# Nobody asks whether a shutdown was asked for

No operation of the hub looks at the stop flag.  On a hub that has it the other way it answers the
same and does the same to all else, and leaves the flag as it is.

    (h.flagged b).enter p c = ((h.enter p c).1.flagged b, (h.enter p c).2)
    (h.flagged b).route bound f = ((h.route bound f).1.flagged b, (h.route bound f).2)
-/

namespace Switchboard.Hub

/-- The hub with the stop flag as given. -/
def flagged (h : Hub) (b : Bool) : Hub := { h with stopping := b }

variable (h : Hub) (b : Bool)

/-! ## Questions -/

theorem lookup_flagged (p : PeerId) : (h.flagged b).lookup p = h.lookup p := rfl

theorem box?_flagged (c : ConnId) : (h.flagged b).box? c = h.box? c := rfl

theorem isCurrent_flagged (p : PeerId) (c : ConnId) :
    (h.flagged b).isCurrent p c = h.isCurrent p c := rfl

/-! ## Operations -/

theorem leave_flagged (p : PeerId) (c : ConnId) :
    (h.flagged b).leave p c = (h.leave p c).flagged b := by
  unfold leave
  rw [isCurrent_flagged]
  split <;> rfl

theorem release_flagged (p : PeerId) (c : ConnId) :
    (h.flagged b).release p c = (h.release p c).flagged b := by
  unfold release
  rw [leave_flagged]
  rfl

theorem enter_flagged (p : PeerId) (c : ConnId) :
    (h.flagged b).enter p c = ((h.enter p c).1.flagged b, (h.enter p c).2) := by
  have hpolicy : (h.flagged b).policy = h.policy := rfl
  unfold enter
  rw [lookup_flagged, hpolicy]
  cases h.lookup p with
  | none => rfl
  | some old => cases h.policy.duplicates <;> rfl

theorem register_flagged (p : PeerId) (n : Nat) :
    (h.flagged b).register p n = ((h.register p n).1.flagged b, (h.register p n).2) := by
  have henter := (h.openBox p n).enter_flagged b p h.fresh
  have hopen : (h.flagged b).openBox p n = (h.openBox p n).flagged b := rfl
  have hfresh : (h.flagged b).fresh = h.fresh := rfl
  unfold register
  rw [hopen, hfresh, henter]
  rcases (h.openBox p n).enter p h.fresh with ⟨h', t | evicted⟩
  · rfl
  · cases evicted <;> rfl

theorem deliver_flagged (c : ConnId) (f : Frame) :
    (h.flagged b).deliver c f = ((h.deliver c f).1.flagged b, (h.deliver c f).2) := by
  unfold deliver
  rw [box?_flagged]
  cases h.box? c with
  | none => rfl
  | some m =>
    dsimp only
    cases m.offer f <;> rfl

theorem receive_flagged (c : ConnId) (most : Option Nat) :
    (h.flagged b).receive c most = ((h.receive c most).1, (h.receive c most).2.flagged b) := by
  unfold receive
  rw [box?_flagged]
  cases h.box? c <;> rfl

theorem forward_flagged (dest : PeerId) (f : Frame) :
    (h.flagged b).forward dest f = ((h.forward dest f).1.flagged b, (h.forward dest f).2) := by
  unfold forward
  rw [lookup_flagged]
  cases h.lookup dest with
  | none => rfl
  | some c =>
    simp only [deliver_flagged]
    rcases h.deliver c f with ⟨h', e | u⟩
    · cases e <;> rfl
    · rfl

theorem route_flagged (bound : PeerId) (f : Frame) :
    (h.flagged b).route bound f = ((h.route bound f).1.flagged b, (h.route bound f).2) := by
  have htally : (h.flagged b).tally .received = (h.tally .received).flagged b := rfl
  unfold route
  rw [htally]
  cases accept bound f with
  | error v => rfl
  | ok e => simp only [forward_flagged]

end Switchboard.Hub
