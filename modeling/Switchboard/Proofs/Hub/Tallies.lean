import Switchboard.Proofs.Hub.Growth

/-!
# What the operations of a hub count

A registration that comes about is one connection, and one eviction if somebody had to give way; one
that does not is a rejection.  A release is a disconnection.  A frame that is routed is received and
comes to exactly one end.  Nothing else is counted.

    (h.route bound f).1.counters = h.counters.countAll [received, the end that the answer tells]
-/

namespace Switchboard

/-- What is counted for a frame that came to this end. -/
def Outcome.tally : Outcome → Tally
  | .forwarded _ => .forwarded
  | .unroutable .. => .unroutable
  | .dropped _ => .dropped

/-- What is counted for a frame, received or not worth it. -/
def routeTallies : Except Violation Outcome → List Tally
  | .ok o => [.received, o.tally]
  | .error _ => [.received, .violation]

/-- What is counted for an attempt to register. -/
def registerTallies : Except Taken Registered → List Tally
  | .ok r => if r.evicted.isSome then [.eviction, .connection] else [.connection]
  | .error _ => [.rejection]

namespace Counters

/-! ## One counter -/

/-- A counter that goes up with things of one kind, and with nothing else, has gone up by their
number. -/
theorem countAll_eq_add {get : Counters → UInt64} {k : Tally}
    (hget : ∀ c t, get (c.count t) = if t = k then get c + 1 else get c) (c : Counters)
    (ts : List Tally) : get (c.countAll ts) = get c + UInt64.ofNat (ts.count k) := by
  induction ts generalizing c with
  | nil => simp [countAll]
  | cons t rest ih =>
    have hcons : c.countAll (t :: rest) = (c.count t).countAll rest := rfl
    rw [hcons, ih, hget, List.count_cons]
    by_cases ht : t = k
    · simp only [ht, if_true, beq_self_eq_true, UInt64.ofNat_add]
      rw [UInt64.add_assoc, UInt64.add_comm 1]
      rfl
    · simp [ht]

theorem toNat_add_one {n : UInt64} (h : n.toNat + 1 < Bounds.word64) :
    (n + 1).toNat = n.toNat + 1 := by
  rw [UInt64.toNat_add, UInt64.toNat_one]
  exact Nat.mod_eq_of_lt h

theorem toNat_active_connection (c : Counters) (h : c.active.toNat + 1 < Bounds.word64) :
    (c.count .connection).active.toNat = c.active.toNat + 1 := toNat_add_one h

theorem toNat_active_disconnection (c : Counters) :
    (c.count .disconnection).active.toNat = c.active.toNat - 1 := by
  simp only [Counters.count]
  split
  · next h => rw [h]; rfl
  · next h =>
    have hpos : c.active.toNat ≠ 0 := fun h0 => h (UInt64.toNat_inj.1 h0)
    rw [UInt64.toNat_sub_of_le]
    · rfl
    · rw [UInt64.le_iff_toNat_le, UInt64.toNat_one]
      omega

end Counters

namespace Hub

/-! ## The operations -/

@[simp] theorem counters_tally (h : Hub) (t : Tally) :
    (h.tally t).counters = h.counters.count t := rfl

@[simp] theorem counters_updateBox (h : Hub) (c : ConnId) (f : Mailbox → Mailbox) :
    (h.updateBox c f).counters = h.counters := rfl

@[simp] theorem counters_openBox (h : Hub) (p : PeerId) (n : Nat) :
    (h.openBox p n).counters = h.counters := rfl

@[simp] theorem counters_requestClose (h : Hub) (c : ConnId) :
    (h.requestClose c).counters = h.counters := rfl

@[simp] theorem counters_unregister (h : Hub) (p : PeerId) :
    (h.unregister p).counters = h.counters := rfl

@[simp] theorem counters_leave (h : Hub) (p : PeerId) (c : ConnId) :
    (h.leave p c).counters = h.counters := by
  unfold leave
  split <;> rfl

@[simp] theorem counters_release (h : Hub) (p : PeerId) (c : ConnId) :
    (h.release p c).counters = h.counters.count .disconnection := by
  simp only [release, counters_tally, counters_leave]

@[simp] theorem counters_deliver (h : Hub) (c : ConnId) (f : Frame) :
    (h.deliver c f).1.counters = h.counters := by
  obtain ⟨m, -, -, hd⟩ | ⟨r, -, hd⟩ := h.deliver_cases c f <;> rw [hd]
  rfl

@[simp] theorem counters_receive (h : Hub) (c : ConnId) (most : Option Nat) :
    (h.receive c most).2.counters = h.counters := by
  unfold receive
  split <;> rfl

@[simp] theorem counters_enter (h : Hub) (p : PeerId) (c : ConnId) :
    (h.enter p c).1.counters = h.counters := by
  obtain ⟨-, he⟩ | ⟨old, -, -, he⟩ | ⟨old, -, -, he⟩ := h.enter_cases p c <;>
    exact congrArg (·.1.counters) he

theorem counters_register (h : Hub) (p : PeerId) (n : Nat) :
    (h.register p n).1.counters = h.counters.countAll (registerTallies (h.register p n).2) := by
  have hc := (h.openBox p n).counters_enter p h.fresh
  unfold register
  split
  · next h' evicted he =>
    rw [he] at hc
    simp only [counters_openBox] at hc
    cases evicted <;> simp [registerTallies, Counters.countAll, hc]
  · simp [registerTallies, Counters.countAll]

theorem counters_forward (h : Hub) (dest : PeerId) (f : Frame) :
    (h.forward dest f).1.counters = h.counters.count (h.forward dest f).2.tally := by
  unfold forward
  split
  · rfl
  · next c _ =>
    have hc := h.counters_deliver c f
    split <;> next h' he =>
      have hc' : h'.counters = h.counters := by rw [he] at hc; exact hc
      simp only [counters_tally, hc', Outcome.tally]

theorem counters_route (h : Hub) (bound : PeerId) (f : Frame) :
    (h.route bound f).1.counters = h.counters.countAll (routeTallies (h.route bound f).2) := by
  unfold route
  split
  · rfl
  · next e _ =>
    have hf := (h.tally .received).counters_forward e.recipient f
    exact hf

end Hub

end Switchboard
