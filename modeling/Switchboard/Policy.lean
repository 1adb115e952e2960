import Switchboard.Bounds
import Switchboard.Config.Settings

/-!
# Relay policy

The settings a running relay goes by: intervals and the queue capacity are at least one, and the
longest silence of a peer is a ping interval and a ping timeout together.

    idleLimit? p = some (p.pingInterval + p.pingTimeout) ↔ the sum is below 2 ^ 64
-/

namespace Switchboard

/-- Durations in whole seconds. -/
structure Policy where
  statusInterval : Nat
  duplicates : DuplicatePolicy
  maxMessageSize : Nat
  queueCapacity : Nat
  pingInterval : Nat
  pingTimeout : Nat
  deriving DecidableEq, Repr

namespace Policy

/-! ## Algorithm -/

def ofSettings (s : RelaySettings) : Policy where
  statusInterval := max s.statusInterval.toNat 1
  duplicates := s.duplicatePolicy
  maxMessageSize := s.maxMessageSize.toNat
  queueCapacity := max s.queueCapacity.toNat 1
  pingInterval := max s.pingInterval.toNat 1
  pingTimeout := max s.pingTimeout.toNat 1

/-- The longest silence, in seconds, unless it is beyond what a duration holds. -/
def idleLimit? (p : Policy) : Option Nat :=
  if p.pingInterval + p.pingTimeout < Bounds.word64 then some (p.pingInterval + p.pingTimeout)
  else none

/-- What is said when there is no such duration. -/
def idleOverflow : String := "overflow when adding durations"

/-! ## Lemmas -/

theorem queueCapacity_pos (s : RelaySettings) : 0 < (ofSettings s).queueCapacity :=
  Nat.lt_of_lt_of_le Nat.zero_lt_one (Nat.le_max_right _ _)

theorem idleLimit?_eq_some_iff (p : Policy) (n : Nat) :
    p.idleLimit? = some n ↔ n < Bounds.word64 ∧ n = p.pingInterval + p.pingTimeout := by
  unfold idleLimit?
  split <;> simp <;> omega

end Policy

end Switchboard
