import Switchboard.Proofs.Relay.Incidents
import Switchboard.Proofs.Tls.Startup

/-!
# Durations of checked settings

A check asks that no interval, capacity or size is zero, and what passes it reaches the relay as it
stands.  It sets no bound from above: a ping interval and a ping timeout together are the longest
silence only if they make a duration, and a connection outlives its arrival only if its queue can be
set up and a clock can measure that silence from then on.

    check fs c = ok () → (ofSettings c.relay).Plain c.relay
    idleLimit? = some (interval + timeout) ↔ the sum is below 2 ^ 64
    a connection breaks off as soon as it has come ↔ the clock would reach 2 ^ 63 seconds
-/

namespace Switchboard

/-! ## Specification -/

/-- The policy goes by the settings as they stand, with nothing raised to one. -/
structure Policy.Plain (p : Policy) (r : RelaySettings) : Prop where
  statusInterval : p.statusInterval = r.statusInterval.toNat
  duplicates : p.duplicates = r.duplicatePolicy
  maxMessageSize : p.maxMessageSize = r.maxMessageSize.toNat
  queueCapacity : p.queueCapacity = r.queueCapacity.toNat
  pingInterval : p.pingInterval = r.pingInterval.toNat
  pingTimeout : p.pingTimeout = r.pingTimeout.toNat

/-- A ping interval and a ping timeout together, in seconds. -/
def RelaySettings.silence (r : RelaySettings) : Nat := r.pingInterval.toNat + r.pingTimeout.toNat

/-! ## Settings that pass -/

namespace Config

variable {fs : Files} {c : Config}

theorem checkRelay_eq_ok_iff {r : RelaySettings} :
    checkRelay r = .ok () ↔ r.statusInterval ≠ 0 ∧ r.queueCapacity ≠ 0 ∧ r.pingInterval ≠ 0 ∧
      r.pingTimeout ≠ 0 ∧ r.maxMessageSize ≠ 0 := by
  unfold checkRelay
  by_cases hs : r.statusInterval = 0
  · simp [hs]
  by_cases hq : r.queueCapacity = 0
  · simp [hs, hq]
  by_cases hi : r.pingInterval = 0
  · simp [hs, hq, hi]
  by_cases ht : r.pingTimeout = 0
  · simp [hs, hq, ht]
  by_cases hm : r.maxMessageSize = 0
  · simp [hs, hq, hi, ht, hm]
  · simp [hs, hq, hi, ht, hm]

theorem checkRelay_of_check (h : check fs c = .ok ()) : checkRelay c.relay = .ok () := by
  unfold check at h
  cases hc : checkFile fs "security.tls.certificate_path" c.tls.certificatePath .noCertificate with
  | error e => rw [hc] at h; cases h
  | ok _ =>
    rw [hc] at h
    cases hk : checkFile fs "security.tls.private_key_path" c.tls.privateKeyPath .noKey with
    | error e => rw [hk] at h; cases h
    | ok _ =>
      rw [hk] at h
      cases hr : checkRelay c.relay with
      | error e => rw [hr] at h; cases h
      | ok _ => rfl

end Config

/-! ## The policy that goes by them -/

namespace Policy

theorem max_one_of_ne_zero {n : UInt64} (h : n ≠ 0) : max n.toNat 1 = n.toNat := by
  have hn : n.toNat ≠ 0 := fun hz => h (UInt64.toNat_inj.1 hz)
  omega

theorem plain_of_checkRelay {r : RelaySettings} (h : Config.checkRelay r = .ok ()) :
    (ofSettings r).Plain r := by
  obtain ⟨hs, hq, hi, ht, -⟩ := Config.checkRelay_eq_ok_iff.1 h
  exact ⟨max_one_of_ne_zero hs, rfl, rfl, max_one_of_ne_zero hq, max_one_of_ne_zero hi,
    max_one_of_ne_zero ht⟩

theorem Plain.sum {p : Policy} {r : RelaySettings} (a : p.Plain r) :
    p.pingInterval + p.pingTimeout = r.silence := by
  rw [a.pingInterval, a.pingTimeout, RelaySettings.silence]

theorem Plain.idleLimit? {p : Policy} {r : RelaySettings} (a : p.Plain r) :
    p.idleLimit? = if r.silence < Bounds.word64 then some r.silence else none := by
  rw [Policy.idleLimit?, a.sum]

end Policy

/-! ## Connections under that policy -/

namespace Relay.World

/-- A client that comes while no queue can be set up is served by nothing, and the hub hears nothing
of it. -/
theorem welcome_unqueued {w : World} {q : PeerId} (d : Dial) (hq : w.queueTooLong = true) :
    ∃ l, (w.welcome d q).1.links.getLast? = some l ∧ l.phase = .lost .connecting ∧
      (w.welcome d q).1.hub = w.hub := by
  obtain ⟨l, h, es, he, hw⟩ := w.welcome_cases d q
  rw [he]
  refine ⟨l, List.getLast?_concat, ?_⟩
  cases hw with
  | unqueued => exact ⟨rfl, rfl⟩
  | refused _ hq' | served _ _ _ hq' | undone _ _ _ hq' => cases hq'.symm.trans hq

/-- A connection that is accepted is served as long as a clock can measure its longest silence, and
breaks off at once if none can. -/
theorem welcome_accepted {w : World} {q : PeerId} {done : Registered} (d : Dial)
    (hq : w.queueTooLong = false)
    (ha : (w.hub.register q w.hub.policy.queueCapacity).2 = .ok done) :
    ∃ l, (w.welcome d q).1.links.getLast? = some l ∧ l.conn = some done.conn ∧
      l.deadline = w.now + w.idleLimit ∧
      l.phase = if w.idleTooLong then .lost .established else .serving .idle := by
  obtain ⟨l, h, es, he, hw⟩ := w.welcome_cases d q
  refine ⟨l, by rw [he, List.getLast?_concat], ?_⟩
  cases hw with
  | unqueued hq' => cases hq'.symm.trans hq
  | refused hr =>
    rw [hr] at ha
    cases ha
  | served hr hi hl | undone hr hi hl =>
    rw [hr] at ha
    cases ha
    rw [hl, hi]
    exact ⟨rfl, rfl, rfl⟩

end Relay.World

/-! ## Top theorem -/

open Relay in
/-- **Timers of checked settings.**  Settings that pass a check are those that the relay goes by.
The longest silence is the ping interval and the ping timeout together if that is a duration, and
there is none otherwise.  A client that comes is served by nothing if its queue is too long to be set
up; a connection that is accepted is served with that silence ahead of it if a clock can measure it
from now on, and breaks off at once otherwise. -/
theorem timers_of_check (fs : Files) (c : Config) (h : Config.check fs c = .ok ()) :
    (Policy.ofSettings c.relay).Plain c.relay ∧
    (Policy.ofSettings c.relay).idleLimit? =
      (if c.relay.silence < Bounds.word64 then some c.relay.silence else none) ∧
    ∀ (w : World) (d : Dial) (q : PeerId), w.hub.policy = Policy.ofSettings c.relay →
      (Bounds.eighth64 ≤ c.relay.queueCapacity.toNat →
        ∃ l, (w.welcome d q).1.links.getLast? = some l ∧ l.phase = .lost .connecting ∧
          (w.welcome d q).1.hub = w.hub) ∧
      ∀ done, c.relay.queueCapacity.toNat < Bounds.eighth64 →
        (w.hub.register q w.hub.policy.queueCapacity).2 = .ok done →
        ∃ l, (w.welcome d q).1.links.getLast? = some l ∧ l.conn = some done.conn ∧
          l.deadline = w.now + c.relay.silence * 1000 ∧
          l.phase = if w.now / 1000 + c.relay.silence < Bounds.half64 then .serving .idle
            else .lost .established := by
  have hplain := Policy.plain_of_checkRelay (Config.checkRelay_of_check h)
  refine ⟨hplain, hplain.idleLimit?, fun w d q hp => ⟨fun hq => ?_, fun done hq ha => ?_⟩⟩
  · refine World.welcome_unqueued d ?_
    rw [World.queueTooLong, hp, hplain.queueCapacity]
    exact decide_eq_true hq
  · have hshort : w.queueTooLong = false := by
      rw [World.queueTooLong, hp, hplain.queueCapacity]
      exact decide_eq_false (Nat.not_le.2 hq)
    obtain ⟨l, hl, hc, hdeadline, hphase⟩ := World.welcome_accepted d hshort ha
    have hlong : w.idleTooLong = decide (Bounds.half64 ≤ w.now / 1000 + c.relay.silence) := by
      rw [World.idleTooLong, hp, hplain.sum]
    rw [World.idleLimit, hp, hplain.sum] at hdeadline
    refine ⟨l, hl, hc, hdeadline, ?_⟩
    rw [hphase, hlong]
    by_cases hs : w.now / 1000 + c.relay.silence < Bounds.half64
    · rw [if_pos hs, decide_eq_false (Nat.not_le.2 hs)]
      rfl
    · rw [if_neg hs, decide_eq_true (Nat.not_lt.1 hs)]
      rfl

/-- Settings that pass a check, with these durations. -/
def pinging (interval timeout : UInt64) : Config :=
  { Tls.namesPair "" with relay := { pingInterval := interval, pingTimeout := timeout } }

/-- A client that comes. -/
def newcomer : Relay.Dial := { name := "only", address := "", path := "", room := 1 }

open Relay in
/-- The greatest sum that is a duration, under which no connection lasts; and the greatest one under
which a connection is served that is made when the clock has run for a day. -/
theorem timers_greatest :
    let longest := pinging 18446744073709551614 1
    let served := pinging 9223372036854689406 1
    let v := World.start (Policy.ofSettings longest.relay) none
    let w := World.start (Policy.ofSettings served.relay) none 86400000
    Config.check Tls.emptyPair longest = .ok () ∧
    (Policy.ofSettings longest.relay).idleLimit? = some 18446744073709551615 ∧
    Config.check Tls.emptyPair served = .ok () ∧
    (∃ l, (w.welcome newcomer 7).1.links.getLast? = some l ∧
      l.phase = .serving .idle ∧ l.deadline = 86400000 + 9223372036854689407000) ∧
    ∃ l, (v.welcome newcomer 7).1.links.getLast? = some l ∧ l.phase = .lost .established := by
  intro longest served v w
  have hlongest : Config.check Tls.emptyPair longest = .ok () := rfl
  have hserved : Config.check Tls.emptyPair served = .ok () := rfl
  obtain ⟨-, hlimit, hcome⟩ := timers_of_check _ _ hlongest
  obtain ⟨-, -, hcome'⟩ := timers_of_check _ _ hserved
  obtain ⟨l, hl, -, -, hphase⟩ := (hcome v newcomer 7 rfl).2 _ (by decide) rfl
  obtain ⟨k, hk, -, hdeadline, hphase'⟩ := (hcome' w newcomer 7 rfl).2 _ (by decide) rfl
  exact ⟨hlongest, hlimit.trans (if_pos (by decide)), hserved,
    ⟨k, hk, hphase'.trans (if_pos (by decide)), hdeadline.trans (by decide +kernel)⟩,
    l, hl, hphase.trans (if_neg (by decide))⟩

open Relay in
/-- One second more passes the check as well: the sum is no duration, and a client that comes to
such a relay finds its connection broken off. -/
theorem checked_overflows :
    Config.check Tls.emptyPair (pinging 18446744073709551615 1) = .ok () ∧
    (Policy.ofSettings (pinging 18446744073709551615 1).relay).idleLimit? = none ∧
    ((World.start (Policy.ofSettings (pinging 18446744073709551615 1).relay) none).welcome
      newcomer 7).1.links.map (fun l => (l.stage, l.isServed)) =
        [(.established, false)] := by
  refine ⟨rfl, rfl, ?_⟩
  decide +kernel

end Switchboard
