import Switchboard.Proofs.Relay.Moments

/-!
# Two relays side by side

What is the same in two relays, in some sense `S` that settling, reports and the mere passing of time
keep up to a last moment (`Concord`), stays the same as time goes by, though there may be moments that
only one of them waits for: the other one is at rest then and may be looked at all the same.

    S (w, []) (v, []) → t ≤ last → S (w.advance t) (v.advance t)
    S a b → S (follow a ms) (follow b ms)
-/

namespace Switchboard.Relay

/-- A sense in which two relays are the same, and the same has been reported of them, up to a last
moment. -/
structure Concord (S : Happening → Happening → Prop) (last : Nat) : Prop where
  now : ∀ {a b}, S a b → b.1.now = a.1.now
  pass : ∀ {a b}, S a b → ∀ t, S ({ a.1 with now := t }, []) ({ b.1 with now := t }, [])
  followed : ∀ {a b a' b'}, S a b → S a' b' → S (a'.1, a.2 ++ a'.2) (b'.1, b.2 ++ b'.2)
  reports : ∀ {a b}, S a b → S a.1.reports b.1.reports
  settle : ∀ {a b}, S a b → lateness < a.1.pingPeriod → a.1.now ≤ last →
    S a.1.settle b.1.settle

namespace Concord

open World

variable {S : Happening → Happening → Prop} {last : Nat} {w v : World} {a b : Happening}

theorem bare (hS : Concord S last) (h : S a b) : S (a.1, []) (b.1, []) := by
  have hnow : ({ b.1 with now := a.1.now } : World) = b.1 := by
    rw [← hS.now h]
  have hpass := hS.pass h a.1.now
  rwa [hnow] at hpass

theorem andThen (hS : Concord S last) (h : S a b) {F G : World → Happening} (hF : S (F a.1) (G b.1)) :
    S (World.andThen a F) (World.andThen b G) := hS.followed h hF

theorem moment (hS : Concord S last) (h : S (w, []) (v, [])) (hperiod : lateness < w.pingPeriod)
    {x : Nat} (hx : x ≤ last) : S (w.moment x) (v.moment x) := by
  have hreports := hS.reports (hS.pass h x)
  exact hS.andThen hreports (hS.settle hreports hperiod hx)

/-- Time passes by the moments of both. -/
theorem advanceWithin (hS : Concord S last) {n m t : Nat} (h : S (w, []) (v, [])) (hw : w.Calm)
    (hv : v.Calm) (hle : w.now ≤ t) (hlast : t ≤ last) (hn : t - w.now ≤ n)
    (hm : t - v.now ≤ m) :
    S (World.advanceWithin n w t) (World.advanceWithin m v t) := by
  induction hk : t - w.now using Nat.strongRecOn generalizing n m w v with
  | ind k ih =>
    have hnow : v.now = w.now := hS.now h
    -- by way of a moment before all that either of them waits for
    have through : ∀ x, w.now < x → x ≤ t → (∀ y ∈ w.timers, w.now < y → x ≤ y) →
        (∀ y ∈ v.timers, w.now < y → x ≤ y) →
        S (World.advanceWithin n w t) (World.advanceWithin m v t) := by
      intro x hlt hxt hminw hminv
      rw [← hnow] at hminv
      obtain ⟨n', hn', hwx⟩ := advanceWithin_moment hw.rest hw.punctual hlt hxt hminw hn
      obtain ⟨m', hm', hvx⟩ := advanceWithin_moment hv.rest hv.punctual (hnow ▸ hlt) hxt hminv hm
      have hmoment := hS.moment h hw.pings (Nat.le_trans hxt hlast)
      have hwnow := w.now_moment x
      have hvnow := v.now_moment x
      rw [hwx, hvx]
      exact hS.andThen hmoment (ih (t - x) (by omega) (hS.bare hmoment) (hw.moment hminw)
        (hv.moment hminv) (by omega) (by omega) (by omega) (by omega))
    cases hx : w.nextTimer? t with
    | none =>
      have hallw := timers_of_nextTimer?_eq_none hx
      cases hy : v.nextTimer? t with
      | none =>
        rw [advanceWithin_of_none hx, advanceWithin_of_none hy]
        exact hS.pass h t
      | some y =>
        obtain ⟨hlt, hyt⟩ := nextTimer?_bounds hy
        have hleast := nextTimer?_least hy
        rw [hnow] at hlt hleast
        exact through y hlt hyt
          (fun u hu hlu => Nat.le_trans hyt (Nat.le_of_lt (hallw u hu hlu))) hleast
    | some x =>
      obtain ⟨hlt, hxt⟩ := nextTimer?_bounds hx
      have hleast := nextTimer?_least hx
      cases hy : v.nextTimer? t with
      | none =>
        have hallv := timers_of_nextTimer?_eq_none hy
        rw [hnow] at hallv
        exact through x hlt hxt hleast
          fun u hu hlu => Nat.le_trans hxt (Nat.le_of_lt (hallv u hu hlu))
      | some y =>
        obtain ⟨hlty, hyt⟩ := nextTimer?_bounds hy
        have hleasty := nextTimer?_least hy
        rw [hnow] at hlty hleasty
        rcases Nat.le_total x y with hxy | hyx
        · exact through x hlt hxt hleast fun u hu hlu => Nat.le_trans hxy (hleasty u hu hlu)
        · exact through y hlty hyt (fun u hu hlu => Nat.le_trans hyx (hleast u hu hlu)) hleasty

theorem advance (hS : Concord S last) (h : S (w, []) (v, [])) (hw : w.Calm) (hv : v.Calm) {t : Nat}
    (hle : w.now ≤ t) (hlast : t ≤ last) : S (w.advance t) (v.advance t) :=
  hS.advanceWithin h hw hv hle hlast (Nat.le_refl _) (Nat.le_refl _)

/-- **What follows two actions that are the same is the same.** -/
theorem follow (hS : Concord S last) (h : S a b) (ha : a.1.Steady) (hb : b.1.Steady) (ms : Nat)
    (hlast : a.1.now + ms + tick ≤ last) : S (World.follow a ms) (World.follow b ms) := by
  have hsettle := hS.settle h ha.pings (by omega)
  have hnow := hS.now hsettle
  have hsame : a.1.settle.1.now = a.1.now := (settleWithin_aside a.1.load a.1).2.1
  have hcalm := ha.settle
  have hcalm' := hb.settle
  refine hS.andThen (hS.andThen h hsettle) ?_
  show S (World.andThen (a.1.settle.1.advance (a.1.settle.1.now + ms)) _)
    (World.andThen (b.1.settle.1.advance (b.1.settle.1.now + ms)) _)
  rw [hnow]
  have hlater : b.1.settle.1.now ≤ a.1.settle.1.now + ms := by
    rw [hnow]
    exact Nat.le_add_right _ ms
  have hpass := hS.advance (hS.bare hsettle) hcalm hcalm' (Nat.le_add_right _ ms) (by omega)
  obtain ⟨hrest, hthen⟩ := hcalm.advance (Nat.le_add_right _ ms)
  obtain ⟨hrest', -⟩ := hcalm'.advance hlater
  refine hS.andThen hpass ?_
  rw [hS.now hpass]
  exact hS.advance (hS.bare hpass) hrest hrest' (Nat.le_add_right _ _) (by rw [hthen]; omega)

end Concord

end Switchboard.Relay
