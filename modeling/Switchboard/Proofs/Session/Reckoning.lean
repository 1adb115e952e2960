import Switchboard.Proofs.Session.Gauge

/-!
# The order of what is counted

All counters but the gauge are sums, and so is the gauge as long as guards come from registrations
alone: a release takes away a guard that was there to be counted, so the gauge never stops at zero
(`gauge_run`).  Two runs that count the same things in different orders end with the same counters.

    gauge after + disconnections = gauge before + connections
    (bill s xs).Perm (bill s ys) → (run s xs).hub.counters = (run s ys).hub.counters
-/

namespace Switchboard

namespace Counters

/-- All counters but the gauge. -/
def sums (c : Counters) : Counters := { c with active := 0 }

/-- Counts of two things can be exchanged, but in the gauge. -/
theorem sums_count_comm (c : Counters) (t u : Tally) :
    ((c.count t).count u).sums = ((c.count u).count t).sums := by
  cases t <;> cases u <;> rfl

theorem sums_count {c d : Counters} (h : c.sums = d.sums) (t : Tally) :
    (c.count t).sums = (d.count t).sums := by
  cases c
  cases d
  simp only [sums, Counters.mk.injEq] at h
  obtain ⟨rfl, -, rfl, rfl, rfl, rfl, rfl, rfl, rfl, rfl⟩ := h
  cases t <;> rfl

theorem sums_countAll {c d : Counters} (h : c.sums = d.sums) (ts : List Tally) :
    (c.countAll ts).sums = (d.countAll ts).sums := by
  induction ts generalizing c d with
  | nil => exact h
  | cons t rest ih => exact ih (sums_count h t)

theorem sums_countAll_perm {ts us : List Tally} (h : ts.Perm us) (c : Counters) :
    (c.countAll ts).sums = (c.countAll us).sums := by
  induction h generalizing c with
  | nil => rfl
  | cons t _ ih => exact ih (c.count t)
  | swap t u rest => exact sums_countAll (sums_count_comm c u t) rest
  | trans _ _ ih₁ ih₂ => exact (ih₁ c).trans (ih₂ c)

theorem eq_of_sums {c d : Counters} (h : c.sums = d.sums) (ha : c.active = d.active) : c = d := by
  cases c
  cases d
  simp only [sums, Counters.mk.injEq] at h ha
  simp only [h, ha]

/-- The gauge goes up with each connection, if nothing lowers it. -/
theorem active_countAll (c : Counters) {ts : List Tally} (h : .disconnection ∉ ts) :
    (c.countAll ts).active = c.active + UInt64.ofNat (ts.count .connection) := by
  induction ts generalizing c with
  | nil => exact (UInt64.add_zero _).symm
  | cons t rest ih =>
    rw [List.mem_cons, not_or] at h
    have hrest := ih (c.count t) h.2
    have hcons : c.countAll (t :: rest) = (c.count t).countAll rest := rfl
    rw [hcons, hrest, List.count_cons]
    cases t with
    | connection =>
      simp only [count, beq_self_eq_true, if_true, UInt64.ofNat_add]
      rw [UInt64.add_assoc, UInt64.add_comm 1]
      rfl
    | disconnection => exact absurd rfl h.1
    | _ => rfl

end Counters

namespace Session

/-! ## One step -/

theorem disconnection_not_mem_tallies (evicts : Bool) (st : Step) (a : Answer)
    (hst : ∀ n reason, st ≠ .release n reason) : .disconnection ∉ tallies evicts st a := by
  unfold tallies
  split
  · cases evicts <;> decide
  · decide
  · next o =>
    cases o <;> simp [routeTallies, Outcome.tally]
  · simp [routeTallies]
  · exact absurd rfl (hst _ _)
  · exact List.not_mem_nil

/-- Only the release of a guard counts a disconnection. -/
theorem disconnection_mem_billOf {s : State} {st : Step} (h : .disconnection ∈ billOf s st) :
    billOf s st = [.disconnection] ∧ 0 < s.guards := by
  by_cases hst : ∃ n reason, st = .release n reason
  · obtain ⟨n, reason, rfl⟩ := hst
    unfold billOf at h ⊢
    rw [step_of_subject s _ n rfl] at h ⊢
    cases hf : s.find? n with
    | none => simp [hf, tallies, tell] at h
    | some r =>
      cases hg : r.guarded with
      | false => simp [hf, onRecord, release, hg, tallies, tell] at h
      | true =>
        refine ⟨by simp [onRecord, release, hg, tallies], ?_⟩
        exact List.countP_pos_iff.2 ⟨r, mem_of_find? hf, hg⟩
  · exact absurd h (disconnection_not_mem_tallies _ st _ fun n reason he => hst ⟨n, reason, he⟩)

/-- A step raises the gauge with a connection and lowers it with a disconnection. -/
theorem gauge_step {d : Nat} {s : State} (b : Balanced d s) (st : Step) :
    (step s st).state.hub.counters.active + UInt64.ofNat ((billOf s st).count .disconnection) =
      s.hub.counters.active + UInt64.ofNat ((billOf s st).count .connection) := by
  rw [counters_step]
  by_cases h : .disconnection ∈ billOf s st
  · obtain ⟨hbill, hpos⟩ := disconnection_mem_billOf h
    have hne : s.hub.counters.active ≠ 0 := by
      intro h0
      have hb : s.hub.counters.active.toNat = s.guards + d := b
      rw [h0, UInt64.toNat_zero] at hb
      omega
    rw [hbill]
    simp [Counters.countAll, Counters.count, hne]
  · rw [Counters.active_countAll _ h, List.count_eq_zero.2 h]
    exact UInt64.add_zero _

/-! ## Runs -/

theorem length_acceptedBy_le (s : State) (st : Step) : (acceptedBy s st).toList.length ≤ 1 := by
  cases acceptedBy s st with
  | none => exact Nat.zero_le 1
  | some e => exact Nat.le_refl 1

theorem length_accepted_le (s : State) (steps : List Step) :
    (accepted s steps).length ≤ steps.length := by
  induction steps generalizing s with
  | nil => exact Nat.le_refl 0
  | cons st rest ih =>
    have hfirst := length_acceptedBy_le s st
    have hrest := ih (step s st).state
    rw [accepted_cons, List.length_append, List.length_cons]
    omega

/-- Guards are made by registrations, one by each. -/
theorem guards_run_le {s : State} (k : Kept s) (d : Nat) (steps : List Step)
    (hn : ∀ n, Step.acquire n ∉ steps) :
    (run s steps).guards + (d + dropped s steps) ≤ s.guards + d + (accepted s steps).length := by
  induction steps generalizing d s with
  | nil => exact Nat.le_refl _
  | cons st rest ih =>
    have hst : ∀ n, st ≠ .acquire n := fun n he => hn n (he ▸ List.mem_cons_self)
    obtain ⟨made, released, h⟩ := shift_step k st hst
    have hguards := h.guards
    have hmade := h.made_eq
    have hrest := ih (k.step st) (d + droppedBy s st) fun n hmem =>
      hn n (List.mem_cons_of_mem _ hmem)
    rw [accepted_cons, List.length_append, dropped_cons, run_cons]
    omega

/-- The gauge of a run, as long as it cannot overflow before the last step. -/
theorem gauge_run {d : Nat} {s : State} (k : Kept s) (b : Balanced d s) (steps : List Step)
    (hn : ∀ n, Step.acquire n ∉ steps) (hlt : s.guards + d + steps.length ≤ Bounds.word64) :
    (run s steps).hub.counters.active + UInt64.ofNat ((bill s steps).count .disconnection) =
      s.hub.counters.active + UInt64.ofNat ((bill s steps).count .connection) := by
  induction steps generalizing d s with
  | nil => rfl
  | cons st rest ih =>
    have hst : ∀ n, st ≠ .acquire n := fun n he => hn n (he ▸ List.mem_cons_self)
    have hfirst := gauge_step b st
    have hrest : (run (step s st).state rest).hub.counters.active +
          UInt64.ofNat ((bill (step s st).state rest).count .disconnection) =
        (step s st).state.hub.counters.active +
          UInt64.ofNat ((bill (step s st).state rest).count .connection) := by
      -- the balance is needed before each step, so not after the last one
      cases rest with
      | nil => rfl
      | cons st' rest' =>
        have hle := length_acceptedBy_le s st
        simp only [List.length_cons] at hlt
        obtain ⟨hb, hguards⟩ := b.step k st hst (by omega)
        exact ih (k.step st) hb (fun n hmem => hn n (List.mem_cons_of_mem _ hmem))
          (by simp only [List.length_cons]; omega)
    rw [run_cons, bill_cons, List.count_append, List.count_append, UInt64.ofNat_add,
      UInt64.ofNat_add]
    grind

/-- At its top the gauge tells in which order it was moved. -/
example :
    let c : Counters := { active := 18446744073709551615 }
    ((c.count .connection).count .disconnection).active ≠
      ((c.count .disconnection).count .connection).active := by decide

/-- The order in which things are counted does not matter. -/
theorem counters_run_of_perm {d : Nat} {s : State} (k : Kept s) (b : Balanced d s)
    {xs ys : List Step} (hxs : ∀ n, Step.acquire n ∉ xs) (hys : ∀ n, Step.acquire n ∉ ys)
    (hx : s.guards + d + xs.length ≤ Bounds.word64) (hy : s.guards + d + ys.length ≤ Bounds.word64)
    (hp : (bill s ys).Perm (bill s xs)) :
    (run s ys).hub.counters = (run s xs).hub.counters := by
  have hgx := gauge_run k b xs hxs hx
  have hgy := gauge_run k b ys hys hy
  apply Counters.eq_of_sums
  · rw [counters_run, counters_run]
    exact Counters.sums_countAll_perm hp _
  · rw [hp.count_eq, hp.count_eq, ← hgx] at hgy
    exact (UInt64.add_left_inj _).1 hgy

end Session

end Switchboard
