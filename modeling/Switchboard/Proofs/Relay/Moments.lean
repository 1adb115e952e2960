import Switchboard.Proofs.Relay.Settling

/-!
# From one moment to the next

Time goes by in moments that somebody waits for: the reports that are due are made, and then all
comes to rest (`moment`).  A moment that nobody waits for changes nothing but the time, so a world
at rest may be looked at whenever one likes on the way to `t`.

    advanceWithin n w t = andThen (w.moment x) fun w' => advanceWithin m w' t
    no report is overdue, at any time
-/

namespace Switchboard.Relay.World

/-- No report is overdue. -/
def Punctual (w : World) : Prop := ∀ r ∈ w.reporters, r.running = true → w.now < r.next

/-- All that comes of its being `x`. -/
def moment (w : World) (x : Nat) : Happening := andThen (reports { w with now := x }) settle

variable {w : World} {n t x : Nat}

/-! ## Moments that nobody waits for -/

theorem next_mem_timers {r : Reporter} (hr : r ∈ w.reporters) (hrun : r.running = true) :
    r.next ∈ w.timers :=
  List.mem_append_right _ (List.mem_map.2 ⟨r, List.mem_filter.2 ⟨hr, hrun⟩, rfl⟩)

/-- A report that is not due is not made. -/
theorem reports_of_early (h : ∀ r ∈ w.reporters, r.running = true → w.now < r.next) :
    w.reports = (w, []) := by
  have early : ∀ r ∈ w.reporters, w.report r = (r, []) := by
    intro r hr
    unfold report
    refine if_pos ?_
    cases hrun : r.running with
    | false => rfl
    | true => simp [h r hr hrun]
  have hmap : w.reporters.map w.report = w.reporters.map fun r => (r, []) :=
    List.map_congr_left early
  unfold reports
  rw [hmap]
  simp [Function.comp_def]

theorem moment_of_quiet (hrest : w.firstTurn = none) (hp : w.Punctual)
    (hall : ∀ y ∈ w.timers, w.now < y → x < y) : w.moment x = ({ w with now := x }, []) := by
  have hreports : reports { w with now := x } = ({ w with now := x }, []) :=
    reports_of_early fun r hr hrun => hall _ (next_mem_timers hr hrun) (hp r hr hrun)
  rw [moment, hreports, andThen, settle_of_firstTurn (rest_of_pass hrest hall)]
  rfl

theorem advanceWithin_of_none (h : w.nextTimer? t = none) :
    advanceWithin n w t = ({ w with now := t }, []) := by
  cases n with
  | zero => rfl
  | succ n => rw [advanceWithin, h]

/-- Where nobody waits for anything, it makes no difference to have looked at the clock. -/
theorem advanceWithin_of_quiet (hlt : w.now < x) (hall : ∀ y ∈ w.timers, w.now < y → x < y) :
    advanceWithin n { w with now := x } t = advanceWithin n w t := by
  have hnext : ({ w with now := x } : World).nextTimer? t = w.nextTimer? t := by
    unfold nextTimer?
    refine congrArg List.min? (List.filter_congr fun y hy => ?_)
    have hiff : x < y ↔ w.now < y := ⟨fun h => Nat.lt_trans hlt h, hall y hy⟩
    show (decide (x < y) && decide (y ≤ t)) = (decide (w.now < y) && decide (y ≤ t))
    rw [decide_eq_decide.2 hiff]
  cases n with
  | zero => rfl
  | succ n => rw [advanceWithin, advanceWithin, hnext]

/-- **Time passes by way of any moment before the next that is waited for.** -/
theorem advanceWithin_moment (hrest : w.firstTurn = none) (hp : w.Punctual) (hlt : w.now < x)
    (hxt : x ≤ t) (hmin : ∀ y ∈ w.timers, w.now < y → x ≤ y) (hn : t - w.now ≤ n) :
    ∃ m, t - x ≤ m ∧
      advanceWithin n w t = andThen (w.moment x) fun w' => advanceWithin m w' t := by
  by_cases hx : x ∈ w.timers
  · obtain ⟨n, rfl⟩ : ∃ m, n = m + 1 := ⟨n - 1, by omega⟩
    refine ⟨n, by omega, ?_⟩
    rw [advanceWithin, nextTimer?_of_least hx hlt hxt hmin]
    rfl
  · have hall : ∀ y ∈ w.timers, w.now < y → x < y := fun y hy hlty =>
      Nat.lt_of_le_of_ne (hmin y hy hlty) fun he => hx (he ▸ hy)
    refine ⟨n, by omega, ?_⟩
    rw [moment_of_quiet hrest hp hall, andThen, advanceWithin_of_quiet hlt hall]
    rfl

/-! ## Reports are made in time -/

theorem settleWithin_aside (n : Nat) (w : World) :
    (settleWithin n w).1.reporters = w.reporters ∧ (settleWithin n w).1.now = w.now ∧
      (settleWithin n w).1.hub.policy = w.hub.policy := by
  induction n generalizing w with
  | zero => exact ⟨rfl, rfl, rfl⟩
  | succ n ih =>
    rw [settleWithin]
    split
    · exact ⟨rfl, rfl, rfl⟩
    · next w' es hf =>
      obtain ⟨i, u, hu⟩ := exists_of_firstTurn hf
      obtain ⟨l, l', h', -, rfl, hT⟩ := turn_cases hu
      obtain ⟨hr, hn, hp⟩ := ih (w.put i l' h')
      exact ⟨hr, hn, hp.trans hT.work.later.policy⟩

/-- A report that is made in time puts off the next one. -/
theorem punctual_reports (h : ∀ r ∈ w.reporters, r.running = true → w.now ≤ r.next)
    (hperiod : 0 < w.reportPeriod) : w.reports.1.Punctual := by
  intro r' hr' hrun
  obtain ⟨a, ha, rfl⟩ := List.mem_map.1 hr'
  obtain ⟨r, hr, rfl⟩ := List.mem_map.1 ha
  show w.now < (w.report r).1.next
  unfold report at hrun ⊢
  split
  · next hidle =>
    rw [if_pos hidle] at hrun
    simpa [show r.running = true from hrun] using hidle
  · next hdue =>
    rw [if_neg hdue] at hrun
    split
    · next hstop =>
      rw [if_pos hstop] at hrun
      cases hrun
    · simp only [Bool.or_eq_true, Bool.not_eq_true', decide_eq_true_eq, not_or, Bool.not_eq_false]
        at hdue
      have hle := h r hr hdue.1
      show w.now < r.next + w.reportPeriod
      omega

/-! ## Worlds between two moments -/

/-- Pings and reports lie apart, and no report is overdue. -/
structure Steady (w : World) : Prop where
  pings : lateness < w.pingPeriod
  reports : 0 < w.reportPeriod
  punctual : w.Punctual

/-- Besides, nothing is left to do. -/
structure Calm (w : World) : Prop extends Steady w where
  rest : w.firstTurn = none

theorem Steady.of_policy {w' : World} (a : w.Steady) (hp : w'.hub.policy = w.hub.policy)
    (hpunctual : w'.Punctual) : w'.Steady where
  pings := by
    rw [pingPeriod, hp]
    exact a.pings
  reports := by
    rw [reportPeriod, hp]
    exact a.reports
  punctual := hpunctual

theorem Steady.settle (a : w.Steady) : w.settle.1.Calm := by
  obtain ⟨hsame, hnow, hpolicy⟩ := settleWithin_aside w.load w
  refine ⟨a.of_policy hpolicy fun r hr hrun => ?_, (rest_settle w a.pings).1⟩
  exact hnow ▸ a.punctual r (hsame ▸ hr) hrun

theorem Calm.moment (a : w.Calm) (hmin : ∀ y ∈ w.timers, w.now < y → x ≤ y) :
    (w.moment x).1.Calm := by
  have hreports : (World.reports { w with now := x }).1.Punctual :=
    punctual_reports (fun r hr hrun => hmin _ (next_mem_timers hr hrun) (a.punctual r hr hrun))
      a.reports
  have hsteady : (World.reports { w with now := x }).1.Steady := a.toSteady.of_policy rfl hreports
  exact hsteady.settle

theorem now_moment (w : World) (x : Nat) : (w.moment x).1.now = x :=
  (settleWithin_aside _ (reports { w with now := x }).1).2.1

theorem Calm.advanceWithin (n : Nat) (a : w.Calm) (hle : w.now ≤ t) (hn : t - w.now ≤ n) :
    (advanceWithin n w t).1.Calm := by
  obtain ⟨-, hrest, hnow⟩ := leads_advanceWithin n w t a.pings a.rest hle hn
  refine ⟨?_, hrest⟩
  clear hrest hnow
  induction n generalizing w with
  | zero =>
    obtain rfl : t = w.now := by omega
    exact a.toSteady
  | succ n ih =>
    rw [World.advanceWithin]
    cases hx : w.nextTimer? t with
    | none =>
      have hall := timers_of_nextTimer?_eq_none hx
      exact a.of_policy rfl fun r hr hrun =>
        hall _ (next_mem_timers hr hrun) (a.punctual r hr hrun)
    | some x =>
      obtain ⟨hlt, hxt⟩ := nextTimer?_bounds hx
      have hnow := w.now_moment x
      exact ih (w := (w.moment x).1) (a.moment (nextTimer?_least hx)) (by omega) (by omega)

theorem Calm.advance (a : w.Calm) (hle : w.now ≤ t) :
    (w.advance t).1.Calm ∧ (w.advance t).1.now = t :=
  ⟨a.advanceWithin _ hle (Nat.le_refl _),
    (leads_advanceWithin _ w t a.pings a.rest hle (Nat.le_refl _)).2.2⟩

theorem reporters_of_act (w : World) {a : Action} (h : a ≠ .startStatus) :
    (w.act a).world.reporters = w.reporters := by
  have onClient : ∀ {name : String} {f : Link → Result},
      (∀ l, (f l).world.reporters = w.reporters) →
      (w.onClient name f).world.reporters = w.reporters := by
    intro name f hf
    unfold World.onClient
    split
    · exact hf _
    · rfl
  have given : ∀ {b : Bool} {name : String} {f : Link → Link},
      (if b then w.update name f else w).reporters = w.reporters := by
    intro b name f
    cases b <;> rfl
  cases a with
  | connect d =>
    obtain ha | ⟨p, k, h, es, hW, hw, -⟩ := w.connect_cases d
    · rw [act, ha]
    · rw [act, hw]
  | send | silence | resume => exact onClient fun _ => given
  | drop | breakWrites => exact onClient fun _ => rfl
  | request =>
    simp only [act, request]
    split <;> rfl
  | evict p =>
    simp only [act]
    split <;> rfl
  | startStatus => exact absurd rfl h
  | wait | status | health | shutdown | statusRunning | unregister | interrupt => rfl

theorem Steady.act (a : w.Steady) (x : Action) : (w.act x).world.Steady := by
  have hpolicy := (w.undergo_work (.act x)).later.policy
  refine a.of_policy hpolicy ?_
  by_cases hx : x = .startStatus
  · subst hx
    refine punctual_reports (w := { w with reporters := w.reporters ++ [⟨w.now, true⟩] })
      (fun r hr hrun => ?_) a.reports
    rcases List.mem_append.1 hr with hr | hr
    · exact Nat.le_of_lt (a.punctual r hr hrun)
    · have hnext := congrArg Reporter.next (List.mem_singleton.1 hr)
      exact Nat.le_of_eq hnext.symm
  · obtain hnow | ⟨ms, hms⟩ := w.undergo_now (.act x)
    · intro r hr hrun
      rw [w.reporters_of_act hx] at hr
      exact hnow ▸ a.punctual r hr hrun
    · cases hms

theorem Calm.step (a : w.Calm) (x : Action) : (w.step x).world.Calm := by
  have hsettle := (a.act x).settle
  obtain ⟨hpass, -⟩ := hsettle.advance (Nat.le_add_right _ (duration x))
  rw [step_eq]
  simp only [follow, undergo, andThen_fst]
  exact (hpass.advance (Nat.le_add_right _ tick)).1

theorem Calm.now_step (a : w.Calm) (x : Action) :
    (w.step x).world.now = (w.act x).world.now + duration x + tick := by
  have hsettle := (a.act x).settle
  have hsame : (w.act x).world.settle.1.now = (w.act x).world.now :=
    (settleWithin_aside _ (w.act x).world).2.1
  obtain ⟨hpass, hthen⟩ := hsettle.advance (Nat.le_add_right _ (duration x))
  rw [step_eq]
  simp only [follow, undergo, andThen_fst]
  rw [(hpass.advance (Nat.le_add_right _ tick)).2, hthen, hsame]

theorem Calm.run (a : w.Calm) (as : List Action) : (run w as).Calm := by
  induction as generalizing w with
  | nil => exact a
  | cons x as ih =>
    rw [run_cons]
    exact ih (a.step x)

/-- The running relay is calm whenever it is looked at. -/
theorem calm_start (s : RelaySettings) (site : Http.Site) :
    (start (.ofSettings s) site).Calm where
  pings := by
    have hone : 1 ≤ max s.pingInterval.toNat 1 := Nat.le_max_right _ _
    show 5 < max s.pingInterval.toNat 1 * 1000
    omega
  reports := by
    have hone : 1 ≤ max s.statusInterval.toNat 1 := Nat.le_max_right _ _
    show 0 < max s.statusInterval.toNat 1 * 1000
    omega
  punctual := nofun
  rest := rfl

end Switchboard.Relay.World
