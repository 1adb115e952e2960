import Switchboard.Proofs.Session.Accounts
import Switchboard.Proofs.Session.Ownership

/-!
# The gauge of open connections

Registering raises the gauge and releasing lowers it; a guard that merely goes out of use takes its
entry with it and leaves the gauge alone.  So the gauge shows the live guards and, on top of them,
every guard that ever ended without a release, and is right exactly if there was none.

    gauge = live guards + guards that were dropped
-/

namespace Switchboard.Session

/-- The live guards. -/
def State.guards (s : State) : Nat := s.records.countP (·.guarded)

/-- The record of this name has a live guard. -/
def State.isGuarded (s : State) (name : String) : Bool := (s.find? name).any (·.guarded)

/-- The guards that a step ends without a release: one that is dropped, and one whose record gives
way to another of its name. -/
def droppedBy (s : State) (st : Step) : Nat :=
  match st, (step s st).answer with
  | .dropGuard n, _ | .handle n .., _ | .register n .., .done => (s.isGuarded n).toNat
  | _, _ => 0

/-- The guards that a run ends without a release. -/
def dropped (s : State) : List Step → Nat
  | [] => 0
  | st :: rest => droppedBy s st + dropped (step s st).state rest

/-! ## Counting guards -/

theorem dropped_cons (s : State) (st : Step) (rest : List Step) :
    dropped s (st :: rest) = droppedBy s st + dropped (step s st).state rest := rfl

/-- Exchanging one record for another of its name. -/
theorem Kept.countP_exchange {s : State} (k : Kept s) {r : Record} (hr : r ∈ s.records)
    (f : Record → Record) :
    (s.records.map fun q => if q.name = r.name then f q else q).countP (·.guarded) +
      r.guarded.toNat = s.guards + (f r).guarded.toNat := by
  obtain ⟨before, after, hsplit⟩ := List.append_of_mem hr
  have hout : ∀ q ∈ before ++ after, q.name ≠ r.name := by
    have happart : (before ++ r :: after).Pairwise fun a b => a.name ≠ b.name :=
      hsplit ▸ k.apart.imp fun h => h.1
    obtain ⟨-, hafter, hbefore⟩ := List.pairwise_append.1 happart
    intro q hq
    rcases List.mem_append.1 hq with hq | hq
    · exact hbefore q hq r List.mem_cons_self
    · exact ((List.pairwise_cons.1 hafter).1 q hq).symm
  have hid : ∀ l : List Record, (∀ q ∈ l, q ∈ before ++ after) →
      (l.map fun q => if q.name = r.name then f q else q) = l := by
    intro l hl
    refine (List.map_congr_left fun q hq => ?_).trans (List.map_id l)
    rw [if_neg (hout q (hl q hq)), id]
  unfold State.guards
  rw [hsplit, List.map_append, List.map_cons, hid before (by simp +contextual),
    hid after (by simp +contextual), if_pos rfl]
  simp only [List.countP_append, List.countP_cons]
  cases r.guarded <;> cases (f r).guarded <;> simp <;> omega

theorem isGuarded_of_find? {s : State} {name : String} {r : Record} (hf : s.find? name = some r) :
    s.isGuarded name = r.guarded := by
  simp only [State.isGuarded, hf, Option.any_some]

/-- A record that is kept takes the guard of the one that had its name. -/
theorem Kept.guards_keep {s : State} (k : Kept s) (r : Record) :
    (s.keep r).guards + (s.isGuarded r.name).toNat = s.guards + r.guarded.toNat := by
  cases hf : s.find? r.name with
  | none =>
    have hg : s.isGuarded r.name = false := by simp only [State.isGuarded, hf, Option.any_none]
    simp only [State.guards, State.keep, hf, hg, List.countP_append, List.countP_singleton]
    cases r.guarded <;> simp
  | some old =>
    have hc := k.countP_exchange (mem_of_find? hf) fun _ => r
    rw [name_of_find? hf] at hc
    rw [isGuarded_of_find? hf]
    simp only [State.guards, State.keep, hf, records_endGuard]
    exact hc

/-- A record that loses its guard. -/
theorem Kept.guards_clear {s : State} (k : Kept s) {r : Record} (hr : r ∈ s.records) (h : Hub) :
    (State.update { s with hub := h } r.name fun q => { q with guarded := false }).guards +
      r.guarded.toNat = s.guards := k.countP_exchange hr _

/-! ## The invariant -/

/-- The gauge shows the live guards and `d` others. -/
def Balanced (d : Nat) (s : State) : Prop := s.hub.counters.active.toNat = s.guards + d

theorem balanced_start (p : Policy) : Balanced 0 (start p) := rfl

/-- What a step does to the balance: of the guards that it makes, ends by a release and drops, the
gauge misses the dropped ones. -/
structure Shift (s : State) (st : Step) (s' : State) (made released : Nat) : Prop where
  guards : s'.guards + released + droppedBy s st = s.guards + made
  gauge : s.hub.counters.active.toNat + made < Bounds.word64 →
    released ≤ s.hub.counters.active.toNat →
    s'.hub.counters.active.toNat + released = s.hub.counters.active.toNat + made
  made_eq : made = (acceptedBy s st).toList.length
  released_le : released ≤ s.guards

/-- A step that leaves the guards and the gauge alone. -/
theorem shift_none {s s' : State} {st : Step} (hg : s'.guards = s.guards)
    (hc : s'.hub.counters.active = s.hub.counters.active) (hd : droppedBy s st = 0)
    (ha : acceptedBy s st = none) : Shift s st s' 0 0 where
  guards := by rw [hg, hd]
  gauge _ _ := by rw [hc]
  made_eq := by rw [ha]; rfl
  released_le := Nat.zero_le _

/-- A step that drops the guard of a record, if it has one. -/
theorem shift_drop {s s' : State} {st : Step} (name : String)
    (hg : s'.guards + (s.isGuarded name).toNat = s.guards)
    (hc : s'.hub.counters.active = s.hub.counters.active)
    (hd : droppedBy s st = (s.isGuarded name).toNat) (ha : acceptedBy s st = none) :
    Shift s st s' 0 0 where
  guards := by rw [hd]; exact hg
  gauge _ _ := by rw [hc]
  made_eq := by rw [ha]; rfl
  released_le := Nat.zero_le _

theorem shift_register {s : State} (k : Kept s) (name : String) (p : PeerId)
    (capacity : Option Nat) :
    ∃ made, Shift s (.register name p capacity) (register s name p capacity).state made 0 := by
  have hc := counters_registerStep s name p capacity
  obtain ⟨h', hr, hen, he, ha⟩ | ⟨old, -, -, hr, he, ha⟩ := register_cases s name p capacity
  · have hd : droppedBy s (.register name p capacity) = (s.isGuarded name).toNat := by
      simp only [droppedBy, step, ha]
    have hacc : acceptedBy s (.register name p capacity) = some (p, s.hub.fresh) := by
      simp only [acceptedBy, hr]
    refine ⟨1, ?_, fun hlt _ => ?_, by rw [hacc]; rfl, Nat.zero_le _⟩
    · rw [he, hd]
      exact (k.entered hen).guards_keep ⟨name, p, s.hub.fresh, true⟩
    · have hbill : (s.hub.counters.countAll (billOf s (.register name p capacity))).active =
          (s.hub.counters.count .connection).active := by
        simp only [billOf, tallies, step, ha]
        split <;> rfl
      rw [hc, hbill, Nat.add_zero]
      exact Counters.toNat_active_connection _ hlt
  · refine ⟨0, shift_none ?_ ?_ ?_ ?_⟩
    · rw [he]
      rfl
    · rw [he]
      rfl
    · simp only [droppedBy, step, ha]
    · simp only [acceptedBy, hr]

theorem shift_release {s : State} (k : Kept s) {r : Record} (hr : r ∈ s.records) (n : String)
    (reason : CloseReason) :
    ∃ released, Shift s (.release n reason) (release s r reason).state 0 released := by
  have hd : droppedBy s (.release n reason) = 0 := rfl
  rw [release_state]
  cases hg : r.guarded with
  | false => exact ⟨0, shift_none rfl rfl hd rfl⟩
  | true =>
    have hclear := k.guards_clear hr (s.hub.release r.peer r.conn)
    rw [hg] at hclear
    refine ⟨1, ?_, fun _ hle => ?_, rfl, ?_⟩
    · rw [hd]
      exact hclear
    · have hc : (s.hub.release r.peer r.conn).counters = s.hub.counters.count .disconnection :=
        s.hub.counters_release r.peer r.conn
      simp only [State.update, if_true, hc, Counters.toNat_active_disconnection]
      omega
    · rw [← hclear]
      exact Nat.le_add_left ..

theorem shift_onRecord {s : State} (k : Kept s) (st : Step) {n : String} {r : Record}
    (hs : st.subject = some n) (hf : s.find? n = some r) (hn : ∀ m, st ≠ .acquire m) :
    ∃ released, Shift s st (onRecord s r st).state 0 released := by
  have hr := mem_of_find? hf
  have quiet : ∀ {st' : Step}, (onRecord s r st').state.records = s.records →
      (onRecord s r st').state.hub.counters = s.hub.counters → droppedBy s st' = 0 →
      acceptedBy s st' = none → ∃ released, Shift s st' (onRecord s r st').state 0 released :=
    fun hrec hc hd ha => ⟨0, shift_none (congrArg (List.countP _) hrec) (by rw [hc]) hd ha⟩
  cases st with
  | acquire m => exact absurd rfl (hn m)
  | insert m =>
    refine quiet ?_ (counters_enterStep s r false) rfl rfl
    obtain ⟨h', -, he⟩ | he := enter_cases s r false <;> simp [onRecord, he]
  | unregisterConnection m p => exact quiet rfl (s.hub.counters_leave _ r.conn) rfl rfl
  | deliver m f =>
    refine quiet ?_ ?_ rfl rfl <;> rw [onRecord, deliver_state]
    exact s.hub.counters_deliver r.conn f
  | receive m most => exact quiet rfl (s.hub.counters_receive r.conn most) rfl rfl
  | release m reason => exact shift_release k hr m reason
  | dropGuard m =>
    cases hs
    refine ⟨0, shift_drop n ?_ ?_ rfl rfl⟩
    · rw [isGuarded_of_find? hf]
      have hclear := k.guards_clear hr (s.endGuard r).hub
      simp only [State.guards, State.update] at hclear
      simp only [onRecord, tell, State.guards, State.update, records_endGuard]
      exact hclear
    · exact congrArg Counters.active (counters_endGuard s r)
  | isCurrent | guardIsCurrent | cancelled | requestClose | closeReceiver | dropReceiver =>
    exact quiet rfl rfl rfl rfl
  | _ => cases hs

theorem shift_step {s : State} (k : Kept s) (st : Step) (hn : ∀ n, st ≠ .acquire n) :
    ∃ made released, Shift s st (step s st).state made released := by
  cases hs : st.subject with
  | some n =>
    rw [step_of_subject s st n hs]
    cases hf : s.find? n with
    | some r => exact ⟨0, shift_onRecord k st hs hf hn⟩
    | none =>
      have hg : s.isGuarded n = false := by simp only [State.isGuarded, hf, Option.any_none]
      refine ⟨0, 0, shift_none rfl rfl ?_ ?_⟩
      · cases st with
        | dropGuard m =>
          cases hs
          simp only [droppedBy, hg, Bool.toNat_false]
        | register | handle => cases hs
        | _ => rfl
      · cases st with
        | register => cases hs
        | _ => rfl
  | none =>
    cases st with
    | register name p capacity =>
      obtain ⟨made, hmade⟩ := shift_register k name p capacity
      exact ⟨made, 0, hmade⟩
    | handle name p capacity =>
      have hopen : Kept { s with hub := s.hub.openBox p (capacityOr s capacity) } :=
        k.narrow (s.hub.still_openBox p _).toLater fun _ _ => id
      refine ⟨0, 0, shift_drop name ?_ ?_ rfl rfl⟩
      · exact hopen.guards_keep ⟨name, p, s.hub.fresh, false⟩
      · exact congrArg Counters.active (counters_keep _ _)
    | unregister p =>
      refine ⟨0, 0, shift_none ?_ ?_ rfl rfl⟩ <;> simp only [step] <;>
        obtain he | he := unregister_state s p <;> rw [he] <;> rfl
    | route bound f =>
      refine ⟨0, 0, shift_none rfl ?_ rfl rfl⟩
      rw [counters_step]
      simp only [billOf, step, route]
      rcases (s.hub.route bound f).2 with v | ⟨dest⟩ | ⟨dest, why⟩ | ⟨dest⟩ <;> rfl
    | status | health | shutdown | policy | count | contains | lookup =>
      exact ⟨0, 0, shift_none rfl rfl rfl rfl⟩
    | _ => cases hs

/-! ## Runs -/

theorem Balanced.step {d : Nat} {s : State} (k : Kept s) (b : Balanced d s) (st : Step)
    (hn : ∀ n, st ≠ .acquire n)
    (hlt : s.guards + d + (acceptedBy s st).toList.length < Bounds.word64) :
    Balanced (d + droppedBy s st) (step s st).state ∧
      (step s st).state.guards + (d + droppedBy s st) ≤
        s.guards + d + (acceptedBy s st).toList.length := by
  obtain ⟨made, released, h⟩ := shift_step k st hn
  have hguards := h.guards
  have hle := h.released_le
  unfold Balanced at b ⊢
  rw [← h.made_eq] at hlt ⊢
  have hgauge := h.gauge (by omega) (by omega)
  omega

theorem Balanced.run {d : Nat} {s : State} (k : Kept s) (b : Balanced d s) (steps : List Step)
    (hn : ∀ n, Step.acquire n ∉ steps)
    (hlt : s.guards + d + (accepted s steps).length < Bounds.word64) :
    Balanced (d + dropped s steps) (run s steps) := by
  induction steps generalizing d s with
  | nil => exact b
  | cons st rest ih =>
    rw [accepted_cons, List.length_append] at hlt
    have hst : ∀ n, st ≠ .acquire n := fun n he => hn n (he ▸ List.mem_cons_self)
    obtain ⟨hb, hle⟩ := b.step k st hst (by omega)
    rw [dropped_cons, ← Nat.add_assoc]
    exact ih (k.step st) hb (fun n hmem => hn n (List.mem_cons_of_mem _ hmem)) (by omega)

/-! ## Top theorem -/

/-- **What the gauge shows.**  After any run in which guards come from registrations alone, fewer
than a word can count, the gauge shows the live guards and all guards that were dropped; so it shows
the live guards if and only if every guard that ended was released. -/
theorem active_eq_guards_add_dropped (p : Policy) (steps : List Step)
    (hn : ∀ n, Step.acquire n ∉ steps)
    (hlt : (accepted (start p) steps).length < Bounds.word64) :
    (run (start p) steps).hub.counters.active.toNat =
      (run (start p) steps).guards + dropped (start p) steps ∧
    ((run (start p) steps).hub.counters.active.toNat = (run (start p) steps).guards ↔
      dropped (start p) steps = 0) := by
  have hstart : (start p).guards = 0 := rfl
  have hb := (balanced_start p).run (kept_start p) steps hn (by omega)
  rw [Nat.zero_add] at hb
  refine ⟨hb, ?_⟩
  rw [hb]
  omega

/-- Two guards, the first of which is released. -/
def releasedAndKept : List Step :=
  [.register "a" 1 none, .register "b" 2 none, .release "a" .clientClosed]

theorem active_releasedAndKept :
    (∀ n, Step.acquire n ∉ releasedAndKept) ∧
    (accepted (start evicting) releasedAndKept).length < Bounds.word64 ∧
    (run (start evicting) releasedAndKept).hub.counters.active.toNat = 1 := by
  have hn : ∀ n, Step.acquire n ∉ releasedAndKept := by simp [releasedAndKept]
  have hlt : (accepted (start evicting) releasedAndKept).length < Bounds.word64 := by decide
  have hg : (run (start evicting) releasedAndKept).guards = 1 := by decide
  have hd : dropped (start evicting) releasedAndKept = 0 := by decide
  have h := (active_eq_guards_add_dropped evicting releasedAndKept hn hlt).2.2 hd
  exact ⟨hn, hlt, h.trans hg⟩

/-- A guard that is dropped leaves the gauge where it was. -/
theorem active_ne_guards_of_dropped :
    (run (start evicting) [.register "a" 1 none, .dropGuard "a"]).guards = 0 ∧
    (run (start evicting) [.register "a" 1 none, .dropGuard "a"]).hub.lookup 1 = none ∧
    (run (start evicting) [.register "a" 1 none, .dropGuard "a"]).hub.counters.active = 1 := by
  decide

end Switchboard.Session
