import Switchboard.Proofs.Hub.Tallies
import Switchboard.Proofs.Session.Records

/-!
# What a session counts

The answer to a step tells what was counted for it, so the counters of a run are those of the things
its answers tell (`counters_run`).  Of the frames this gives a balance: as many were received as
there were routing steps, and each of them was forwarded, unroutable, dropped or a violation, as its
answer says.

    (run s steps).hub.counters = s.hub.counters.countAll (bill s steps)
    received = forwarded + unroutable + dropped + violations
-/

namespace Switchboard.Session

/-- Steps that route a frame. -/
def Step.isRoute : Step → Bool
  | .route .. => true
  | _ => false

/-- What came of the frame that a step routes, as its answer says. -/
def routedBy (s : State) (st : Step) : Option (Except Violation Outcome) :=
  match st, (step s st).answer with
  | .route .., .routed o => some (.ok o)
  | .route .., .violated v => some (.error v)
  | _, _ => none

/-- What came of the frames that a run routes, in order. -/
def routings (s : State) (steps : List Step) : List (Except Violation Outcome) :=
  (trace s steps).filterMap fun m => routedBy m.1 m.2

/-- What a step with this answer counts; a registration may put somebody else out. -/
def tallies (evicts : Bool) : Step → Answer → List Tally
  | .register .., .done => if evicts then [.eviction, .connection] else [.connection]
  | .register .., .taken _ => [.rejection]
  | .route .., .routed o => routeTallies (.ok o)
  | .route .., .violated v => routeTallies (.error v)
  | .release .., .done => [.disconnection]
  | _, _ => []

/-- The step registers an identifier that is in use. -/
def evicts (s : State) : Step → Bool
  | .register _ p _ => (s.hub.lookup p).isSome
  | _ => false

/-- What a step counts, as its answer says. -/
def billOf (s : State) (st : Step) : List Tally := tallies (evicts s st) st (step s st).answer

/-- What a run counts, in order. -/
def bill (s : State) (steps : List Step) : List Tally :=
  (trace s steps).flatMap fun m => billOf m.1 m.2

/-! ## One step -/

theorem bill_cons (s : State) (st : Step) (rest : List Step) :
    bill s (st :: rest) = billOf s st ++ bill (step s st).state rest := rfl

theorem routings_cons (s : State) (st : Step) (rest : List Step) :
    routings s (st :: rest) = (routedBy s st).toList ++ routings (step s st).state rest := by
  unfold routings
  rw [trace, List.filterMap_cons]
  cases routedBy s st <;> rfl

/-- A frame that is routed has an answer. -/
theorem routedBy_route (s : State) (bound : PeerId) (f : Frame) :
    routedBy s (.route bound f) = some (s.hub.route bound f).2 := by
  simp only [routedBy, step, route]
  cases (s.hub.route bound f).2 <;> rfl

theorem routedBy_of_not_route (s : State) (st : Step) (h : st.isRoute = false) :
    routedBy s st = none := by
  cases st <;> first | rfl | cases h

theorem counters_endGuard (s : State) (r : Record) :
    (s.endGuard r).hub.counters = s.hub.counters := by
  unfold State.endGuard
  split
  · exact s.hub.counters_leave r.peer r.conn
  · rfl

theorem counters_keep (s : State) (r : Record) : (s.keep r).hub.counters = s.hub.counters := by
  unfold State.keep
  split
  · rfl
  · exact counters_endGuard s _

theorem counters_registerStep (s : State) (name : String) (p : PeerId) (capacity : Option Nat) :
    (register s name p capacity).state.hub.counters =
      s.hub.counters.countAll (billOf s (.register name p capacity)) := by
  have hc := s.hub.counters_register p (capacityOr s capacity)
  simp only [billOf, evicts, step]
  obtain ⟨h', hr, -, he, ha⟩ | ⟨old, -, -, hr, he, ha⟩ := register_cases s name p capacity <;>
    rw [hr] at hc <;> rw [he, ha]
  · rw [counters_keep]
    exact hc
  · exact hc

theorem counters_enterStep (s : State) (r : Record) (guarded : Bool) :
    (enter s r guarded).state.hub.counters = s.hub.counters := by
  have hc := s.hub.counters_enter r.peer r.conn
  unfold enter
  split
  · rfl
  · next h' evicted he =>
    rw [he] at hc
    split
    · exact (counters_endGuard { s with hub := h' } r).trans hc
    · exact hc

/-- Of the steps on records, only a release counts anything. -/
theorem counters_onRecord (s : State) (r : Record) (st : Step) (evicts : Bool) :
    (onRecord s r st).state.hub.counters =
      s.hub.counters.countAll (tallies evicts st (onRecord s r st).answer) := by
  cases st with
  | release n reason =>
    simp only [onRecord, release]
    split
    · exact s.hub.counters_release r.peer r.conn
    · rfl
  | insert n => exact counters_enterStep s r false
  | acquire n => exact counters_enterStep s r true
  | unregisterConnection n p => exact s.hub.counters_leave _ r.conn
  | deliver n f =>
    rw [onRecord, deliver_state]
    exact s.hub.counters_deliver r.conn f
  | receive n most => exact s.hub.counters_receive r.conn most
  | dropGuard n => exact counters_endGuard s r
  | _ => rfl

/-- A step counts what its answer tells. -/
theorem counters_step (s : State) (st : Step) :
    (step s st).state.hub.counters = s.hub.counters.countAll (billOf s st) := by
  unfold billOf
  cases hs : st.subject with
  | some n =>
    rw [step_of_subject s st n hs]
    cases s.find? n with
    | none => cases st <;> rfl
    | some r => exact counters_onRecord s r st (evicts s st)
  | none =>
    cases st with
    | register name p capacity => exact counters_registerStep s name p capacity
    | handle name p capacity => exact counters_keep _ _
    | route bound f =>
      have hc := s.hub.counters_route bound f
      simp only [step, route]
      cases hr : (s.hub.route bound f).2 <;> rw [hr] at hc <;> exact hc
    | unregister p =>
      simp only [step]
      obtain he | he := unregister_state s p <;> rw [he] <;> rfl
    | status | health | shutdown | policy | count | contains | lookup => rfl
    | _ => cases hs

/-! ## Runs -/

theorem counters_run (s : State) (steps : List Step) :
    (run s steps).hub.counters = s.hub.counters.countAll (bill s steps) := by
  induction steps generalizing s with
  | nil => rfl
  | cons st rest ih =>
    calc (run s (st :: rest)).hub.counters
        = (step s st).state.hub.counters.countAll (bill (step s st).state rest) := ih _
      _ = (s.hub.counters.countAll (billOf s st)).countAll (bill (step s st).state rest) := by
          rw [counters_step]
      _ = s.hub.counters.countAll (bill s (st :: rest)) := by
          rw [bill_cons, Counters.countAll_append]

/-! ## Frames -/

/-- The counters that frames move. -/
def frameCounters (c : Counters) : List UInt64 :=
  [c.received, c.forwarded, c.unroutable, c.dropped, c.violations]

/-- The things that are counted for frames. -/
def frameTallies : List Tally := [.received, .forwarded, .unroutable, .dropped, .violation]

/-- Steps of other kinds count nothing that is counted for frames. -/
theorem not_frame_of_mem_tallies {evicts : Bool} {st : Step} {a : Answer} {t : Tally}
    (hst : st.isRoute = false) (ht : t ∈ tallies evicts st a) : t ∉ frameTallies := by
  have hcases : t = .eviction ∨ t = .connection ∨ t = .rejection ∨ t = .disconnection := by
    unfold tallies at ht
    split at ht
    · split at ht <;> simp at ht
      · exact ht.imp_right .inl
      · exact .inr (.inl ht)
    · exact .inr (.inr (.inl (List.mem_singleton.1 ht)))
    · cases hst
    · cases hst
    · exact .inr (.inr (.inr (List.mem_singleton.1 ht)))
    · cases ht
  rcases hcases with rfl | rfl | rfl | rfl <;> decide

/-- What is counted for frames was counted by routing steps. -/
theorem count_billOf (s : State) (st : Step) {k : Tally} (hk : k ∈ frameTallies) :
    (billOf s st).count k = ((routedBy s st).toList.flatMap routeTallies).count k := by
  cases hst : st.isRoute with
  | false =>
    rw [routedBy_of_not_route s st hst]
    exact List.count_eq_zero.2 fun hmem => not_frame_of_mem_tallies hst hmem hk
  | true =>
    cases st with
    | route bound f =>
      rw [routedBy_route]
      simp only [billOf, step, route]
      cases (s.hub.route bound f).2 <;> simp [tallies]
    | _ => cases hst

theorem frameCounters_count (c : Counters) {t : Tally} (ht : t ∉ frameTallies) :
    frameCounters (c.count t) = frameCounters c := by
  cases t <;> first | rfl | exact absurd (by decide) ht

theorem frameCounters_countAll (c : Counters) (ts : List Tally) (h : ∀ t ∈ ts, t ∉ frameTallies) :
    frameCounters (c.countAll ts) = frameCounters c := by
  induction ts generalizing c with
  | nil => rfl
  | cons t rest ih =>
    have hrest := ih (c.count t) fun u hu => h u (List.mem_cons_of_mem _ hu)
    exact hrest.trans (frameCounters_count c (h t List.mem_cons_self))

theorem count_bill (s : State) (steps : List Step) {k : Tally} (hk : k ∈ frameTallies) :
    (bill s steps).count k = ((routings s steps).flatMap routeTallies).count k := by
  induction steps generalizing s with
  | nil => rfl
  | cons st rest ih =>
    rw [bill_cons, routings_cons, List.count_append, List.flatMap_append, List.count_append,
      count_billOf s st hk, ih]

/-- Everything is counted once at most for a frame. -/
theorem count_flatMap_routeTallies (rs : List (Except Violation Outcome)) (k : Tally) :
    (rs.flatMap routeTallies).count k = rs.countP fun r => decide (k ∈ routeTallies r) := by
  induction rs with
  | nil => rfl
  | cons r rest ih =>
    have hr : (routeTallies r).count k = if k ∈ routeTallies r then 1 else 0 := by
      rcases r with v | ⟨dest⟩ | ⟨dest, why⟩ | ⟨dest⟩ <;> cases k <;> rfl
    rw [List.flatMap_cons, List.count_append, ih, hr, List.countP_cons, Nat.add_comm]
    simp only [decide_eq_true_eq]

/-- Every routing step has an answer. -/
theorem length_routings (s : State) (steps : List Step) :
    (routings s steps).length = steps.countP Step.isRoute := by
  induction steps generalizing s with
  | nil => rfl
  | cons st rest ih =>
    rw [routings_cons, List.length_append, ih, List.countP_cons, Nat.add_comm]
    congr 1
    cases hr : st.isRoute with
    | false =>
      rw [routedBy_of_not_route s st hr]
      rfl
    | true =>
      cases st with
      | route bound f =>
        rw [routedBy_route]
        rfl
      | _ => cases hr

/-- Every frame comes to one of four ends. -/
theorem length_eq_ends (rs : List (Except Violation Outcome)) :
    rs.length = rs.countP (· matches .ok (.forwarded _)) +
      rs.countP (· matches .ok (.unroutable ..)) + rs.countP (· matches .ok (.dropped _)) +
      rs.countP (· matches .error _) := by
  induction rs with
  | nil => rfl
  | cons r rest ih =>
    simp only [List.length_cons, List.countP_cons, ih]
    rcases r with v | ⟨dest⟩ | ⟨dest, why⟩ | ⟨dest⟩ <;> simp <;> omega

/-- A frame counter is the number of frames that its kind of thing was counted for. -/
theorem frameCounter_run {get : Counters → UInt64} {k : Tally} {q : Except Violation Outcome → Bool}
    (hk : k ∈ frameTallies)
    (hget : ∀ c t, get (c.count t) = if t = k then get c + 1 else get c) (h0 : get {} = 0)
    (hq : ∀ r, decide (k ∈ routeTallies r) = q r) (p : Policy) (steps : List Step) :
    get (run (start p) steps).hub.counters =
      UInt64.ofNat ((routings (start p) steps).countP q) := by
  have hstart : (start p).hub.counters = {} := rfl
  rw [counters_run, Counters.countAll_eq_add hget, count_bill _ _ hk, count_flatMap_routeTallies,
    hstart, h0, UInt64.zero_add]
  simp only [hq]

/-! ## Top theorem -/

/-- **The balance of frames.**  After any run, as many frames were received as there were routing
steps, and as many forwarded, unroutable, dropped or refused as those steps were answered so; the
received ones are all of these together, in words of 64 bits; and no step of another kind moves any
of these counters. -/
theorem frames_balance (p : Policy) (steps : List Step) :
    let k := (run (start p) steps).hub.counters
    let ends := routings (start p) steps
    k.received = k.forwarded + k.unroutable + k.dropped + k.violations ∧
    k.received = UInt64.ofNat (steps.countP Step.isRoute) ∧
    k.forwarded = UInt64.ofNat (ends.countP (· matches .ok (.forwarded _))) ∧
    k.unroutable = UInt64.ofNat (ends.countP (· matches .ok (.unroutable ..))) ∧
    k.dropped = UInt64.ofNat (ends.countP (· matches .ok (.dropped _))) ∧
    k.violations = UInt64.ofNat (ends.countP (· matches .error _)) ∧
    ∀ st : Step, st.isRoute = false →
      frameCounters (step (run (start p) steps) st).state.hub.counters = frameCounters k := by
  intro k ends
  have hreceived : k.received = UInt64.ofNat ends.length := by
    rw [← List.countP_true]
    exact frameCounter_run (k := .received) (by decide) (fun c t => by cases t <;> rfl) rfl
      (fun r => by cases r <;> rfl) p steps
  have hforwarded : k.forwarded = UInt64.ofNat (ends.countP (· matches .ok (.forwarded _))) :=
    frameCounter_run (k := .forwarded) (by decide) (fun c t => by cases t <;> rfl) rfl
      (by rintro (v | ⟨dest⟩ | ⟨dest, why⟩ | ⟨dest⟩) <;> rfl) p steps
  have hunroutable : k.unroutable = UInt64.ofNat (ends.countP (· matches .ok (.unroutable ..))) :=
    frameCounter_run (k := .unroutable) (by decide) (fun c t => by cases t <;> rfl) rfl
      (by rintro (v | ⟨dest⟩ | ⟨dest, why⟩ | ⟨dest⟩) <;> rfl) p steps
  have hdropped : k.dropped = UInt64.ofNat (ends.countP (· matches .ok (.dropped _))) :=
    frameCounter_run (k := .dropped) (by decide) (fun c t => by cases t <;> rfl) rfl
      (by rintro (v | ⟨dest⟩ | ⟨dest, why⟩ | ⟨dest⟩) <;> rfl) p steps
  have hviolations : k.violations = UInt64.ofNat (ends.countP (· matches .error _)) :=
    frameCounter_run (k := .violation) (by decide) (fun c t => by cases t <;> rfl) rfl
      (by rintro (v | ⟨dest⟩ | ⟨dest, why⟩ | ⟨dest⟩) <;> rfl) p steps
  refine ⟨?_, ?_, hforwarded, hunroutable, hdropped, hviolations, fun st hst => ?_⟩
  · rw [hreceived, hforwarded, hunroutable, hdropped, hviolations, length_eq_ends,
      UInt64.ofNat_add, UInt64.ofNat_add, UInt64.ofNat_add]
  · rw [hreceived, length_routings]
  · rw [counters_step]
    exact frameCounters_countAll _ _ fun t ht => not_frame_of_mem_tallies hst ht

end Switchboard.Session
