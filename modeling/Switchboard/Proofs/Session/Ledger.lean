import Switchboard.Proofs.Session.Queues

/-!
# The ledger of a queue

Each step of a run has a number.  The numbers of the steps that deliver to a connection tell, with
what was taken since, which frames wait for it and which were handed out: each of them is the frame
of one of these steps, in their order.

    delivered c s steps = the frames of the steps landings c s steps
    waiting c           = the frames of the steps pending c s steps
-/

namespace Switchboard

/-! ## Mailboxes without a reading end -/

/-- Nothing waits where the reading end was thrown away. -/
def Mailbox.Vacant (m : Mailbox) : Prop := m.outlet = .gone → m.frames = []

namespace Hub

/-- Nothing waits in a mailbox whose reading end was thrown away. -/
def Vacant (h : Hub) : Prop := ∀ c m, h.box? c = some m → m.Vacant

variable {h : Hub}

theorem Vacant.waiting (hv : h.Vacant) {c : ConnId} (hg : h.gone c = true) : h.waiting c = [] := by
  cases hm : h.box? c with
  | none =>
    unfold Hub.waiting
    rw [hm]
    rfl
  | some m =>
    rw [gone_of_box? hm] at hg
    rw [waiting_of_box? hm]
    exact hv c m hm (of_decide_eq_true hg)

theorem Vacant.of_boxes (hv : h.Vacant) {h' : Hub} (hb : h'.boxes = h.boxes) : h'.Vacant := by
  intro c m hm
  unfold box? at hm
  rw [hb] at hm
  exact hv c m hm

theorem Vacant.openBox (hv : h.Vacant) (p : PeerId) (n : Nat) : (h.openBox p n).Vacant := by
  intro c m hm
  rw [box?_openBox] at hm
  split at hm
  · obtain rfl := Option.some.inj hm
    exact fun _ => rfl
  · exact hv c m hm

theorem Vacant.updateBox (hv : h.Vacant) (c : ConnId) {g : Mailbox → Mailbox}
    (hg : ∀ m, h.box? c = some m → (g m).Vacant) : (h.updateBox c g).Vacant := by
  intro d m hm
  rw [box?_updateBox] at hm
  split at hm
  · next hd =>
    subst hd
    obtain ⟨m₀, hm₀, rfl⟩ := Option.map_eq_some_iff.1 hm
    exact hg m₀ hm₀
  · exact hv d m hm

theorem Vacant.requestClose (hv : h.Vacant) (c : ConnId) : (h.requestClose c).Vacant :=
  hv.updateBox c fun m hm => hv c m hm

theorem Vacant.shut (hv : h.Vacant) (c : ConnId) : (h.updateBox c Mailbox.shut).Vacant := by
  apply hv.updateBox c
  intro m hm hgone
  apply hv c m hm
  cases ho : m.outlet with
  | gone => rfl
  | «open» | closed => simp [Mailbox.shut, ho] at hgone

theorem Vacant.discard (hv : h.Vacant) (c : ConnId) : (h.updateBox c Mailbox.discard).Vacant :=
  hv.updateBox c fun _ _ _ => rfl

theorem Vacant.leave (hv : h.Vacant) (p : PeerId) (c : ConnId) : (h.leave p c).Vacant := by
  unfold Hub.leave
  split
  · exact hv.of_boxes rfl
  · exact hv

theorem Vacant.enter (hv : h.Vacant) (p : PeerId) (c : ConnId) : (h.enter p c).1.Vacant := by
  obtain ⟨-, he⟩ | ⟨old, -, -, he⟩ | ⟨old, -, -, he⟩ := h.enter_cases p c <;> rw [he]
  · exact hv.of_boxes rfl
  · exact hv
  · have ht : ({ h with table := h.table.insert p c } : Hub).Vacant := hv.of_boxes rfl
    exact ht.requestClose old

theorem Vacant.register (hv : h.Vacant) (p : PeerId) (n : Nat) : (h.register p n).1.Vacant := by
  have henter := (hv.openBox p n).enter p h.fresh
  unfold Hub.register
  split
  · next h' evicted he =>
    rw [he] at henter
    cases evicted with
    | none => exact henter.of_boxes rfl
    | some old => exact henter.of_boxes rfl
  · exact hv.of_boxes rfl

theorem Vacant.deliver (hv : h.Vacant) (c : ConnId) (f : Frame) : (h.deliver c f).1.Vacant := by
  obtain ⟨m, hm, hr, hd⟩ | ⟨r, -, hd⟩ := h.deliver_cases c f <;> rw [hd]
  · apply hv.updateBox c
    intro _ _ hgone
    have hopen := ((m.refusal?_eq_none_iff).1 hr).2.1
    exact absurd (hopen.symm.trans hgone) (by decide)
  · exact hv

theorem Vacant.receive (hv : h.Vacant) (c : ConnId) (most : Option Nat) :
    (h.receive c most).2.Vacant := by
  unfold Hub.receive
  cases hm : h.box? c with
  | none => exact hv
  | some m =>
    apply hv.updateBox c
    intro _ _ hgone
    show m.frames.drop _ = []
    rw [hv c m hm hgone, List.drop_nil]

theorem Vacant.route (hv : h.Vacant) (bound : PeerId) (f : Frame) :
    (h.route bound f).1.Vacant := by
  obtain ⟨e, c, m, -, -, hm, hr, he⟩ | ⟨k, r, he, -⟩ := h.route_cases bound f <;> rw [he]
  · have hput := hv.deliver c f
    obtain ⟨m', hm', -, hd⟩ | ⟨r, hn, -⟩ := h.deliver_cases c f
    · rw [hd] at hput
      obtain rfl := Option.some.inj (hm.symm.trans hm')
      exact hput.of_boxes rfl
    · rw [hn m hm] at hr
      cases hr
  · exact hv.of_boxes rfl

end Hub

namespace Session

theorem vacant_endGuard {s : State} (hv : s.hub.Vacant) (r : Record) :
    (s.endGuard r).hub.Vacant := by
  unfold State.endGuard
  split
  · exact hv.leave r.peer r.conn
  · exact hv

theorem vacant_keep {s : State} (hv : s.hub.Vacant) (r : Record) : (s.keep r).hub.Vacant := by
  unfold State.keep
  split
  · exact hv
  · next old _ => exact (vacant_endGuard hv old).discard old.conn

theorem vacant_register {s : State} (hv : s.hub.Vacant) (name : String) (p : PeerId)
    (capacity : Option Nat) : (register s name p capacity).state.hub.Vacant := by
  have hregister := hv.register p (capacityOr s capacity)
  unfold register
  rcases hr : s.hub.register p (capacityOr s capacity) with ⟨h', ⟨t⟩ | ⟨done⟩⟩
  · rw [hr] at hregister
    exact hregister
  · rw [hr] at hregister
    exact vacant_keep (s := { s with hub := h' }) hregister _

theorem vacant_enter {s : State} (hv : s.hub.Vacant) (r : Record) (guarded : Bool) :
    (enter s r guarded).state.hub.Vacant := by
  have henter := hv.enter r.peer r.conn
  unfold enter
  rcases he : s.hub.enter r.peer r.conn with ⟨h', ⟨t⟩ | ⟨evicted⟩⟩
  · exact hv
  · rw [he] at henter
    cases guarded with
    | false => exact henter
    | true => exact vacant_endGuard (s := { s with hub := h' }) henter r

theorem vacant_onRecord {s : State} (hv : s.hub.Vacant) (r : Record) (st : Step) :
    (onRecord s r st).state.hub.Vacant := by
  cases st with
  | insert n => exact vacant_enter hv r false
  | acquire n => exact vacant_enter hv r true
  | unregisterConnection n p => exact hv.leave _ r.conn
  | requestClose n => exact hv.requestClose r.conn
  | closeReceiver n => exact hv.shut r.conn
  | dropReceiver n => exact hv.discard r.conn
  | release n reason =>
    simp only [onRecord, release_state]
    split
    · exact (hv.leave r.peer r.conn).of_boxes rfl
    · exact hv
  | dropGuard n => exact vacant_endGuard hv r
  | deliver n f =>
    rw [onRecord, deliver_state]
    exact hv.deliver r.conn f
  | receive n most => exact hv.receive r.conn most
  | _ => exact hv

theorem vacant_step {s : State} (hv : s.hub.Vacant) (st : Step) : (step s st).state.hub.Vacant := by
  apply step_state_of (P := fun t => t.hub.Vacant)
  · exact hv
  · intro r _
    exact vacant_onRecord hv r st
  · intro hs
    cases st with
    | register name p capacity => exact vacant_register hv name p capacity
    | handle name p capacity =>
      exact vacant_keep (s := { s with hub := s.hub.openBox p _ }) (hv.openBox p _) _
    | route bound f => exact hv.route bound f
    | shutdown => exact hv.of_boxes rfl
    | unregister p =>
      show (unregister s p).state.hub.Vacant
      obtain he | he := unregister_state s p <;> rw [he]
      · exact hv.of_boxes rfl
      · exact hv
    | status | health | policy | count | contains | lookup => exact hv
    | _ => cases hs

theorem vacant_run {s : State} (hv : s.hub.Vacant) (steps : List Step) :
    (run s steps).hub.Vacant := by
  induction steps generalizing s with
  | nil => exact hv
  | cons st rest ih => exact ih (vacant_step hv st)

theorem vacant_start (p : Policy) : (start p).hub.Vacant := by
  intro c m hm
  cases hm

/-! ## Specification -/

/-- The frame that a step would put into a queue. -/
def Step.frame? : Step → Option Frame
  | .route _ f | .deliver _ f => some f
  | _ => none

/-- The frame of the step with this number. -/
def carried (steps : List Step) (n : Nat) : Option Frame := steps[n]?.bind Step.frame?

/-- The connection that gets the frame of a step. -/
def landing? (s : State) (st : Step) : Option ConnId := (handedOver s st).map (·.1)

/-- The numbers of the steps of a run that deliver to a connection, rising. -/
def landings (c : ConnId) : State → List Step → List Nat
  | _, [] => []
  | s, st :: rest =>
    let later := (landings c (step s st).state rest).map (· + 1)
    if landing? s st = some c then 0 :: later else later

/-- The steps whose frames wait for a connection: those that delivered to it, less as many as were
taken, and none if its reading end was thrown away. -/
def pending (c : ConnId) (s : State) (steps : List Step) : List Nat :=
  if (run s steps).hub.gone c then []
  else (landings c s steps).drop (taken c s steps).length

/-- These are the frames of the steps with these numbers. -/
def Lists (steps : List Step) (ns : List Nat) (fs : List Frame) : Prop :=
  ns.map (carried steps) = fs.map some

/-! ## Deliveries by number -/

theorem frame?_of_handedOver {s : State} {st : Step} {c : ConnId} {f : Frame}
    (h : handedOver s st = some (c, f)) : st.frame? = some f := by
  cases st with
  | route bound g =>
    obtain ⟨_, _, _, -, -, -, -, ho, -⟩ | ⟨ho, -⟩ := route_handedOver s bound g <;> rw [h] at ho
    · exact congrArg some (Prod.mk.inj (Option.some.inj ho)).2.symm
    · cases ho
  | deliver n g =>
    obtain ⟨_, _, -, -, ho, -⟩ | ⟨ho, -⟩ := deliver_handedOver s n g <;> rw [h] at ho
    · exact congrArg some (Prod.mk.inj (Option.some.inj ho)).2.symm
    · cases ho
  | _ => cases h

/-- What a step delivers to a connection is its frame, if it lands there. -/
theorem deliveredBy_eq (c : ConnId) (s : State) (st : Step) :
    (landing? s st = some c → ∃ f, st.frame? = some f ∧ deliveredBy c s st = [f]) ∧
      (landing? s st ≠ some c → deliveredBy c s st = []) := by
  unfold landing? deliveredBy
  cases ho : handedOver s st with
  | none => exact ⟨nofun, fun _ => rfl⟩
  | some x =>
    obtain ⟨d, f⟩ := x
    dsimp only [Option.map_some]
    refine ⟨fun hd => ?_, fun hd => if_neg fun h => hd (congrArg some h)⟩
    rw [if_pos (Option.some.inj hd)]
    exact ⟨f, frame?_of_handedOver ho, rfl⟩

theorem carried_succ (st : Step) (rest : List Step) (ns : List Nat) :
    (ns.map (· + 1)).map (carried (st :: rest)) = ns.map (carried rest) := by
  rw [List.map_map]
  exact List.map_congr_left fun _ _ => rfl

/-- **What is delivered to a connection are the frames of the steps that land there.** -/
theorem lists_delivered (c : ConnId) (s : State) (steps : List Step) :
    Lists steps (landings c s steps) (delivered c s steps) := by
  induction steps generalizing s with
  | nil => rfl
  | cons st rest ih =>
    have hrest := ih (step s st).state
    obtain ⟨hland, hmiss⟩ := deliveredBy_eq c s st
    unfold Lists at hrest ⊢
    rw [delivered_cons, landings]
    by_cases hc : landing? s st = some c
    · obtain ⟨f, hf, hd⟩ := hland hc
      have hfirst : carried (st :: rest) 0 = some f := hf
      rw [if_pos hc, hd, List.map_cons, carried_succ, hrest, hfirst]
      rfl
    · rw [if_neg hc, hmiss hc, carried_succ, hrest]
      rfl

theorem Lists.drop {steps : List Step} {ns : List Nat} {fs : List Frame} (h : Lists steps ns fs)
    (k : Nat) : Lists steps (ns.drop k) (fs.drop k) := by
  unfold Lists at *
  rw [List.map_drop, h, List.map_drop]

theorem Lists.take {steps : List Step} {ns : List Nat} {fs : List Frame} (h : Lists steps ns fs)
    (k : Nat) : Lists steps (ns.take k) (fs.take k) := by
  unfold Lists at *
  rw [List.map_take, h, List.map_take]

/-! ## What waits and what was taken -/

theorem takenBy_initial (c : ConnId) (s : State) (st : Step) :
    takenBy c s st <+: s.hub.waiting c := by
  by_cases hr : ∃ n k, st = .receive n k
  · obtain ⟨n, k, rfl⟩ := hr
    exact ⟨_, (receive_waiting c s n k).symm⟩
  · have hnone : takenBy c s st = [] := by
      unfold takenBy
      rw [handedOut_of_not_receive s st fun n k h => hr ⟨n, k, h⟩]
    rw [hnone]
    exact List.nil_prefix

section Start

variable (p : Policy) (c : ConnId) (steps : List Step)

/-- **What waits in a queue are the frames of the other steps that delivered to it.** -/
theorem lists_waiting :
    Lists steps (pending c (start p) steps) ((run (start p) steps).hub.waiting c) := by
  unfold pending
  by_cases hg : (run (start p) steps).hub.gone c = true
  · rw [if_pos hg, (vacant_run (vacant_start p) steps).waiting hg]
    rfl
  · rw [if_neg hg]
    have hqueue := taken_append_waiting c (start p) steps (Bool.eq_false_iff.2 hg)
    have hnone : (start p).hub.waiting c = [] := rfl
    rw [hnone, List.nil_append] at hqueue
    have hdrop := (lists_delivered c (start p) steps).drop (taken c (start p) steps).length
    rwa [← hqueue, List.drop_left] at hdrop

/-- What a step takes out of a queue are the first of the frames that wait there. -/
theorem lists_takenBy (st : Step) :
    Lists steps ((pending c (start p) steps).take (takenBy c (run (start p) steps) st).length)
      (takenBy c (run (start p) steps) st) := by
  have htake := (lists_waiting p c steps).take (takenBy c (run (start p) steps) st).length
  rwa [← List.prefix_iff_eq_take.1 (takenBy_initial c (run (start p) steps) st)] at htake

end Start

end Session

end Switchboard
