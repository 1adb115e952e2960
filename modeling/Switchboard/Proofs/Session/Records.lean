import Switchboard.Proofs.Hub.Growth
import Switchboard.Session

/-!
# What a session keeps

The records of a session have different names and different connections, each record names the
peer of its connection, and so does each entry of the table (`Kept`).  Steps that neither deliver
nor receive leave all that waits in place.

    Kept s → Kept (run s steps)
    st.movesFrames = false → s.hub.Still (step s st).state.hub
-/

namespace Switchboard.Session

/-- Steps that may put frames into mailboxes or take them out. -/
def Step.movesFrames : Step → Bool
  | .route .. | .deliver .. | .receive .. => true
  | _ => false

/-- The steps of a run, each with the state that it is taken in. -/
def trace (s : State) : List Step → List (State × Step)
  | [] => []
  | st :: rest => (s, st) :: trace (step s st).state rest

/-- Default settings, but that newcomers take over. -/
def evicting : Policy := Policy.ofSettings { duplicatePolicy := .evictExisting }

/-- A live guard for the connection `c` of the peer `p`. -/
def State.HoldsGuard (s : State) (p : PeerId) (c : ConnId) : Prop :=
  ∃ r ∈ s.records, r.peer = p ∧ r.conn = c ∧ r.guarded = true

structure Kept (s : State) : Prop where
  apart : s.records.Pairwise fun a b => a.name ≠ b.name ∧ a.conn ≠ b.conn
  bound : ∀ r ∈ s.records, s.hub.IsOf r.conn r.peer
  filed : s.hub.Filed

/-! ## Runs -/

theorem run_cons (s : State) (st : Step) (rest : List Step) :
    run s (st :: rest) = run (step s st).state rest := rfl

/-- A step of a run is taken where the steps before it lead. -/
theorem exists_of_mem_trace {s t : State} {st : Step} {steps : List Step}
    (h : (t, st) ∈ trace s steps) :
    ∃ before after, steps = before ++ st :: after ∧ t = run s before := by
  induction steps generalizing s with
  | nil => cases h
  | cons a rest ih =>
    rcases List.mem_cons.1 h with h | h
    · obtain ⟨rfl, rfl⟩ := Prod.mk.inj h
      exact ⟨[], rest, rfl, rfl⟩
    · obtain ⟨before, after, rfl, rfl⟩ := ih h
      exact ⟨a :: before, after, rfl, rfl⟩

/-! ## Records -/

theorem mem_of_find? {s : State} {name : String} {r : Record} (h : s.find? name = some r) :
    r ∈ s.records := List.mem_of_find?_eq_some h

theorem name_of_find? {s : State} {name : String} {r : Record} (h : s.find? name = some r) :
    r.name = name := by
  have hn := List.find?_some h
  simpa using hn

theorem ne_name_of_find?_none {s : State} {name : String} (h : s.find? name = none) :
    ∀ r ∈ s.records, r.name ≠ name := by
  intro r hr
  have hn := List.find?_eq_none.1 h r hr
  simpa using hn

theorem Kept.eq_of_name {s : State} (k : Kept s) {r q : Record} (hr : r ∈ s.records)
    (hq : q ∈ s.records) (hn : r.name = q.name) : r = q := by
  have h : s.records.Pairwise fun a b => a.name = b.name → a = b :=
    k.apart.imp fun hab he => absurd he hab.1
  have h' : s.records.Pairwise (flip fun a b => a.name = b.name → a = b) :=
    k.apart.imp fun hab he => absurd he.symm hab.1
  exact h.forall_of_forall_of_flip (fun _ _ _ => rfl) h' hr hq hn

theorem Kept.eq_of_conn {s : State} (k : Kept s) {r q : Record} (hr : r ∈ s.records)
    (hq : q ∈ s.records) (hc : r.conn = q.conn) : r = q := by
  have h : s.records.Pairwise fun a b => a.conn = b.conn → a = b :=
    k.apart.imp fun hab he => absurd he hab.2
  have h' : s.records.Pairwise (flip fun a b => a.conn = b.conn → a = b) :=
    k.apart.imp fun hab he => absurd he.symm hab.2
  exact h.forall_of_forall_of_flip (fun _ _ _ => rfl) h' hr hq hc

/-! ## Parts of steps -/

theorem Kept.withHub {s : State} (k : Kept s) {h : Hub} (hl : s.hub.Later h) (hf : h.Filed) :
    Kept { s with hub := h } :=
  ⟨k.apart, fun r hr => hl.isOf (k.bound r hr), hf⟩

theorem Kept.update {s : State} (k : Kept s) (name : String) (f : Record → Record)
    (hf : ∀ r, (f r).name = r.name ∧ (f r).peer = r.peer ∧ (f r).conn = r.conn) :
    Kept (s.update name f) := by
  have hg : ∀ r : Record, (if r.name = name then f r else r).name = r.name ∧
      (if r.name = name then f r else r).peer = r.peer ∧
      (if r.name = name then f r else r).conn = r.conn := by
    intro r
    split
    · exact hf r
    · exact ⟨rfl, rfl, rfl⟩
  refine ⟨?_, fun r hr => ?_, k.filed⟩
  · refine List.pairwise_map.2 (k.apart.imp fun {a b} hab => ?_)
    rw [(hg a).1, (hg b).1, (hg a).2.2, (hg b).2.2]
    exact hab
  · obtain ⟨q, hq, rfl⟩ := List.mem_map.1 hr
    rw [(hg q).2.1, (hg q).2.2]
    exact k.bound q hq

theorem still_endGuard (s : State) (r : Record) : s.hub.Still (s.endGuard r).hub := by
  unfold State.endGuard
  split
  · exact s.hub.still_leave r.peer r.conn
  · exact .refl s.hub

theorem records_endGuard (s : State) (r : Record) : (s.endGuard r).records = s.records := by
  unfold State.endGuard
  split <;> rfl

theorem lookup_of_lookup_endGuard {s : State} {r : Record} {p : PeerId} {c : ConnId}
    (hl : (s.endGuard r).hub.lookup p = some c) : s.hub.lookup p = some c := by
  unfold State.endGuard at hl
  split at hl
  · exact Hub.lookup_of_lookup_leave hl
  · exact hl

theorem Kept.endGuard {s : State} (k : Kept s) (r : Record) : Kept (s.endGuard r) := by
  have hl := (still_endGuard s r).toLater
  refine ⟨?_, fun q hq => ?_, hl.filed k.filed fun p c => lookup_of_lookup_endGuard⟩
  · rw [records_endGuard]
    exact k.apart
  · rw [records_endGuard] at hq
    exact hl.isOf (k.bound q hq)

theorem still_discard (h : Hub) (c : ConnId) : h.Still (h.updateBox c Mailbox.discard) :=
  h.still_updateBox c _ (fun m _ => m.later_discard) fun _ _ hg => absurd rfl hg

theorem still_keep (s : State) (r : Record) : s.hub.Still (s.keep r).hub := by
  unfold State.keep
  split
  · exact .refl s.hub
  · next old _ => exact (still_endGuard s old).trans (still_discard _ old.conn)

theorem lookup_of_lookup_keep {s : State} {r : Record} {p : PeerId} {c : ConnId}
    (hl : (s.keep r).hub.lookup p = some c) : s.hub.lookup p = some c := by
  unfold State.keep at hl
  split at hl
  · exact hl
  · exact lookup_of_lookup_endGuard hl

/-- A kept record is one among others, and takes the place of the one that had its name. -/
theorem Kept.keep {s : State} (k : Kept s) {r : Record} (hb : s.hub.IsOf r.conn r.peer)
    (hn : ∀ q ∈ s.records, q.conn ≠ r.conn) : Kept (s.keep r) := by
  have hl := (still_keep s r).toLater
  refine ⟨?_, fun q hq => ?_, hl.filed k.filed fun p c => lookup_of_lookup_keep⟩
  · unfold State.keep
    split
    · next hf =>
      refine List.pairwise_append.2 ⟨k.apart, List.pairwise_singleton _ _, fun a ha b hb => ?_⟩
      rw [List.mem_singleton.1 hb]
      exact ⟨ne_name_of_find?_none hf a ha, hn a ha⟩
    · next old _ =>
      simp only [records_endGuard]
      refine List.pairwise_map.2 (k.apart.imp_of_mem fun {a b} ha hb hab => ?_)
      split
      · next ha' =>
        rw [if_neg (fun e => hab.1 (ha'.trans e.symm))]
        exact ⟨fun e => hab.1 (ha'.trans e), (hn b hb).symm⟩
      · split
        · next hb' => exact ⟨fun e => hab.1 (e.trans hb'.symm), hn a ha⟩
        · exact hab
  · have hq' : q = r ∨ q ∈ s.records := by
      unfold State.keep at hq
      split at hq
      · rcases List.mem_append.1 hq with hq | hq
        · exact .inr hq
        · exact .inl (List.mem_singleton.1 hq)
      · simp only [records_endGuard] at hq
        obtain ⟨a, ha, rfl⟩ := List.mem_map.1 hq
        split
        · exact .inl rfl
        · exact .inr ha
    rcases hq' with rfl | hq'
    · exact hl.isOf hb
    · exact hl.isOf (k.bound q hq')

/-! ## Steps -/

/-- What registering can come to: a new connection with its guard, or a refusal. -/
theorem register_cases (s : State) (name : String) (p : PeerId) (capacity : Option Nat) :
    (∃ h', s.hub.register p (capacityOr s capacity) = (h', .ok ⟨s.hub.fresh, s.hub.lookup p⟩) ∧
      (s.hub.openBox p (capacityOr s capacity)).Entered p s.hub.fresh h' ∧
      (register s name p capacity).state =
        State.keep { s with hub := h' } ⟨name, p, s.hub.fresh, true⟩ ∧
      (register s name p capacity).answer = .done) ∨
    (∃ old, s.hub.lookup p = some old ∧ s.hub.policy.duplicates = .rejectNew ∧
      s.hub.register p (capacityOr s capacity) = (s.hub.tally .rejection, .error ⟨p⟩) ∧
      (register s name p capacity).state = { s with hub := s.hub.tally .rejection } ∧
      (register s name p capacity).answer = .taken ⟨p⟩) := by
  unfold register
  obtain ⟨h', he, hen⟩ | ⟨old, hl, hd, he⟩ :=
    s.hub.register_entered p (capacityOr s capacity)
  · rw [he]
    exact .inl ⟨h', rfl, hen, rfl, rfl⟩
  · rw [he]
    exact .inr ⟨old, hl, hd, rfl, rfl, rfl⟩

/-- What entering a record's connection can come to. -/
theorem enter_cases (s : State) (r : Record) (guarded : Bool) :
    (∃ h', s.hub.Entered r.peer r.conn h' ∧
      (enter s r guarded).state =
        if guarded then
          (State.endGuard { s with hub := h' } r).update r.name fun q => { q with guarded := true }
        else { s with hub := h' }) ∨
    (enter s r guarded).state = s := by
  unfold enter
  obtain ⟨h', he, hen⟩ | ⟨old, -, -, he⟩ := s.hub.enter_entered r.peer r.conn
  · rw [he]
    refine .inl ⟨h', hen, ?_⟩
    cases guarded <;> rfl
  · rw [he]
    exact .inr rfl

theorem release_state (s : State) (r : Record) (reason : CloseReason) :
    (release s r reason).state =
      if r.guarded then
        { s with hub := s.hub.release r.peer r.conn }.update r.name
          fun q => { q with guarded := false }
      else s := by
  unfold release
  split <;> rfl

theorem deliver_state (s : State) (r : Record) (f : Frame) :
    (deliver s r f).state = { s with hub := (s.hub.deliver r.conn f).1 } := by
  unfold deliver
  obtain ⟨m, -, -, hd⟩ | ⟨e, -, hd⟩ := s.hub.deliver_cases r.conn f
  · rw [hd]
    rfl
  · rw [hd]
    rfl

theorem still_release (h : Hub) (p : PeerId) (c : ConnId) : h.Still (h.release p c) :=
  (h.still_leave p c).trans (Hub.still_tally _ .disconnection)

theorem still_onRecord (s : State) (r : Record) (st : Step) (h : st.movesFrames = false) :
    s.hub.Still (onRecord s r st).state.hub := by
  cases st with
  | insert n =>
    obtain ⟨h', hen, he⟩ | he := enter_cases s r false <;> simp only [onRecord, he]
    · exact hen.still
    · exact .refl s.hub
  | acquire n =>
    obtain ⟨h', hen, he⟩ | he := enter_cases s r true <;> simp only [onRecord, he]
    · exact hen.still.trans (still_endGuard { s with hub := h' } r)
    · exact .refl s.hub
  | unregisterConnection n p => exact s.hub.still_leave _ r.conn
  | requestClose n => exact s.hub.still_requestClose r.conn
  | closeReceiver n => exact s.hub.still_updateBox r.conn _ (fun m _ => m.later_shut) fun _ _ _ => rfl
  | dropReceiver n => exact still_discard s.hub r.conn
  | release n reason =>
    simp only [onRecord, release_state]
    split
    · exact still_release s.hub r.peer r.conn
    · exact .refl s.hub
  | dropGuard n => exact still_endGuard s r
  | deliver | receive => cases h
  | _ => exact .refl s.hub

theorem later_onRecord (s : State) (r : Record) (st : Step) :
    s.hub.Later (onRecord s r st).state.hub := by
  cases hm : st.movesFrames with
  | false => exact (still_onRecord s r st hm).toLater
  | true =>
    cases st with
    | deliver n f =>
      rw [onRecord, deliver_state]
      exact s.hub.later_deliver r.conn f
    | receive n most => exact s.hub.later_receive r.conn most
    | route => exact .refl s.hub
    | _ => cases hm

/-- A step on a record is no step at all if there is none of that name. -/
theorem step_of_subject (s : State) (st : Step) (n : String) (h : st.subject = some n) :
    step s st =
      match s.find? n with
      | some r => onRecord s r st
      | none => tell s .unknownName := by
  cases st <;> simp only [Step.subject, reduceCtorEq, Option.some.injEq] at h <;> subst h <;> rfl

/-- What holds of the state before a step holds after it, if the steps on records keep it and so do
those that are on none. -/
theorem step_state_of {P : State → Prop} {s : State} {st : Step} (h : P s)
    (hr : ∀ r ∈ s.records, P (onRecord s r st).state)
    (hn : st.subject = none → P (step s st).state) : P (step s st).state := by
  cases hs : st.subject with
  | none => exact hn hs
  | some n =>
    rw [step_of_subject s st n hs]
    cases hf : s.find? n with
    | none => exact h
    | some r => exact hr r (mem_of_find? hf)

theorem unregister_state (s : State) (p : PeerId) :
    (unregister s p).state = { s with hub := s.hub.unregister p } ∨ (unregister s p).state = s := by
  unfold unregister
  split
  · exact .inr rfl
  · exact .inl rfl

theorem still_register (s : State) (name : String) (p : PeerId) (capacity : Option Nat) :
    s.hub.Still (register s name p capacity).state.hub := by
  obtain ⟨h', -, hen, he, -⟩ | ⟨old, -, -, -, he, -⟩ := register_cases s name p capacity <;> rw [he]
  · exact ((s.hub.still_openBox p _).trans hen.still).trans (still_keep { s with hub := h' } _)
  · exact s.hub.still_tally .rejection

theorem still_handle (s : State) (name : String) (p : PeerId) (capacity : Option Nat) :
    s.hub.Still (handle s name p capacity).state.hub :=
  (s.hub.still_openBox p _).trans (still_keep { s with hub := s.hub.openBox p _ } _)

/-- Only deliveries and receipts touch what waits. -/
theorem still_step (s : State) (st : Step) (h : st.movesFrames = false) :
    s.hub.Still (step s st).state.hub := by
  apply step_state_of (P := fun t => s.hub.Still t.hub)
  · exact .refl s.hub
  · intro r _
    exact still_onRecord s r st h
  · intro hs
    cases st with
    | register name p capacity => exact still_register s name p capacity
    | handle name p capacity => exact still_handle s name p capacity
    | shutdown => exact Hub.still_of_boxes rfl rfl
    | unregister p =>
      show s.hub.Still (unregister s p).state.hub
      obtain he | he := unregister_state s p <;> rw [he]
      · exact Hub.still_of_boxes rfl rfl
      · exact .refl s.hub
    | status | health | policy | count | contains | lookup => exact .refl s.hub
    | route => cases h
    | _ => cases hs

theorem route_state (s : State) (bound : PeerId) (f : Frame) :
    (step s (.route bound f)).state = { s with hub := (s.hub.route bound f).1 } := rfl

theorem later_step (s : State) (st : Step) : s.hub.Later (step s st).state.hub := by
  cases hm : st.movesFrames with
  | false => exact (still_step s st hm).toLater
  | true =>
    apply step_state_of (P := fun t => s.hub.Later t.hub)
    · exact .refl s.hub
    · intro r _
      exact later_onRecord s r st
    · intro hs
      cases st with
      | route bound f =>
        rw [route_state]
        exact s.hub.later_route bound f
      | deliver | receive => cases hs
      | _ => cases hm

theorem later_run (s : State) (steps : List Step) : s.hub.Later (run s steps).hub := by
  induction steps generalizing s with
  | nil => exact .refl s.hub
  | cons st rest ih => exact (later_step s st).trans (ih _)

/-! ## What is kept by every run -/

/-- The table does not change, or loses entries. -/
theorem Kept.narrow {s : State} (k : Kept s) {h : Hub} (hl : s.hub.Later h)
    (ht : ∀ p c, h.lookup p = some c → s.hub.lookup p = some c) : Kept { s with hub := h } :=
  k.withHub hl (hl.filed k.filed ht)

theorem Kept.not_fresh {s : State} (k : Kept s) {r : Record} (hr : r ∈ s.records) :
    r.conn ≠ s.hub.fresh := Nat.ne_of_lt (k.bound r hr).lt

/-- The hub of a session after a registration came about. -/
theorem Kept.entered {s : State} (k : Kept s) {p : PeerId} {n : Nat} {h : Hub}
    (he : (s.hub.openBox p n).Entered p s.hub.fresh h) : Kept { s with hub := h } := by
  have ho := s.hub.still_openBox p n
  have hf : (s.hub.openBox p n).Filed := ho.toLater.filed k.filed fun _ _ => id
  exact k.withHub (ho.trans he.still).toLater (he.filed hf (s.hub.isOf_openBox p n))

theorem Kept.register {s : State} (k : Kept s) (name : String) (p : PeerId)
    (capacity : Option Nat) : Kept (register s name p capacity).state := by
  obtain ⟨h', -, hen, he, -⟩ | ⟨old, -, -, -, he, -⟩ := register_cases s name p capacity <;> rw [he]
  · have hi := hen.still.toLater.isOf (s.hub.isOf_openBox p (capacityOr s capacity))
    exact (k.entered hen).keep hi fun q hq => k.not_fresh hq
  · exact k.narrow (s.hub.still_tally .rejection).toLater fun _ _ => id

theorem Kept.handle {s : State} (k : Kept s) (name : String) (p : PeerId)
    (capacity : Option Nat) : Kept (handle s name p capacity).state := by
  have k' : Kept { s with hub := s.hub.openBox p (capacityOr s capacity) } :=
    k.narrow (s.hub.still_openBox p _).toLater fun _ _ => id
  exact k'.keep (s.hub.isOf_openBox p _) fun q hq => k.not_fresh hq

theorem Kept.enter {s : State} (k : Kept s) {r : Record} (hr : r ∈ s.records) (guarded : Bool) :
    Kept (enter s r guarded).state := by
  obtain ⟨h', hen, he⟩ | he := enter_cases s r guarded <;> rw [he]
  · have k' : Kept { s with hub := h' } :=
      k.withHub hen.still.toLater (hen.filed k.filed (k.bound r hr))
    split
    · exact (k'.endGuard r).update _ _ fun _ => ⟨rfl, rfl, rfl⟩
    · exact k'
  · exact k

theorem Kept.release {s : State} (k : Kept s) (r : Record) (reason : CloseReason) :
    Kept (release s r reason).state := by
  rw [release_state]
  split
  · have k' : Kept { s with hub := s.hub.release r.peer r.conn } :=
      k.narrow (still_release s.hub r.peer r.conn).toLater fun _ _ => Hub.lookup_of_lookup_leave
    exact k'.update _ _ fun _ => ⟨rfl, rfl, rfl⟩
  · exact k

theorem Kept.onRecord {s : State} (k : Kept s) {r : Record} (hr : r ∈ s.records) (st : Step) :
    Kept (onRecord s r st).state := by
  have hl := later_onRecord s r st
  cases st with
  | insert n => exact k.enter hr false
  | acquire n => exact k.enter hr true
  | unregisterConnection n p => exact k.narrow hl fun _ _ => Hub.lookup_of_lookup_leave
  | requestClose n => exact k.narrow hl fun _ _ => id
  | deliver n f =>
    rw [Session.onRecord, deliver_state] at hl ⊢
    refine k.narrow hl fun p c h => ?_
    rw [← h, Hub.lookup_deliver]
  | receive n most =>
    refine k.narrow hl fun p c h => ?_
    rw [← h]
    exact (s.hub.lookup_receive r.conn most p).symm
  | closeReceiver n => exact k.narrow hl fun _ _ => id
  | dropReceiver n => exact k.narrow hl fun _ _ => id
  | release n reason => exact k.release r reason
  | dropGuard n => exact (k.endGuard r).update _ _ fun _ => ⟨rfl, rfl, rfl⟩
  | _ => exact k

theorem Kept.step {s : State} (k : Kept s) (st : Step) : Kept (step s st).state := by
  have hl := later_step s st
  apply step_state_of k
  · intro r hr
    exact k.onRecord hr st
  · intro hs
    cases st with
    | register name p capacity => exact k.register name p capacity
    | handle name p capacity => exact k.handle name p capacity
    | route bound f =>
      rw [route_state]
      refine k.narrow hl fun p c h => ?_
      rw [← h, Hub.lookup_route]
    | shutdown => exact k.narrow hl fun _ _ => id
    | unregister p =>
      simp only [Session.step] at hl ⊢
      obtain he | he := unregister_state s p <;> rw [he] at hl ⊢
      · exact k.narrow hl fun _ _ => Hub.lookup_of_lookup_unregister
      · exact k
    | status | health | policy | count | contains | lookup => exact k
    | _ => cases hs

theorem kept_start (p : Policy) : Kept (start p) where
  apart := .nil
  bound r hr := by cases hr
  filed q c h := by cases h

theorem Kept.run {s : State} (k : Kept s) (steps : List Step) : Kept (run s steps) := by
  induction steps generalizing s with
  | nil => exact k
  | cons st rest ih => exact ih (k.step st)

end Switchboard.Session
