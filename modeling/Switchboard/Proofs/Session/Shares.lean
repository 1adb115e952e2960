import Mathlib.Data.List.Find
import Switchboard.Proofs.Hub.Shares
import Switchboard.Proofs.Session.Recount

/-!
# What one peer has in a session

The share of a peer is a session of its own, with the peer's share of the hub and the peer's
records.  If each name stands for one peer, an operation touches one peer at most: in its share the
operation does what it does in the whole session, and the shares of all others stay as they are.

    st.touches home = some i →
      (step s st).state.share i = (step (s.share i) st).state.recount {}
    st.touches home ≠ some i → (step s st).state.share i = s.share i
-/

namespace Switchboard.Session

/-! ## Definitions -/

/-- The seven operations; registrations are made under names that stand for their peers. -/
def Step.operates (home : String → PeerId) : Step → Bool
  | .register name p _ => home name == p
  | .release .. | .dropGuard .. | .unregister .. | .unregisterConnection .. | .requestClose ..
  | .route .. => true
  | _ => false

/-- The peer that an operation touches: the one it names, the one its connection is of, or the one
that its frame is addressed to. -/
def Step.touches (home : String → PeerId) : Step → Option PeerId
  | .register _ p _ | .unregister p => some p
  | .release name _ | .dropGuard name | .requestClose name => some (home name)
  | .unregisterConnection name p => some (p.getD (home name))
  | .route bound f =>
    match Hub.accept bound f with
    | .ok e => some e.recipient
    | .error _ => none
  | _ => none

/-- Every record is under a name that stands for its peer. -/
def State.Homed (home : String → PeerId) (s : State) : Prop :=
  ∀ r ∈ s.records, r.peer = home r.name

/-- A record with its connection numbered anew. -/
def Record.renumber (ρ : ConnId → ConnId) (r : Record) : Record := { r with conn := ρ r.conn }

/-- What the peer `i` has in a session. -/
def State.share (s : State) (i : PeerId) : State where
  hub := s.hub.share i
  records := (s.records.filter (·.peer == i)).map (·.renumber (s.hub.rank i))

variable {home : String → PeerId} {s : State} {i : PeerId} {r : Record}

/-! ## Records in a share -/

/-- What is looked for passes the filter. -/
theorem find?_filter_of_imp {α : Type} {p q : α → Bool} {l : List α}
    (h : ∀ x ∈ l, q x = true → p x = true) : (l.filter p).find? q = l.find? q := by
  rw [List.find?_filter]
  refine List.find?_congr fun x hx => ?_
  rw [Bool.eq_iff_iff, decide_eq_true_iff]
  exact and_iff_right_of_imp (h x hx)

theorem find?_share (hh : s.Homed home) (name : String) :
    (s.share (home name)).find? name =
      (s.find? name).map (·.renumber (s.hub.rank (home name))) := by
  have hown : ∀ q ∈ s.records, (q.name == name) = true → (q.peer == home name) = true := by
    intro q hq hn
    rw [beq_iff_eq] at hn ⊢
    rw [hh q hq, hn]
  unfold State.find?
  rw [← find?_filter_of_imp hown]
  exact List.find?_map

theorem find?_share_of_ne (hh : s.Homed home) {name : String} (hi : home name ≠ i) :
    (s.share i).find? name = none := by
  refine List.find?_eq_none.2 fun q hq hn => hi ?_
  obtain ⟨r, hr, rfl⟩ := List.mem_map.1 hq
  obtain ⟨hmem, hpeer⟩ := List.mem_filter.1 hr
  have hname : r.name = name := beq_iff_eq.1 hn
  rw [← beq_iff_eq.1 hpeer, hh r hmem, hname]

theorem nameOf_share (k : Kept s) {c : ConnId} (hc : s.hub.IsOf c i) :
    (s.share i).nameOf (s.hub.rank i c) = s.nameOf c := by
  have hown : ∀ q ∈ s.records, (q.conn == c) = true → (q.peer == i) = true := by
    intro q hq hn
    rw [beq_iff_eq] at hn ⊢
    exact (k.bound q hq).unique (hn ▸ hc)
  have hnumber : ∀ q ∈ s.records.filter (·.peer == i),
      (s.hub.rank i q.conn == s.hub.rank i c) = (q.conn == c) := by
    intro q hq
    obtain ⟨hmem, hpeer⟩ := List.mem_filter.1 hq
    have hq' : s.hub.IsOf q.conn i := beq_iff_eq.1 hpeer ▸ k.bound q hmem
    exact Bool.eq_iff_iff.2 (by simpa using Hub.rank_inj hq' hc)
  have hfind := (List.find?_congr hnumber).trans (find?_filter_of_imp hown)
  unfold State.nameOf
  rw [← hfind, State.share, List.find?_map, Option.map_map]
  rfl

theorem share_withHub (k : Kept s) {h : Hub} (l : s.hub.Later h) :
    State.share { s with hub := h } i = { s.share i with hub := h.share i } := by
  have hrecords : (s.records.filter (·.peer == i)).map (·.renumber (h.rank i)) =
      (s.records.filter (·.peer == i)).map (·.renumber (s.hub.rank i)) := by
    refine List.map_congr_left fun q hq => ?_
    have hlt := (k.bound q (List.mem_filter.1 hq).1).lt
    simp only [Record.renumber, l.rank (Nat.le_of_lt hlt)]
  simp only [State.share, hrecords]

/-- Records that change and stay with their peers. -/
theorem filter_map_records {g : Record → Record} (hp : ∀ q ∈ s.records, (g q).peer = q.peer) :
    (s.records.map g).filter (·.peer == i) = (s.records.filter (·.peer == i)).map g := by
  rw [List.filter_map]
  refine congrArg (List.map g) (List.filter_congr fun q hq => ?_)
  simp only [Function.comp, hp q hq]

theorem share_map {g f : Record → Record} (hp : ∀ q ∈ s.records, (g q).peer = q.peer)
    (hg : ∀ q ∈ s.records, q.peer = i →
      (g q).renumber (s.hub.rank i) = f (q.renumber (s.hub.rank i))) :
    State.share { s with records := s.records.map g } i =
      { s.share i with records := (s.share i).records.map f } := by
  have hrenumber : ∀ q ∈ s.records.filter (·.peer == i),
      (g q).renumber (s.hub.rank i) = f (q.renumber (s.hub.rank i)) := by
    intro q hq
    obtain ⟨hmem, hpeer⟩ := List.mem_filter.1 hq
    exact hg q hmem (beq_iff_eq.1 hpeer)
  simp only [State.share, filter_map_records hp, List.map_map]
  exact congrArg (State.mk _) (List.map_congr_left hrenumber)

/-! ## Records that give way -/

/-- The guard of a record ends, and its reading end goes. -/
def State.retire (s : State) (r : Record) : State :=
  { s.endGuard r with hub := (s.endGuard r).hub.updateBox r.conn Mailbox.discard }

theorem records_retire (s : State) (r : Record) : (s.retire r).records = s.records :=
  records_endGuard s r

theorem later_retire (s : State) (r : Record) : s.hub.Later (s.retire r).hub :=
  ((still_endGuard s r).trans (still_discard (s.endGuard r).hub r.conn)).toLater

theorem keep_of_free (hf : s.find? r.name = none) :
    s.keep r = { s with records := s.records ++ [r] } := by
  unfold State.keep
  rw [hf]

/-- A record that takes the place of another of its name. -/
theorem keep_of_taken {old : Record} (hf : s.find? r.name = some old) :
    s.keep r = { s.retire old with
      records := (s.retire old).records.map fun q => if q.name = r.name then r else q } := by
  unfold State.keep
  rw [hf]
  rfl

/-! ## Guards and records of the peer -/

theorem share_endGuard (k : Kept s) (hb : s.hub.IsOf r.conn r.peer) :
    (s.endGuard r).share r.peer =
      (s.share r.peer).endGuard (r.renumber (s.hub.rank r.peer)) := by
  have hl := s.hub.still_leave r.peer r.conn
  unfold State.endGuard
  cases hg : r.guarded with
  | false =>
    simp [Record.renumber, hg]
  | true =>
    simp only [Record.renumber, hg, if_true]
    rw [share_withHub k hl.toLater, Hub.share_leave k.filed hb]
    rfl

theorem share_guarded (s : State) (i : PeerId) (name : String) (b : Bool) :
    (s.update name fun q => { q with guarded := b }).share i =
      (s.share i).update name fun q => { q with guarded := b } := by
  refine share_map (fun q _ => ?_) fun q _ _ => ?_
  · split <;> rfl
  · by_cases hq : q.name = name <;> simp [Record.renumber, hq]

theorem share_retire (k : Kept s) (hb : s.hub.IsOf r.conn r.peer) :
    (s.retire r).share r.peer = (s.share r.peer).retire (r.renumber (s.hub.rank r.peer)) := by
  have hlater := (still_endGuard s r).toLater
  have hrank : (s.endGuard r).hub.rank r.peer r.conn = s.hub.rank r.peer r.conn :=
    hlater.rank (Nat.le_of_lt hb.lt)
  have hbox := Hub.share_updateBox (hlater.isOf hb) (f := Mailbox.discard) fun _ _ => rfl
  have hhub := share_withHub (i := r.peer) (k.endGuard r)
    (still_discard (s.endGuard r).hub r.conn).toLater
  rw [hbox, hrank] at hhub
  unfold State.retire
  rw [hhub, ← share_endGuard k hb]
  rfl

/-- A record is kept in the share of its peer: the one that had its name is of the same peer. -/
theorem share_keep (k : Kept s) (hb : s.hub.IsOf r.conn r.peer) (hh : s.Homed home)
    (hn : r.peer = home r.name) :
    (s.keep r).share r.peer = (s.share r.peer).keep (r.renumber (s.hub.rank r.peer)) := by
  have hfind := find?_share hh r.name
  rw [← hn] at hfind
  cases hf : s.find? r.name with
  | none =>
    have hnone : (s.share r.peer).find? (r.renumber (s.hub.rank r.peer)).name = none := by
      rw [hf] at hfind
      exact hfind
    rw [keep_of_free hf, keep_of_free hnone]
    simp [State.share, List.filter_append]
  | some old =>
    have hmem := mem_of_find? hf
    have hpeer : old.peer = r.peer := by rw [hh old hmem, name_of_find? hf, hn]
    have hretire := share_retire k (k.bound old hmem)
    have hrank : (s.retire old).hub.rank r.peer r.conn = s.hub.rank r.peer r.conn :=
      (later_retire s old).rank (Nat.le_of_lt hb.lt)
    have hsome : (s.share r.peer).find? (r.renumber (s.hub.rank r.peer)).name =
        some (old.renumber (s.hub.rank r.peer)) := by
      rw [hf] at hfind
      exact hfind
    have hmap := share_map (s := s.retire old) (i := r.peer)
      (g := fun q => if q.name = r.name then r else q)
      (f := fun q => if q.name = r.name then r.renumber (s.hub.rank r.peer) else q)
      (fun q hq => ?_) fun q hq hq' => ?_
    · rw [hpeer] at hretire
      rw [hretire] at hmap
      rw [keep_of_taken hf, keep_of_taken hsome]
      exact hmap
    · rw [records_retire] at hq
      split
      · next hqn => rw [hn, hh q hq, hqn]
      · rfl
    · by_cases hqn : q.name = r.name <;> simp [Record.renumber, hqn, hrank]

/-! ## Operations in a share -/

/-- In the share of the peer `i` a step does what it does in the whole session. -/
structure Within (i : PeerId) (s : State) (st : Step) : Prop where
  state : (step s st).state.share i = (step (s.share i) st).state.recount {}
  answer : (step s st).answer = (step (s.share i) st).answer

theorem register_of_ok {name : String} {p : PeerId} {capacity : Option Nat} {h : Hub}
    {done : Registered} (hr : s.hub.register p (capacityOr s capacity) = (h, .ok done)) :
    register s name p capacity =
      ⟨State.keep { s with hub := h } ⟨name, p, done.conn, true⟩, .done,
        Hub.registerEvents p (.ok done)⟩ := by
  unfold register
  rw [hr]

theorem register_of_error {name : String} {p : PeerId} {capacity : Option Nat} {h : Hub}
    {t : Taken} (hr : s.hub.register p (capacityOr s capacity) = (h, .error t)) :
    register s name p capacity =
      ⟨{ s with hub := h }, .taken t, Hub.registerEvents p (.error t)⟩ := by
  unfold register
  rw [hr]

theorem within_register (k : Kept s) (hh : s.Homed home) {name : String} {p : PeerId}
    (hn : home name = p) (capacity : Option Nat) : Within p s (.register name p capacity) := by
  obtain ⟨hafter, hanswer⟩ := Hub.share_register (i := p) k.filed (capacityOr s capacity)
  have hwhole : step s (.register name p capacity) = register s name p capacity := rfl
  have hshare : step (s.share p) (.register name p capacity) =
    register (s.share p) name p capacity := rfl
  rcases hr : s.hub.register p (capacityOr s capacity) with ⟨h, a⟩
  rcases hr' : (s.hub.share p).register p (capacityOr s capacity) with ⟨h', a'⟩
  rw [hr, hr'] at hafter hanswer
  obtain rfl : a' = a.map (Registered.renumber (s.hub.rank p)) := hanswer
  cases a with
  | error t =>
    obtain rfl := Hub.refused_of_register hr
    rw [register_of_error hr] at hwhole
    rw [register_of_error (s := s.share p) hr'] at hshare
    refine ⟨?_, by rw [hwhole, hshare]⟩
    rw [hwhole, hshare, share_withHub k (s.hub.still_tally .rejection).toLater, ← hafter]
    rfl
  | ok done =>
    obtain ⟨hconn, hen⟩ := Hub.entered_of_register hr
    -- the connection is new, and the last one of its peer
    have hlater := ((s.hub.still_openBox p _).trans hen.still).toLater
    have hb : h.IsOf done.conn p := by
      rw [hconn]
      exact hen.still.toLater.isOf (s.hub.isOf_openBox p _)
    have hrank : h.rank p done.conn = s.hub.rank p done.conn := by
      rw [hconn]
      exact hlater.rank (Nat.le_refl _)
    have hkeep := share_keep (r := ⟨name, p, done.conn, true⟩) (k.entered (hconn ▸ hen)) hb hh
      hn.symm
    rw [share_withHub k hlater, ← hafter] at hkeep
    simp only [Record.renumber, hrank] at hkeep
    rw [register_of_ok hr] at hwhole
    rw [register_of_ok (s := s.share p) hr'] at hshare
    refine ⟨?_, by rw [hwhole, hshare]⟩
    rw [hwhole, hshare]
    exact hkeep.trans (keep_recount { s.share p with hub := h' } {} _)

/-- A step on a record is one on the record's image in the share. -/
theorem within_of_subject (hh : s.Homed home) {name : String} {st : Step}
    (hs : st.subject = some name)
    (h : ∀ r, s.find? name = some r → r.peer = home name →
      (onRecord s r st).state.share (home name) =
        (onRecord (s.share (home name)) (r.renumber (s.hub.rank (home name))) st).state.recount {} ∧
      (onRecord s r st).answer =
        (onRecord (s.share (home name)) (r.renumber (s.hub.rank (home name))) st).answer) :
    Within (home name) s st := by
  have hfind := find?_share hh name
  have hwhole := step_of_subject s st name hs
  have hshare := step_of_subject (s.share (home name)) st name hs
  rw [hfind] at hshare
  cases hf : s.find? name with
  | none =>
    rw [hf] at hwhole hshare
    refine ⟨?_, ?_⟩ <;> rw [hwhole, hshare] <;> rfl
  | some r =>
    rw [hf] at hwhole hshare
    have hpeer : r.peer = home name := by rw [hh r (mem_of_find? hf), name_of_find? hf]
    obtain ⟨hstate, hanswer⟩ := h r hf hpeer
    exact ⟨by rw [hwhole, hshare]; exact hstate, by rw [hwhole, hshare]; exact hanswer⟩

theorem within_release (k : Kept s) (hh : s.Homed home) (name : String) (reason : CloseReason) :
    Within (home name) s (.release name reason) := by
  refine within_of_subject hh rfl fun r hf hpeer => ?_
  have hlater := (still_release s.hub r.peer r.conn).toLater
  have hhub := Hub.share_release k.filed (k.bound r (mem_of_find? hf))
  have hguarded : (r.renumber (s.hub.rank r.peer)).guarded = r.guarded := rfl
  rw [← hpeer]
  simp only [onRecord, release, hguarded]
  split
  · refine ⟨?_, rfl⟩
    rw [share_guarded, share_withHub k hlater, ← hhub]
    rfl
  · exact ⟨rfl, rfl⟩

theorem within_dropGuard (k : Kept s) (hh : s.Homed home) (name : String) :
    Within (home name) s (.dropGuard name) := by
  refine within_of_subject hh rfl fun r hf hpeer => ?_
  have hend := share_endGuard k (k.bound r (mem_of_find? hf))
  rw [← hpeer]
  refine ⟨?_, rfl⟩
  simp only [onRecord, tell]
  rw [share_guarded, hend]
  exact congrArg (State.update · r.name fun q => { q with guarded := false })
    (endGuard_recount (s.share r.peer) {} _)

theorem within_requestClose (k : Kept s) (hh : s.Homed home) (name : String) :
    Within (home name) s (.requestClose name) := by
  refine within_of_subject hh rfl fun r hf hpeer => ?_
  have hb := k.bound r (mem_of_find? hf)
  have hlater := (s.hub.still_requestClose r.conn).toLater
  rw [← hpeer]
  refine ⟨?_, rfl⟩
  simp only [onRecord, tell]
  rw [share_withHub k hlater]
  exact congrArg (State.mk · _) (Hub.share_updateBox hb fun _ _ => rfl)

theorem within_unregister (k : Kept s) (p : PeerId) : Within p s (.unregister p) := by
  have hlookup := s.hub.lookup_share p
  have hhub : (s.share p).hub = s.hub.share p := rfl
  cases hl : s.hub.lookup p with
  | none =>
    rw [hl] at hlookup
    refine ⟨?_, ?_⟩ <;> simp only [step, unregister, hhub, hl, hlookup] <;> rfl
  | some c =>
    rw [hl] at hlookup
    have hstill : s.hub.Still (s.hub.unregister p) := Hub.still_of_boxes rfl rfl
    refine ⟨?_, ?_⟩ <;> simp only [step, unregister, hhub, hl, hlookup, Option.map_some, tell]
    · rw [share_withHub k hstill.toLater, Hub.share_unregister]
      rfl
    · rw [nameOf_share k (k.filed p c hl)]

theorem within_unregisterConnection (k : Kept s) (hh : s.Homed home) {name : String}
    {p : Option PeerId} (hp : p.getD (home name) = home name) :
    Within (home name) s (.unregisterConnection name p) := by
  refine within_of_subject hh rfl fun r hf hpeer => ?_
  have hb := k.bound r (mem_of_find? hf)
  have hlater := (s.hub.still_leave r.peer r.conn).toLater
  rw [← hpeer] at hp ⊢
  have hp' : p.getD (r.renumber (s.hub.rank r.peer)).peer = r.peer := hp
  simp only [onRecord, tell, hp, hp']
  refine ⟨?_, ?_⟩
  · rw [share_withHub k hlater]
    exact congrArg (State.mk · _)
      ((Hub.share_leave k.filed hb).trans (Hub.leave_recount (s.hub.share r.peer) {} _ _))
  · exact congrArg Answer.truth (Hub.isCurrent_share k.filed hb).symm

theorem within_route (k : Kept s) {bound : PeerId} {f : Frame} {e : Envelope}
    (ha : Hub.accept bound f = .ok e) : Within e.recipient s (.route bound f) := by
  obtain ⟨hafter, hanswer⟩ := Hub.share_route k.filed ha
  have hlater := s.hub.later_route bound f
  constructor
  · rw [route_state, route_state, share_withHub k hlater]
    exact congrArg (State.mk · _) hafter.symm
  · simp only [step, route]
    rw [← hanswer]
    rfl

/-- The step asks for the entry of one peer to be removed for a connection of another. -/
def Step.strays (home : String → PeerId) : Step → Bool
  | .unregisterConnection name p => p.getD (home name) != home name
  | _ => false

theorem within_of_touches (k : Kept s) (hh : s.Homed home) {st : Step}
    (ho : st.operates home = true) (ht : st.touches home = some i)
    (hs : st.strays home = false) : Within i s st := by
  cases st with
  | register name p capacity =>
    obtain rfl := Option.some.inj ht
    exact within_register k hh (beq_iff_eq.1 ho) capacity
  | release name reason =>
    obtain rfl := Option.some.inj ht
    exact within_release k hh name reason
  | dropGuard name =>
    obtain rfl := Option.some.inj ht
    exact within_dropGuard k hh name
  | requestClose name =>
    obtain rfl := Option.some.inj ht
    exact within_requestClose k hh name
  | unregister p =>
    obtain rfl := Option.some.inj ht
    exact within_unregister k p
  | unregisterConnection name p =>
    have hp : p.getD (home name) = home name := by simpa [Step.strays] using hs
    have hi : p.getD (home name) = i := Option.some.inj ht
    obtain rfl := hp.symm.trans hi
    exact within_unregisterConnection k hh hp
  | route bound f =>
    simp only [Step.touches] at ht
    split at ht
    · next e ha =>
      obtain rfl := Option.some.inj ht
      exact within_route k ha
    · cases ht
  | _ => cases ho

/-- No connection is entered for another peer than its own, so nothing is removed. -/
theorem step_of_strays (k : Kept s) (hh : s.Homed home) {name : String} {p : Option PeerId}
    (hp : p.getD (home name) ≠ home name) :
    step s (.unregisterConnection name p) =
      tell s (if (s.find? name).isSome then .truth false else .unknownName) := by
  rw [step_of_subject s _ name rfl]
  cases hf : s.find? name with
  | none => rfl
  | some r =>
    have hpeer : r.peer = home name := by rw [hh r (mem_of_find? hf), name_of_find? hf]
    have hno : s.hub.isCurrent (p.getD r.peer) r.conn = false := by
      rw [hpeer, Hub.isCurrent, beq_eq_false_iff_ne]
      intro hl
      have howner := (k.filed _ _ hl).unique (k.bound r (mem_of_find? hf))
      exact hp (howner.trans hpeer)
    simp [onRecord, Hub.leave, hno]

/-- In the share of the peer that it touches an operation does what it does in the whole session. -/
theorem share_of_touches (k : Kept s) (hh : s.Homed home) {st : Step}
    (ho : st.operates home = true) (ht : st.touches home = some i) :
    (step s st).state.share i = (step (s.share i) st).state.recount {} := by
  cases hs : st.strays home with
  | false => exact (within_of_touches k hh ho ht hs).state
  | true =>
    cases st with
    | unregisterConnection name p =>
      have hp : p.getD (home name) ≠ home name := by simpa [Step.strays] using hs
      obtain rfl := Option.some.inj ht
      rw [step_of_strays k hh hp, step_of_subject _ _ name rfl,
        find?_share_of_ne hh (Ne.symm hp)]
      rfl
    | _ => cases hs

/-! ## Operations outside a share -/

/-- Nothing of the peer `i` has changed. -/
structure Spares (i : PeerId) (s s' : State) : Prop where
  hub : Hub.Spares i s.hub s'.hub
  records : s'.records.filter (·.peer == i) = s.records.filter (·.peer == i)

theorem Spares.refl (i : PeerId) (s : State) : Spares i s s := ⟨.refl i s.hub, rfl⟩

theorem Spares.trans {s' s'' : State} (a : Spares i s s') (b : Spares i s' s'') : Spares i s s'' :=
  ⟨a.hub.trans b.hub, b.records.trans a.records⟩

theorem Spares.share {s' : State} (a : Spares i s s') (k : Kept s) (l : s.hub.Later s'.hub) :
    s'.share i = s.share i := by
  have hs := share_withHub (i := i) k l
  rw [a.hub.share k.filed l] at hs
  refine Eq.trans ?_ hs
  simp only [State.share, a.records]

/-- Records of others change and stay with their peers. -/
theorem spares_map {g : Record → Record} (hp : ∀ q ∈ s.records, (g q).peer = q.peer)
    (hg : ∀ q ∈ s.records, q.peer = i → g q = q) :
    Spares i s { s with records := s.records.map g } := by
  refine ⟨.refl i s.hub, ?_⟩
  have hsame : ∀ q ∈ s.records.filter (·.peer == i), g q = q := by
    intro q hq
    obtain ⟨hmem, hpeer⟩ := List.mem_filter.1 hq
    exact hg q hmem (beq_iff_eq.1 hpeer)
  rw [filter_map_records hp, List.map_congr_left hsame, List.map_id']

theorem spares_endGuard (hi : r.peer ≠ i) : Spares i s (s.endGuard r) := by
  unfold State.endGuard
  split
  · exact ⟨Hub.spares_leave hi s.hub r.conn, rfl⟩
  · exact .refl i s

theorem spares_guarded (hh : s.Homed home) {name : String} (hi : home name ≠ i) (b : Bool) :
    Spares i s (s.update name fun q => { q with guarded := b }) := by
  refine spares_map (fun q _ => ?_) fun q hq hq' => ?_
  · split <;> rfl
  · rw [if_neg]
    rintro rfl
    exact hi (hh q hq ▸ hq')

theorem spares_retire (hb : s.hub.IsOf r.conn r.peer) (hi : r.peer ≠ i) :
    Spares i s (s.retire r) := by
  have hb' := (still_endGuard s r).toLater.isOf hb
  exact (spares_endGuard hi).trans ⟨Hub.spares_updateBox hi hb' fun _ _ => rfl, rfl⟩

theorem spares_keep (k : Kept s) (hh : s.Homed home) (hn : r.peer = home r.name)
    (hi : r.peer ≠ i) : Spares i s (s.keep r) := by
  cases hf : s.find? r.name with
  | none =>
    rw [keep_of_free hf]
    exact ⟨.refl i s.hub, by simp [List.filter_append, hi]⟩
  | some old =>
    have hmem := mem_of_find? hf
    have hpeer : old.peer = r.peer := by rw [hh old hmem, name_of_find? hf, hn]
    have hretire : Spares i s (s.retire old) := spares_retire (k.bound old hmem) (hpeer ▸ hi)
    rw [keep_of_taken hf]
    refine hretire.trans (spares_map (fun q hq => ?_) fun q hq hq' => if_neg fun hqn => hi ?_) <;>
      rw [records_retire] at hq
    · split
      · next hqn => rw [hn, hh q hq, hqn]
      · rfl
    · rw [hn, ← hqn, ← hh q hq, hq']

theorem spares_register (k : Kept s) (hh : s.Homed home) {name : String} {p : PeerId}
    (hn : home name = p) (hi : p ≠ i) (capacity : Option Nat) :
    Spares i s (register s name p capacity).state := by
  have hhub := Hub.spares_register hi k.filed (capacityOr s capacity)
  obtain ⟨h', hr, hen, he, -⟩ | ⟨old, -, -, hr, he, -⟩ := register_cases s name p capacity <;>
    rw [hr] at hhub <;> rw [he]
  · have hentered : Spares i s { s with hub := h' } := ⟨hhub, rfl⟩
    exact hentered.trans
      (spares_keep (r := ⟨name, p, s.hub.fresh, true⟩) (k.entered hen) hh hn.symm hi)
  · exact ⟨hhub, rfl⟩

theorem spares_onRecord (k : Kept s) (hh : s.Homed home) {name : String}
    (hf : s.find? name = some r) {st : Step} (hs : st.subject = some name)
    (ho : st.operates home = true) (ht : st.touches home ≠ some i) :
    Spares i s (onRecord s r st).state := by
  have hb := k.bound r (mem_of_find? hf)
  have hname := name_of_find? hf
  have hpeer : r.peer = home name := by rw [hh r (mem_of_find? hf), hname]
  cases st with
  | release n reason =>
    cases hs
    have hi : home name ≠ i := fun h => ht (congrArg some h)
    rw [onRecord, release_state]
    split
    · have hhub : Spares i s { s with hub := s.hub.release r.peer r.conn } :=
        ⟨Hub.spares_release (hpeer ▸ hi) s.hub r.conn, rfl⟩
      exact hhub.trans
        (spares_guarded (s := { s with hub := s.hub.release r.peer r.conn }) hh (hname ▸ hi) false)
    · exact .refl i s
  | dropGuard n =>
    cases hs
    have hi : home name ≠ i := fun h => ht (congrArg some h)
    have hh' : (s.endGuard r).Homed home := fun q hq => hh q (records_endGuard s r ▸ hq)
    exact (spares_endGuard (hpeer ▸ hi)).trans (spares_guarded hh' (hname ▸ hi) false)
  | requestClose n =>
    cases hs
    have hi : home name ≠ i := fun h => ht (congrArg some h)
    exact ⟨Hub.spares_updateBox (hpeer ▸ hi) hb fun _ _ => rfl, rfl⟩
  | unregisterConnection n p =>
    cases hs
    have hi : p.getD r.peer ≠ i := fun h => ht (congrArg some (hpeer ▸ h))
    exact ⟨Hub.spares_leave hi s.hub r.conn, rfl⟩
  | register | unregister | route => cases hs
  | _ => cases ho

theorem spares_step (k : Kept s) (hh : s.Homed home) {st : Step}
    (ho : st.operates home = true) (ht : st.touches home ≠ some i) :
    Spares i s (step s st).state := by
  cases hs : st.subject with
  | some name =>
    rw [step_of_subject s st name hs]
    cases hf : s.find? name with
    | none => exact .refl i s
    | some r => exact spares_onRecord k hh hf hs ho ht
  | none =>
    cases st with
    | register name p capacity =>
      exact spares_register k hh (beq_iff_eq.1 ho) (fun h => ht (congrArg some h)) capacity
    | unregister p =>
      have hi : p ≠ i := fun h => ht (congrArg some h)
      obtain he | he := unregister_state s p <;> simp only [step, he]
      · exact ⟨Hub.spares_unregister hi s.hub, rfl⟩
      · exact .refl i s
    | route bound f =>
      refine ⟨Hub.spares_route k.filed fun e ha hi => ht ?_, rfl⟩
      simp only [Step.touches, ha, hi]
    | release | dropGuard | requestClose | unregisterConnection => cases hs
    | _ => cases ho

/-- The share of a peer that an operation does not touch stays as it is. -/
theorem share_of_not_touches (k : Kept s) (hh : s.Homed home) {st : Step}
    (ho : st.operates home = true) (ht : st.touches home ≠ some i) :
    (step s st).state.share i = s.share i :=
  (spares_step k hh ho ht).share k (later_step s st)

end Switchboard.Session
