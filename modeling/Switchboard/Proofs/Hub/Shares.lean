import Switchboard.Proofs.Hub.Likeness
import Switchboard.Proofs.Hub.Recount

/-!
# What one peer has in a hub

The share of a peer is a hub of its own: its entry of the table and its mailboxes, in the order in
which they came and numbered anew.  An operation that is for one peer works in that peer's share and
leaves those of the others as they are.

    (h.register i n).1.share i = ((h.share i).register i n).1.recount {}
    p ≠ i → (h.register p n).1.share i = h.share i
-/

namespace Switchboard

/-! ## Places in a filtered list -/

section
variable {α : Type} {q : α → Bool} {l : List α} {c : Nat} {a : α}

/-- A list falls apart at each of its places. -/
theorem exists_split (h : l[c]? = some a) :
    ∃ before after, l = before ++ a :: after ∧ before.length = c := by
  obtain ⟨hlt, rfl⟩ := List.getElem?_eq_some_iff.1 h
  exact ⟨l.take c, l.drop (c + 1), by simp, List.length_take_of_le (Nat.le_of_lt hlt)⟩

theorem modify_split (f : α → α) (before after : List α) (a : α) :
    (before ++ a :: after).modify before.length f = before ++ f a :: after := by
  induction before with
  | nil => rfl
  | cons x rest ih => exact congrArg (x :: ·) ih

/-- An entry that a filter keeps moves down by those before it that the filter drops. -/
theorem getElem?_filter_countP (h : l[c]? = some a) (hq : q a = true) :
    (l.filter q)[(l.take c).countP q]? = some a := by
  obtain ⟨before, after, rfl, rfl⟩ := exists_split h
  simp [hq, List.countP_eq_length_filter]

theorem filter_modify_of_pos {f : α → α} (h : l[c]? = some a) (hq : q a = true)
    (hf : q (f a) = true) :
    (l.modify c f).filter q = (l.filter q).modify ((l.take c).countP q) f := by
  obtain ⟨before, after, rfl, rfl⟩ := exists_split h
  simp [modify_split, hq, hf, List.countP_eq_length_filter]

theorem filter_modify_of_neg {f : α → α} (h : l[c]? = some a) (hq : q a = false)
    (hf : q (f a) = false) : (l.modify c f).filter q = l.filter q := by
  obtain ⟨before, after, rfl, rfl⟩ := exists_split h
  simp [modify_split, hq, hf]

/-- An entry that a filter keeps is counted before all that come after it. -/
theorem countP_take_lt {d : Nat} (h : l[c]? = some a) (hq : q a = true) (hlt : c < d) :
    (l.take c).countP q < (l.take d).countP q := by
  obtain ⟨before, after, rfl, rfl⟩ := exists_split h
  obtain ⟨n, rfl⟩ := Nat.exists_eq_add_of_lt hlt
  have htake : before.take (before.length + (n + 1)) = before :=
    List.take_of_length_le (Nat.le_add_right _ _)
  simp only [Nat.add_assoc, List.take_append, List.take_length, htake, List.countP_append,
    Nat.sub_self, List.take_zero, Nat.add_sub_cancel_left, List.take_succ_cons, List.countP_cons,
    hq, if_true, List.countP_nil]
  omega

end

theorem Mailbox.peer_of_offer {m m' : Mailbox} {f : Frame} (h : m.offer f = .ok m') :
    m'.peer = m.peer := by
  unfold offer at h
  split at h
  · cases h
  · cases h
    rfl

/-- A registration with its connections numbered anew. -/
def Registered.renumber (ρ : ConnId → ConnId) (r : Registered) : Registered :=
  ⟨ρ r.conn, r.evicted.map ρ⟩

/-- A table with nobody in it but one peer. -/
def Peers.only (i : PeerId) (c : Option ConnId) : Peers :=
  ⟨c.toList.map (i, ·), by cases c <;> simp⟩

namespace Peers

variable (i : PeerId) (c : Option ConnId) (d : ConnId)

theorem find?_only : (only i c).find? i = c := by
  cases c <;> simp [only, find?, findIn]

theorem insert_only : (only i c).insert i d = only i (some d) := by
  cases c <;> simp [only, insert, insertIn]

theorem erase_only : (only i c).erase i = only i none := by
  cases c <;> simp [only, erase]

end Peers

namespace Hub

/-! ## Definitions -/

/-- The peers that connections were set up for, in order. -/
def owners (h : Hub) : List PeerId := h.boxes.map (·.peer)

/-- The number of a connection among those of the peer `i`. -/
def rank (h : Hub) (i : PeerId) (c : ConnId) : ConnId := (h.owners.take c).count i

/-- What the peer `i` has in a hub where nothing was counted. -/
def share (h : Hub) (i : PeerId) : Hub where
  policy := h.policy
  table := .only i ((h.lookup i).map (h.rank i))
  boxes := h.boxes.filter (·.peer == i)
  stopping := h.stopping

variable {h : Hub} {i : PeerId} {c d : ConnId}

/-! ## Numbers -/

theorem rank_eq_countP (h : Hub) (i : PeerId) (c : ConnId) :
    h.rank i c = (h.boxes.take c).countP (·.peer == i) := by
  rw [rank, owners, ← List.map_take, List.count, List.countP_map]
  rfl

theorem rank_fresh (h : Hub) (i : PeerId) : h.rank i h.fresh = (h.share i).fresh := by
  rw [rank_eq_countP, fresh, List.take_length]
  exact List.countP_eq_length_filter

/-- Connections stay with their peers, so they keep their numbers. -/
theorem Later.owners {h' : Hub} (l : h.Later h') : h.owners <+: h'.owners := by
  rw [List.prefix_iff_getElem?]
  intro c hc
  have hlt : c < h.boxes.length := by simpa [Hub.owners] using hc
  obtain ⟨m', hm', lm⟩ := l.box c h.boxes[c] (List.getElem?_eq_getElem hlt)
  have hm : h'.boxes[c]? = some m' := hm'
  simp [Hub.owners, hm, lm.peer]

theorem Later.rank {h' : Hub} (l : h.Later h') (hc : c ≤ h.fresh) : h'.rank i c = h.rank i c := by
  obtain ⟨rest, hrest⟩ := l.owners
  have hlen : c ≤ h.owners.length := by rwa [Hub.owners, List.length_map]
  rw [Hub.rank, ← hrest, List.take_append_of_le_length hlen, Hub.rank]

theorem rank_lt (hc : h.IsOf c i) (hlt : c < d) : h.rank i c < h.rank i d := by
  obtain ⟨m, hm, hi⟩ := hc
  rw [rank_eq_countP, rank_eq_countP]
  exact countP_take_lt hm (by simp [hi]) hlt

theorem rank_inj (hc : h.IsOf c i) (hd : h.IsOf d i) : h.rank i c = h.rank i d ↔ c = d := by
  refine ⟨fun he => ?_, congrArg _⟩
  rcases Nat.lt_trichotomy c d with hlt | heq | hlt
  · exact absurd he (Nat.ne_of_lt (rank_lt hc hlt))
  · exact heq
  · exact absurd he.symm (Nat.ne_of_lt (rank_lt hd hlt))

/-! ## Questions in a share -/

theorem lookup_share (h : Hub) (i : PeerId) :
    (h.share i).lookup i = (h.lookup i).map (h.rank i) := Peers.find?_only _ _

theorem box?_share (hc : h.IsOf c i) : (h.share i).box? (h.rank i c) = h.box? c := by
  obtain ⟨m, hm, hi⟩ := hc
  rw [rank_eq_countP, hm]
  exact getElem?_filter_countP hm (by simp [hi])

theorem isCurrent_share (hf : h.Filed) (hc : h.IsOf c i) :
    (h.share i).isCurrent i (h.rank i c) = h.isCurrent i c := by
  unfold isCurrent
  rw [lookup_share]
  cases hl : h.lookup i with
  | none => rfl
  | some d =>
    have hrank := rank_inj (hf i d hl) hc
    exact Bool.eq_iff_iff.2 (by simpa using hrank)

/-! ## Operations for the peer -/

theorem map_rank_of_later {h' : Hub} (hf : h.Filed) (l : h.Later h') :
    (h.lookup i).map (h'.rank i) = (h.lookup i).map (h.rank i) := by
  cases hl : h.lookup i with
  | none => rfl
  | some c => exact congrArg some (l.rank (Nat.le_of_lt (hf i c hl).lt))

/-- Mailboxes stay with their peers. -/
theorem owners_updateBox {f : Mailbox → Mailbox}
    (hp : ∀ m, h.box? c = some m → (f m).peer = m.peer) :
    (h.updateBox c f).owners = h.owners := by
  apply List.ext_getElem?
  intro d
  simp only [owners, updateBox, List.getElem?_map, List.getElem?_modify]
  cases hm : h.boxes[d]? with
  | none => rfl
  | some m =>
    by_cases hd : c = d
    · subst hd
      simp [hp m hm]
    · simp [hd]

theorem share_updateBox (hc : h.IsOf c i) {f : Mailbox → Mailbox}
    (hp : ∀ m, h.box? c = some m → (f m).peer = m.peer) :
    (h.updateBox c f).share i = (h.share i).updateBox (h.rank i c) f := by
  obtain ⟨m, hm, hi⟩ := hc
  have hrank : (h.updateBox c f).rank i = h.rank i := by
    funext d
    rw [rank, owners_updateBox hp, rank]
  have hboxes := filter_modify_of_pos (q := fun n : Mailbox => n.peer == i) (f := f) hm
    (by simp [hi]) (by simp [hp m hm, hi])
  unfold share
  rw [hrank, rank_eq_countP]
  simp only [updateBox, hboxes]
  rfl

theorem share_openBox (hf : h.Filed) (n : Nat) :
    (h.openBox i n).share i = (h.share i).openBox i n := by
  have htable : (h.lookup i).map ((h.openBox i n).rank i) = (h.lookup i).map (h.rank i) :=
    map_rank_of_later hf (h.still_openBox i n).toLater
  have hlookup : (h.openBox i n).lookup i = h.lookup i := rfl
  unfold share
  rw [hlookup, htable]
  simp [openBox, Mailbox.new]

theorem share_insert (h : Hub) (i : PeerId) (c : ConnId) :
    Hub.share { h with table := h.table.insert i c } i =
      { h.share i with table := (h.share i).table.insert i (h.rank i c) } := by
  have hlookup : Hub.lookup { h with table := h.table.insert i c } i = some c :=
    (Peers.find?_insert _ _ _ _).trans (if_pos rfl)
  unfold share
  rw [hlookup, Peers.insert_only]
  rfl

theorem share_enter (hf : h.Filed) (c : ConnId) :
    (h.share i).enter i (h.rank i c) =
      ((h.enter i c).1.share i, (h.enter i c).2.map (Option.map (h.rank i))) := by
  have hpolicy : (h.share i).policy = h.policy := rfl
  unfold enter
  rw [lookup_share]
  cases hl : h.lookup i with
  | none => exact congrArg (·, Except.ok none) (share_insert h i c).symm
  | some old =>
    simp only [Option.map_some, hpolicy]
    cases h.policy.duplicates with
    | rejectNew => rfl
    | evictExisting =>
      have hold : Hub.IsOf { h with table := h.table.insert i c } old i := hf i old hl
      have hclose := share_updateBox hold (f := Mailbox.close) fun _ _ => rfl
      rw [share_insert] at hclose
      exact congrArg (·, Except.ok (some (h.rank i old))) hclose.symm

theorem share_register (hf : h.Filed) (n : Nat) :
    ((h.share i).register i n).1.recount {} = (h.register i n).1.share i ∧
      ((h.share i).register i n).2 = (h.register i n).2.map (Registered.renumber (h.rank i)) := by
  have hlater := (h.still_openBox i n).toLater
  have hfiled : (h.openBox i n).Filed := hlater.filed hf fun _ _ => id
  have hfresh : (h.openBox i n).rank i h.fresh = (h.share i).fresh :=
    (hlater.rank (Nat.le_refl _)).trans (rank_fresh h i)
  have henter := share_enter (i := i) hfiled h.fresh
  rw [share_openBox hf, hfresh] at henter
  unfold register
  rw [henter]
  obtain ⟨-, he⟩ | ⟨old, -, -, he⟩ | ⟨old, hl, -, he⟩ := (h.openBox i n).enter_cases i h.fresh <;>
    rw [he]
  · refine ⟨rfl, ?_⟩
    simp [Except.map, Registered.renumber, rank_fresh]
  · exact ⟨rfl, rfl⟩
  · have hold : h.rank i old = (h.openBox i n).rank i old :=
      (hlater.rank (Nat.le_of_lt (hf i old hl).lt)).symm
    refine ⟨rfl, ?_⟩
    simp [Except.map, Registered.renumber, rank_fresh, hold]

theorem share_unregister (h : Hub) (i : PeerId) :
    (h.unregister i).share i = (h.share i).unregister i := by
  have hlookup : (h.unregister i).lookup i = none := by rw [lookup_unregister, if_pos rfl]
  unfold share
  rw [hlookup]
  simp only [unregister, Peers.erase_only]
  rfl

theorem share_leave (hf : h.Filed) (hc : h.IsOf c i) :
    (h.leave i c).share i = (h.share i).leave i (h.rank i c) := by
  unfold leave
  rw [isCurrent_share hf hc]
  split
  · exact share_unregister h i
  · rfl

theorem share_release (hf : h.Filed) (hc : h.IsOf c i) :
    ((h.share i).release i (h.rank i c)).recount {} = (h.release i c).share i :=
  calc ((h.share i).release i (h.rank i c)).recount {}
      = ((h.share i).leave i (h.rank i c)).recount {} := rfl
    _ = (h.share i).leave i (h.rank i c) := (leave_recount (h.share i) {} i (h.rank i c)).symm
    _ = (h.release i c).share i := (share_leave hf hc).symm

theorem share_deliver (hc : h.IsOf c i) (f : Frame) :
    (h.share i).deliver (h.rank i c) f = ((h.deliver c f).1.share i, (h.deliver c f).2) := by
  unfold deliver
  rw [box?_share hc]
  cases hm : h.box? c with
  | none => rfl
  | some m =>
    dsimp only
    cases ho : m.offer f with
    | error r => rfl
    | ok m' =>
      have hp : ∀ n, h.box? c = some n → m'.peer = n.peer := fun n hn =>
        (Mailbox.peer_of_offer ho).trans (congrArg _ (Option.some.inj (hm.symm.trans hn)))
      exact congrArg (·, Except.ok ()) (share_updateBox hc (f := fun _ => m') hp).symm

theorem share_forward (hf : h.Filed) (f : Frame) :
    ((h.share i).forward i f).1.recount {} = (h.forward i f).1.share i ∧
      ((h.share i).forward i f).2 = (h.forward i f).2 := by
  unfold forward
  rw [lookup_share]
  cases hl : h.lookup i with
  | none => exact ⟨rfl, rfl⟩
  | some c =>
    have hd := share_deliver (hf i c hl) f
    simp only [Option.map_some, hd]
    rcases h.deliver c f with ⟨h', e | u⟩
    · cases e <;> exact ⟨rfl, rfl⟩
    · exact ⟨rfl, rfl⟩

theorem share_route (hf : h.Filed) {bound : PeerId} {f : Frame} {e : Envelope}
    (ha : accept bound f = .ok e) :
    ((h.share e.recipient).route bound f).1.recount {} = (h.route bound f).1.share e.recipient ∧
      ((h.share e.recipient).route bound f).2 = (h.route bound f).2 := by
  have hf' : (h.tally .received).Filed := hf
  obtain ⟨hafter, hanswer⟩ := share_forward (i := e.recipient) hf' f
  have hshare : (h.tally .received).share e.recipient = h.share e.recipient := rfl
  have hcounted : (h.share e.recipient).tally .received =
    (h.share e.recipient).recount (Counters.count {} .received) := rfl
  rw [hshare] at hafter hanswer
  rw [route_of_accept ha, route_of_accept ha, hcounted, forward_recount, hanswer]
  exact ⟨hafter, rfl⟩

/-! ## Operations for others -/

/-- Nothing of the peer `i` has changed. -/
structure Spares (i : PeerId) (h h' : Hub) : Prop where
  policy : h'.policy = h.policy
  stopping : h'.stopping = h.stopping
  lookup : h'.lookup i = h.lookup i
  boxes : h'.boxes.filter (·.peer == i) = h.boxes.filter (·.peer == i)

theorem Spares.refl (i : PeerId) (h : Hub) : Spares i h h := ⟨rfl, rfl, rfl, rfl⟩

theorem Spares.trans {h' h'' : Hub} (a : Spares i h h') (b : Spares i h' h'') : Spares i h h'' :=
  ⟨b.policy.trans a.policy, b.stopping.trans a.stopping, b.lookup.trans a.lookup,
    b.boxes.trans a.boxes⟩

theorem Spares.share {h' : Hub} (a : Spares i h h') (hf : h.Filed) (l : h.Later h') :
    h'.share i = h.share i := by
  unfold Hub.share
  rw [a.policy, a.stopping, a.lookup, a.boxes, map_rank_of_later hf l]

theorem spares_tally (h : Hub) (t : Tally) : Spares i h (h.tally t) := ⟨rfl, rfl, rfl, rfl⟩

variable {p : PeerId}

theorem spares_updateBox (hpi : p ≠ i) (hc : h.IsOf c p) {f : Mailbox → Mailbox}
    (hp : ∀ m, h.box? c = some m → (f m).peer = m.peer) : Spares i h (h.updateBox c f) := by
  obtain ⟨m, hm, hmp⟩ := hc
  refine ⟨rfl, rfl, rfl, ?_⟩
  exact filter_modify_of_neg hm (by simp [hmp, hpi]) (by simp [hp m hm, hmp, hpi])

theorem spares_openBox (hpi : p ≠ i) (h : Hub) (n : Nat) : Spares i h (h.openBox p n) :=
  ⟨rfl, rfl, rfl, by simp [openBox, Mailbox.new, hpi]⟩

theorem spares_unregister (hpi : p ≠ i) (h : Hub) : Spares i h (h.unregister p) :=
  ⟨rfl, rfl, by rw [lookup_unregister, if_neg (Ne.symm hpi)], rfl⟩

theorem spares_leave (hpi : p ≠ i) (h : Hub) (c : ConnId) : Spares i h (h.leave p c) := by
  unfold leave
  split
  · exact spares_unregister hpi h
  · exact .refl i h

theorem spares_release (hpi : p ≠ i) (h : Hub) (c : ConnId) : Spares i h (h.release p c) :=
  (spares_leave hpi h c).trans (spares_tally _ _)

theorem spares_enter (hpi : p ≠ i) (hf : h.Filed) (c : ConnId) : Spares i h (h.enter p c).1 := by
  have hinsert : Spares i h { h with table := h.table.insert p c } :=
    ⟨rfl, rfl, (Peers.find?_insert _ _ _ _).trans (if_neg (Ne.symm hpi)), rfl⟩
  obtain ⟨-, he⟩ | ⟨old, -, -, he⟩ | ⟨old, hl, -, he⟩ := h.enter_cases p c <;> rw [he]
  · exact hinsert
  · exact .refl i h
  · have hold : Hub.IsOf { h with table := h.table.insert p c } old p := hf p old hl
    exact hinsert.trans (spares_updateBox hpi hold fun _ _ => rfl)

theorem spares_register (hpi : p ≠ i) (hf : h.Filed) (n : Nat) :
    Spares i h (h.register p n).1 := by
  have hfiled : (h.openBox p n).Filed :=
    (h.still_openBox p n).toLater.filed hf fun _ _ => id
  have henter := (spares_openBox hpi h n).trans (spares_enter hpi hfiled h.fresh)
  unfold register
  split
  · next h' evicted he =>
    rw [he] at henter
    cases evicted with
    | none => exact henter.trans (spares_tally _ _)
    | some old => exact henter.trans ((spares_tally _ _).trans (spares_tally _ _))
  · exact spares_tally _ _

theorem spares_deliver (hpi : p ≠ i) (hc : h.IsOf c p) (f : Frame) :
    Spares i h (h.deliver c f).1 := by
  obtain ⟨m, hm, -, hd⟩ | ⟨r, -, hd⟩ := h.deliver_cases c f <;> rw [hd]
  · refine spares_updateBox hpi hc fun n hn => ?_
    rw [Option.some.inj (hm.symm.trans hn)]
  · exact .refl i h

theorem spares_forward (hpi : p ≠ i) (hf : h.Filed) (f : Frame) :
    Spares i h (h.forward p f).1 := by
  unfold forward
  cases hl : h.lookup p with
  | none => exact spares_tally _ _
  | some c =>
    have hd := spares_deliver hpi (hf p c hl) f
    dsimp only
    split <;> next he =>
      rw [he] at hd
      exact hd.trans (spares_tally _ _)

theorem spares_route (hf : h.Filed) {bound : PeerId} {f : Frame}
    (hpi : ∀ e, accept bound f = .ok e → e.recipient ≠ i) : Spares i h (h.route bound f).1 := by
  cases ha : accept bound f with
  | error v =>
    rw [route_of_violation ha]
    exact (spares_tally _ _).trans (spares_tally _ _)
  | ok e =>
    have hf' : (h.tally .received).Filed := hf
    rw [route_of_accept ha]
    exact (spares_tally h _).trans (spares_forward (hpi e ha) hf' f)

end Hub

end Switchboard
