import Switchboard.Proofs.Hub.Growth

/-!
# All that is done to a running hub

A relay works on its hub by a few operations, one after the other (`Work`).  Whatever it does, the
hub grows (`Later`), a connection that is out of the table never comes back into it, and only data
frames ever wait in a mailbox.

    h.Work h' → c < h.fresh → h'.lookup p = some c → h.lookup p = some c
    h.Work h' → h.DataOnly → h'.DataOnly
-/

namespace Switchboard.Hub

/-- What a hub may have become after some operations on it. -/
inductive Work (h : Hub) : Hub → Prop
  | refl : Work h h
  | register {h' : Hub} (p : PeerId) (n : Nat) : Work h h' → Work h (h'.register p n).1
  | release {h' : Hub} (p : PeerId) (c : ConnId) : Work h h' → Work h (h'.release p c)
  | leave {h' : Hub} (p : PeerId) (c : ConnId) : Work h h' → Work h (h'.leave p c)
  | route {h' : Hub} (p : PeerId) (f : Frame) : Work h h' → Work h (h'.route p f).1
  | receive {h' : Hub} (c : ConnId) (most : Option Nat) : Work h h' → Work h (h'.receive c most).2
  | requestClose {h' : Hub} (c : ConnId) : Work h h' → Work h (h'.requestClose c)
  | discard {h' : Hub} (c : ConnId) : Work h h' → Work h (h'.updateBox c Mailbox.discard)
  | unregister {h' : Hub} (p : PeerId) : Work h h' → Work h (h'.unregister p)
  | shutdown {h' : Hub} : Work h h' → Work h h'.shutdown

/-- Only data frames wait. -/
def DataOnly (h : Hub) : Prop := ∀ c, ∀ f ∈ h.waiting c, f.isData = true

theorem Work.trans {h h' h'' : Hub} (a : h.Work h') (b : h'.Work h'') : h.Work h'' := by
  induction b with
  | refl => exact a
  | register p n _ ih => exact ih.register p n
  | release p c _ ih => exact ih.release p c
  | leave p c _ ih => exact ih.leave p c
  | route p f _ ih => exact ih.route p f
  | receive c most _ ih => exact ih.receive c most
  | requestClose c _ ih => exact ih.requestClose c
  | discard c _ ih => exact ih.discard c
  | unregister p _ ih => exact ih.unregister p
  | shutdown _ ih => exact ih.shutdown

/-! ## Growth -/

theorem later_register (h : Hub) (p : PeerId) (n : Nat) : h.Later (h.register p n).1 := by
  obtain ⟨h', he, hen⟩ | ⟨old, -, -, he⟩ := h.register_entered p n <;> rw [he]
  · exact ((h.still_openBox p n).trans hen.still).toLater
  · exact (h.still_tally .rejection).toLater

theorem later_discard (h : Hub) (c : ConnId) : h.Later (h.updateBox c Mailbox.discard) :=
  h.later_updateBox c _ fun m _ => m.later_discard

theorem later_release (h : Hub) (p : PeerId) (c : ConnId) : h.Later (h.release p c) :=
  ((h.still_leave p c).trans (still_tally _ .disconnection)).toLater

theorem later_unregister (h : Hub) (p : PeerId) : h.Later (h.unregister p) :=
  (show h.Still (h.unregister p) from still_of_boxes rfl rfl).toLater

theorem later_shutdown (h : Hub) : h.Later h.shutdown :=
  (show h.Still h.shutdown from still_of_boxes rfl rfl).toLater

theorem Work.later {h h' : Hub} (a : h.Work h') : h.Later h' := by
  induction a with
  | refl => exact .refl h
  | register p n _ ih => exact ih.trans (later_register _ p n)
  | release p c _ ih => exact ih.trans (later_release _ p c)
  | leave p c _ ih => exact ih.trans (still_leave _ p c).toLater
  | route p f _ ih => exact ih.trans (later_route _ p f)
  | receive c most _ ih => exact ih.trans (later_receive _ c most)
  | requestClose c _ ih => exact ih.trans (still_requestClose _ c).toLater
  | discard c _ ih => exact ih.trans (later_discard _ c)
  | unregister p _ ih => exact ih.trans (later_unregister _ p)
  | shutdown _ ih => exact ih.trans (later_shutdown _)

theorem Later.fresh_le {h h' : Hub} (a : h.Later h') : h.fresh ≤ h'.fresh := by
  rcases Nat.eq_zero_or_pos h.fresh with h0 | hpos
  · rw [h0]
    exact Nat.zero_le _
  · have hlt : h.fresh - 1 < h.boxes.length := Nat.sub_one_lt_of_lt hpos
    obtain ⟨m', hm', -⟩ := a.box (h.fresh - 1) _ (List.getElem?_eq_getElem hlt)
    exact Nat.le_of_pred_lt (box?_lt hm')

/-! ## Entries -/

/-- Of the connections that there were, none is entered anew. -/
theorem Work.lookup {h h' : Hub} (a : h.Work h') {p : PeerId} {c : ConnId} (hc : c < h.fresh)
    (hl : h'.lookup p = some c) : h.lookup p = some c := by
  induction a with
  | refl => exact hl
  | @register k q n a ih =>
    refine ih ?_
    obtain ⟨k', he, hen⟩ | ⟨old, -, -, he⟩ := k.register_entered q n <;> rw [he] at hl
    · rw [hen.lookup] at hl
      split at hl
      · -- the entry is the new connection's, and that is none of the old ones
        have hle : h.fresh ≤ k.fresh := a.later.fresh_le
        exact absurd (Option.some.inj hl) (Nat.ne_of_gt (Nat.lt_of_lt_of_le hc hle))
      · exact hl
    · exact hl
  | release q d _ ih => exact ih (lookup_of_lookup_leave hl)
  | leave q d _ ih => exact ih (lookup_of_lookup_leave hl)
  | route q f _ ih => exact ih ((lookup_route _ q p f).symm.trans hl)
  | receive d most _ ih => exact ih ((lookup_receive _ d most p).symm.trans hl)
  | requestClose d _ ih => exact ih hl
  | discard d _ ih => exact ih hl
  | unregister q _ ih => exact ih (lookup_of_lookup_unregister hl)
  | shutdown _ ih => exact ih hl

/-! ## Data -/

theorem isData_of_accept {bound : PeerId} {f : Frame} {e : Envelope}
    (h : accept bound f = .ok e) : f.isData = true := by
  obtain ⟨hf, -⟩ := (accept_eq_ok_iff bound f e).1 h
  cases f with
  | text | binary => rfl
  | ping | pong | close => cases hf

theorem waiting_openBox (h : Hub) (p : PeerId) (n : Nat) (c : ConnId) :
    (h.openBox p n).waiting c = h.waiting c := by
  rw [waiting, box?_openBox]
  split
  · next hc =>
    subst hc
    rw [waiting, box?_fresh]
    rfl
  · rfl

theorem waiting_updateBox (h : Hub) (c d : ConnId) {g : Mailbox → Mailbox}
    (hg : ∀ m, (g m).frames = m.frames) : (h.updateBox c g).waiting d = h.waiting d := by
  rw [waiting, waiting, box?_updateBox]
  split
  · cases h.box? d with
    | none => rfl
    | some m => exact hg m
  · rfl

theorem waiting_requestClose (h : Hub) (c d : ConnId) :
    (h.requestClose c).waiting d = h.waiting d :=
  h.waiting_updateBox c d (g := Mailbox.close) fun _ => rfl

/-- What waits after a frame was routed: one more frame in one mailbox, if it was forwarded. -/
theorem waiting_route (h : Hub) (bound : PeerId) (f : Frame) (d : ConnId) :
    (∃ e c, accept bound f = .ok e ∧ h.lookup e.recipient = some c ∧
      (h.route bound f).2 = .ok (.forwarded e.recipient) ∧
      (h.route bound f).1.waiting d = if c = d then h.waiting d ++ [f] else h.waiting d) ∨
    ((∀ dest, (h.route bound f).2 ≠ .ok (.forwarded dest)) ∧
      (h.route bound f).1.waiting d = h.waiting d) := by
  obtain ⟨e, c, m, ha, hl, hm, -, he⟩ | ⟨k, r, he, hr⟩ := h.route_cases bound f <;> rw [he]
  · exact .inl ⟨e, c, ha, hl, rfl, (h.tally .received).waiting_append c d m f hm⟩
  · exact .inr ⟨hr, rfl⟩

theorem boxes_leave (h : Hub) (p : PeerId) (c : ConnId) : (h.leave p c).boxes = h.boxes := by
  unfold leave
  split <;> rfl

theorem waiting_leave (h : Hub) (p : PeerId) (c d : ConnId) :
    (h.leave p c).waiting d = h.waiting d := by
  rw [waiting, box?, boxes_leave]
  rfl

theorem waiting_release (h : Hub) (p : PeerId) (c d : ConnId) :
    (h.release p c).waiting d = h.waiting d := h.waiting_leave p c d

theorem waiting_updateBox_ne (h : Hub) {c d : ConnId} (hd : c ≠ d) (g : Mailbox → Mailbox) :
    (h.updateBox c g).waiting d = h.waiting d := by
  rw [waiting, waiting, box?_updateBox, if_neg hd]

/-- A registration puts nothing into any mailbox, and takes nothing out. -/
theorem waiting_register (h : Hub) (p : PeerId) (n : Nat) (d : ConnId) :
    (h.register p n).1.waiting d = h.waiting d := by
  have henter : ((h.openBox p n).enter p h.fresh).1.waiting d = h.waiting d := by
    obtain ⟨-, he⟩ | ⟨old, -, -, he⟩ | ⟨old, -, -, he⟩ := (h.openBox p n).enter_cases p h.fresh <;>
      rw [he]
    · exact h.waiting_openBox p n d
    · exact h.waiting_openBox p n d
    · rw [waiting_requestClose]
      exact h.waiting_openBox p n d
  unfold register
  split
  · next h' evicted he =>
    rw [he] at henter
    split <;> exact henter
  · rfl

theorem waiting_fresh (h : Hub) : h.waiting h.fresh = [] := by
  rw [waiting, box?_fresh]
  rfl

/-- The queues of a hub hold no more than those of another. -/
def Within (h' h : Hub) : Prop := ∀ c, ∀ f ∈ h'.waiting c, f ∈ h.waiting c

theorem Within.dataOnly {h h' : Hub} (w : h'.Within h) (hd : h.DataOnly) : h'.DataOnly :=
  fun c f hf => hd c f (w c f hf)

theorem within_of_boxes {h h' : Hub} (hb : h'.boxes = h.boxes) : h'.Within h := by
  intro c f hf
  rw [waiting, box?, hb] at hf
  exact hf

theorem within_updateBox (h : Hub) (c : ConnId) {g : Mailbox → Mailbox}
    (hg : ∀ m, ∀ f ∈ (g m).frames, f ∈ m.frames) : (h.updateBox c g).Within h := by
  intro d f hf
  rw [waiting, box?_updateBox] at hf
  split at hf
  · cases hm : h.box? d with
    | none =>
      rw [hm] at hf
      cases hf
    | some m =>
      rw [hm] at hf
      rw [waiting_of_box? hm]
      exact hg m f hf
  · exact hf

theorem within_requestClose (h : Hub) (c : ConnId) : (h.requestClose c).Within h :=
  within_updateBox h c (g := Mailbox.close) fun _ _ hf => hf

theorem within_discard (h : Hub) (c : ConnId) : (h.updateBox c Mailbox.discard).Within h :=
  within_updateBox h c (g := Mailbox.discard) fun _ _ hf => by cases hf

theorem within_leave (h : Hub) (p : PeerId) (c : ConnId) : (h.leave p c).Within h := by
  unfold leave
  split
  · exact within_of_boxes rfl
  · exact fun _ _ hf => hf

theorem within_register (h : Hub) (p : PeerId) (n : Nat) : (h.register p n).1.Within h := by
  have hopen : (h.openBox p n).Within h := fun c f hf => by rwa [waiting_openBox] at hf
  have henter : ((h.openBox p n).enter p h.fresh).1.Within (h.openBox p n) := by
    obtain ⟨-, he⟩ | ⟨old, -, -, he⟩ | ⟨old, -, -, he⟩ := (h.openBox p n).enter_cases p h.fresh <;>
      rw [he]
    · exact within_of_boxes rfl
    · exact fun _ _ hf => hf
    · have hput : ({ h.openBox p n with table := (h.openBox p n).table.insert p h.fresh }).Within
          (h.openBox p n) := within_of_boxes rfl
      exact fun c f hf => hput c f (within_requestClose _ old c f hf)
  unfold register
  split
  · next h' evicted he =>
    rw [he] at henter
    intro c f hf
    refine hopen c f (henter c f ?_)
    split at hf <;> exact hf
  · exact within_of_boxes rfl

theorem within_receive (h : Hub) (c : ConnId) (most : Option Nat) :
    (h.receive c most).2.Within h := by
  intro d f hf
  rw [h.waiting_receive c d most]
  exact List.mem_append_right _ hf

theorem dataOnly_route {h : Hub} (hd : h.DataOnly) (p : PeerId) (f : Frame) :
    (h.route p f).1.DataOnly := by
  obtain ⟨e, c, m, ha, -, hm, -, he⟩ | ⟨k, r, he, -⟩ := h.route_cases p f <;> rw [he]
  · intro d g hg
    have hw := (h.tally .received).waiting_append c d m f hm
    have hg' : g ∈ if c = d then h.waiting d ++ [f] else h.waiting d := hw ▸ hg
    split at hg'
    · rcases List.mem_append.1 hg' with hg' | hg'
      · exact hd d g hg'
      · rw [List.mem_singleton.1 hg']
        exact isData_of_accept ha
    · exact hd d g hg'
  · exact hd

theorem Work.dataOnly {h h' : Hub} (a : h.Work h') (hd : h.DataOnly) : h'.DataOnly := by
  induction a with
  | refl => exact hd
  | register p n _ ih => exact (within_register _ p n).dataOnly ih
  | release p c _ ih => exact (within_leave _ p c).dataOnly ih
  | leave p c _ ih => exact (within_leave _ p c).dataOnly ih
  | route p f _ ih => exact dataOnly_route ih p f
  | receive c most _ ih => exact (within_receive _ c most).dataOnly ih
  | requestClose c _ ih => exact (within_requestClose _ c).dataOnly ih
  | discard c _ ih => exact (within_discard _ c).dataOnly ih
  | unregister p _ ih => exact (within_of_boxes rfl).dataOnly ih
  | shutdown _ ih => exact (within_of_boxes rfl).dataOnly ih

end Switchboard.Hub
