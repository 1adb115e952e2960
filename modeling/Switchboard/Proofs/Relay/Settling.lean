import Mathlib.Data.List.Basic
import Switchboard.Proofs.Relay.Keepalive

/-!
# All comes to rest

Every turn takes something off the load of the world, so turns come to an end, and as many as the
load says are enough (`rest_settle`).  Then the running relay is a timely run: whatever is done to
it, time passes at rest, and from one moment that is waited for to the next.

    w.turn i t = some (w', es) → w'.load < w.load
    (w.settle).1.firstTurn = none
    run w as = w.after xs for some timely xs
-/

namespace Switchboard

/-! ## Sums -/

namespace Relay.World

theorem total_append (ms ns : List Nat) : total (ms ++ ns) = total ms + total ns := by
  induction ms with
  | nil => exact (Nat.zero_add _).symm
  | cons m ms ih =>
    show m + total (ms ++ ns) = m + total ms + total ns
    rw [ih, Nat.add_assoc]

/-- Changing one entry changes the sum by as much. -/
theorem total_modify {α : Type} (f : α → Nat) (g : α → α) {xs : List α} {i : Nat} {a : α}
    (ha : xs[i]? = some a) :
    total ((xs.modify i g).map f) + f a = total (xs.map f) + f (g a) := by
  induction xs generalizing i with
  | nil => cases ha
  | cons x xs ih =>
    cases i with
    | zero =>
      obtain rfl := Option.some.inj ha
      show f (g x) + total (xs.map f) + f x = f x + total (xs.map f) + f (g x)
      omega
    | succ i =>
      have h := ih (i := i) ha
      show f x + total ((xs.modify i g).map f) + f a = f x + total (xs.map f) + f (g a)
      omega

end Relay.World

/-! ## What waits in a hub -/

namespace Hub

open Relay.World

/-- What the waiting frames of a hub may still bring about. -/
def burden (h : Hub) : Nat := total (h.boxes.map fun m => 5 * m.frames.length)

theorem burden_of_boxes {h h' : Hub} (hb : h'.boxes = h.boxes) : h'.burden = h.burden := by
  rw [burden, burden, hb]

theorem burden_updateBox {h : Hub} {c : ConnId} {m : Mailbox} (hm : h.box? c = some m)
    (f : Mailbox → Mailbox) :
    (h.updateBox c f).burden + 5 * m.frames.length = h.burden + 5 * (f m).frames.length :=
  total_modify (fun m => 5 * m.frames.length) f hm

theorem burden_updateBox_le (h : Hub) (c : ConnId) {f : Mailbox → Mailbox}
    (hf : ∀ m, (f m).frames.length ≤ m.frames.length) : (h.updateBox c f).burden ≤ h.burden := by
  cases hm : h.box? c with
  | none =>
    refine Nat.le_of_eq (burden_of_boxes ?_)
    exact List.modify_eq_self (List.getElem?_eq_none_iff.1 hm)
  | some m =>
    have h₁ := burden_updateBox hm f
    have h₂ := hf m
    omega

theorem burden_requestClose (h : Hub) (c : ConnId) : (h.requestClose c).burden ≤ h.burden :=
  h.burden_updateBox_le c (f := Mailbox.close) fun _ => Nat.le_refl _

/-- With what waited in a mailbox goes all that it could bring about. -/
theorem burden_discard (h : Hub) (c : ConnId) :
    (h.updateBox c Mailbox.discard).burden + 5 * (h.waiting c).length = h.burden := by
  cases hm : h.box? c with
  | none =>
    have hboxes : (h.updateBox c Mailbox.discard).boxes = h.boxes :=
      List.modify_eq_self (List.getElem?_eq_none_iff.1 hm)
    rw [burden_of_boxes hboxes, waiting, hm]
    rfl
  | some m =>
    rw [waiting_of_box? hm]
    exact burden_updateBox hm Mailbox.discard

theorem burden_leave (h : Hub) (p : PeerId) (c : ConnId) : (h.leave p c).burden = h.burden :=
  burden_of_boxes (h.boxes_leave p c)

theorem burden_release (h : Hub) (p : PeerId) (c : ConnId) : (h.release p c).burden = h.burden :=
  h.burden_leave p c

/-- A frame that is routed comes to wait in one mailbox at most. -/
theorem burden_route (h : Hub) (p : PeerId) (f : Frame) :
    (h.route p f).1.burden ≤ h.burden + 5 := by
  obtain ⟨e, c, m, -, -, hm, -, he⟩ | ⟨k, r, he, -⟩ := h.route_cases p f <;> rw [he]
  · have hb := burden_updateBox (h := h.tally .received) hm
      fun _ => { m with frames := m.frames ++ [f] }
    rw [List.length_append, List.length_singleton] at hb
    have hk : (h.tally .received).burden = h.burden := rfl
    show ((h.tally .received).updateBox c _).burden ≤ _
    omega
  · exact Nat.le_add_right _ _

theorem burden_route_error {h h' : Hub} {p : PeerId} {f : Frame} {v : Violation}
    (hr : h.route p f = (h', .error v)) : h'.burden = h.burden := by
  obtain ⟨e, c, m, -, -, -, -, he⟩ | ⟨k, r, he, -⟩ := h.route_cases p f <;> rw [he] at hr
  · cases (Prod.mk.inj hr).2
  · rw [← (Prod.mk.inj hr).1]
    rfl

theorem burden_receive {h h' : Hub} {c : ConnId} {f : Frame} {fs : List Frame}
    (hr : h.receive c (some 1) = (f :: fs, h')) : h'.burden + 5 ≤ h.burden := by
  unfold receive at hr
  split at hr
  · cases hr
  · next m hm =>
    obtain ⟨hf, rfl⟩ := Prod.mk.inj hr
    have hb := burden_updateBox hm fun _ => (m.take (some 1)).2
    have hlen : (m.take (some 1)).2.frames.length = m.frames.length - 1 := List.length_drop
    have hpos : 0 < m.frames.length := by
      cases hm' : m.frames with
      | nil => rw [Mailbox.take, hm'] at hf; cases hf
      | cons => exact Nat.succ_pos _
    rw [hlen] at hb
    omega

end Hub

/-! ## Every turn takes something off -/

namespace Relay

open World

variable {w : World} {l l' : Link} {c : ConnId} {h' : Hub} {es : List Event}

/-- What has come from a client and may still bring something about. -/
def arrivalLoad (xs : List Arrival) : Nat := total (xs.map inboundLoad)

theorem arrivalLoad_append (xs ys : List Arrival) :
    arrivalLoad (xs ++ ys) = arrivalLoad xs + arrivalLoad ys := by
  rw [arrivalLoad, List.map_append, total_append]
  rfl

theorem arrivalLoad_of_suffix {xs ys : List Arrival} (hs : xs <:+ ys) :
    arrivalLoad xs ≤ arrivalLoad ys := by
  obtain ⟨front, rfl⟩ := hs
  rw [arrivalLoad_append]
  exact Nat.le_add_left _ _

theorem arrivalLoad_answers (fs : List Frame) : arrivalLoad (answers fs) ≤ fs.length := by
  induction fs with
  | nil => exact Nat.le_refl _
  | cons f fs ih =>
    cases f with
    | ping b =>
      show 1 + arrivalLoad (answers fs) ≤ fs.length + 1
      omega
    | _ => exact Nat.le_succ_of_le ih

theorem linkLoad_eq (now : Nat) (l : Link) :
    linkLoad now l = arrivalLoad l.inbound + 3 * l.wire.frames.length + phaseLoad l.phase +
      (if l.client.ended then 0 else 1) + if l.nextPing ≤ now then 5 else 0 := rfl

theorem Wire.length_drain (w : Wire) : w.drain.1.length ≤ w.frames.length := by
  unfold drain
  split
  · exact length_whole _ _
  · exact Nat.le_refl _

theorem Wire.length_send {w w' : Wire} {f : Frame} (h : w.send? f = some w') :
    w'.frames.length = w.frames.length + 1 := by
  rw [frames_send h, List.length_append, List.length_singleton]

/-- What is left on the way is what was there, and no more than what was still to be written. -/
theorem length_leftover (l : Link) (fs : List Frame) :
    (l.leftover fs).frames.length ≤ l.wire.frames.length + fs.length := by
  unfold Link.leftover
  split
  · exact Nat.le_add_right_of_le (Wire.length_whole _ _)
  · cases hb : l.wire.broken with
    | true =>
      rw [Wire.sendAll_of_broken hb]
      exact Nat.le_add_right _ _
    | false => exact Nat.le_of_eq (by rw [Wire.frames_sendAll fs hb, List.length_append])

theorem Ending.burden {r : CloseReason} {owed : Option Frame} (a : Ending w l c r owed l' h' es) :
    h'.burden = w.hub.burden := by
  cases a with
  | violated _ _ hr => exact Hub.burden_route_error hr
  | told | silent | finished | fault | misfit | vanished | left | mute => rfl

theorem lt_pingAfter (hperiod : lateness < w.pingPeriod) : w.now < w.pingAfter l := by
  unfold World.pingAfter
  split <;> omega

/-- A frame less waits, or the ping is no longer due. -/
theorem Given.lighter {f : Frame} (a : Given w l c f l' h' es) (hperiod : lateness < w.pingPeriod) :
    h'.burden + (if l'.nextPing ≤ w.now then 5 else 0) + 5 ≤
      w.hub.burden + if l.nextPing ≤ w.now then 5 else 0 := by
  cases a with
  | queued hr =>
    have hb := Hub.burden_receive hr
    omega
  | ping hr hd =>
    have hnext : (if w.pingAfter l ≤ w.now then 5 else 0) = 0 :=
      if_neg (Nat.not_le.2 (lt_pingAfter hperiod))
    have hdue : (if l.nextPing ≤ w.now then 5 else 0) = 5 := if_pos hd
    dsimp only
    omega

theorem phaseLoad_serving (writer : Writer) :
    10 ≤ phaseLoad (.serving writer) ∧ phaseLoad (.serving writer) ≤ 11 := by
  cases writer <;> decide

theorem phaseLoad_closing (r : CloseReason) (owed : Option Frame) (giveUp : Nat) :
    2 ≤ phaseLoad (.closing r owed giveUp) ∧ phaseLoad (.closing r owed giveUp) ≤ 6 := by
  cases owed <;> simp [phaseLoad]

/-- Every turn takes something off the load of its link and of the hub. -/
theorem Turned.lighter (a : Turned w l l' h' es) (hperiod : lateness < w.pingPeriod) :
    linkLoad w.now l' + h'.burden < linkLoad w.now l + w.hub.burden := by
  cases a with
  | @ended c writer r owed l₀ h₀ before hp hc he =>
    obtain ⟨rest, deadline, rfl, hs⟩ := he.link
    have hserving := phaseLoad_serving writer
    have hclosing := phaseLoad_closing r owed (w.now + closeTimeout)
    have harrivals := arrivalLoad_of_suffix hs
    have hburden := (h₀.release l.peer c).burden_requestClose c
    rw [h₀.burden_release, he.burden] at hburden
    simp only [linkLoad_eq, hp]
    omega
  | @crashed c writer f rest hp hc hh =>
    have harrivals : arrivalLoad rest ≤ arrivalLoad l.inbound :=
      arrivalLoad_of_suffix (hh.next ▸ List.suffix_cons _ _)
    have hserving := phaseLoad_serving writer
    have hlost : phaseLoad (.lost .established) = 1 := rfl
    have hframes := length_leftover l (w.hub.receive c none).1
    have hburden := (w.hub.leave l.peer c).burden_discard c
    rw [Hub.burden_leave, Hub.waiting_leave] at hburden
    rw [w.hub.receive_none] at hframes ⊢
    simp only [linkLoad_eq, hp, Link.past]
    omega
  | @woke c writer b rest hp hc hh =>
    have harrivals : arrivalLoad l.inbound = 1 + arrivalLoad rest := by rw [hh.next]; rfl
    simp only [linkLoad_eq, World.awake]
    omega
  | @answered c writer b rest wire hp hc hh hw =>
    have harrivals : arrivalLoad l.inbound = 8 + arrivalLoad rest := by rw [hh.next]; rfl
    have hframes := Wire.length_send hw
    simp only [linkLoad_eq, World.awake]
    omega
  | @routed c writer f rest o h hp hc hh hf hr =>
    have harrivals : arrivalLoad l.inbound = 8 + arrivalLoad rest := by
      rw [hh.next]
      cases f with
      | text | binary => rfl
      | ping | pong | close => cases hf
    have hburden := w.hub.burden_route l.peer f
    rw [hr] at hburden
    simp only [linkLoad_eq, World.awake] at hburden ⊢
    omega
  | ready hp =>
    simp only [linkLoad_eq, hp, phaseLoad]
    omega
  | @jammed c hp =>
    have hburden := w.hub.burden_requestClose c
    simp only [linkLoad_eq, hp, phaseLoad]
    omega
  | @handed c f l₀ h₀ before wire hp hc hs hg hm hw =>
    have hlight := hg.lighter hperiod
    have hframes := Wire.length_send hw
    have hserving := phaseLoad_serving (if wire.isClear then .idle else .sending)
    obtain ⟨next, rfl⟩ := hg.link
    simp only [linkLoad_eq, hp, phaseLoad] at hlight hserving ⊢
    omega
  | @failed c f l₀ h₀ before hp hc hs hg =>
    have hlight := hg.lighter hperiod
    have hburden := h₀.burden_requestClose c
    obtain ⟨next, rfl⟩ := hg.link
    simp only [linkLoad_eq, hp, phaseLoad] at hlight ⊢
    omega
  | paid hp hc hm hw =>
    have hframes := Wire.length_send hw
    simp only [linkLoad_eq, hp, phaseLoad]
    omega
  | @parted r owed giveUp before hp =>
    have hclosing := phaseLoad_closing r owed giveUp
    have hframes : l.wire.cut.frames.length ≤ l.wire.frames.length := Wire.length_whole _ _
    have hgone : phaseLoad .gone = 1 := rfl
    cases l.conn with
    | none =>
      simp only [linkLoad_eq, hp]
      omega
    | some c =>
      have hburden := w.hub.burden_discard c
      simp only [linkLoad_eq, hp]
      omega
  | drained hpresent hreading hended hw =>
    have hframes := Wire.length_drain l.wire
    have hanswers := arrivalLoad_answers l.wire.drain.1
    have hpos : 0 < l.wire.frames.length := List.length_pos_iff.2 hw
    simp only [linkLoad_eq, arrivalLoad_append, Wire.frames_drain, List.length_nil]
    omega
  | noticed hp he =>
    simp only [linkLoad_eq, he, if_true, Bool.false_eq_true, if_false]
    omega

/-! ## Turns come to an end -/

namespace World

variable {w' : World} {i : Nat} {t : Turn}

theorem load_eq (w : World) : w.load = total (w.links.map (linkLoad w.now)) + w.hub.burden := rfl

theorem load_put {l : Link} (hl : w.links[i]? = some l) (l' : Link) (h : Hub) :
    (w.put i l' h).load + linkLoad w.now l + w.hub.burden =
      w.load + linkLoad w.now l' + h.burden := by
  have hsum := total_modify (linkLoad w.now) (fun _ => l') hl
  rw [← List.set_eq_modify] at hsum
  have hput : (w.put i l' h).load =
      total ((w.links.set i l').map (linkLoad w.now)) + h.burden := rfl
  rw [hput, load_eq]
  omega

theorem pingPeriod_of_later (h : w.hub.Later w'.hub) : w'.pingPeriod = w.pingPeriod := by
  rw [pingPeriod, pingPeriod, h.policy]

/-- **Every turn takes something off the load.** -/
theorem load_turn (h : w.turn i t = some (w', es)) (hperiod : lateness < w.pingPeriod) :
    w'.load < w.load ∧ w'.now = w.now ∧ w'.pingPeriod = w.pingPeriod := by
  obtain ⟨l, l', h', hl, rfl, hT⟩ := turn_cases h
  have hput := load_put hl l' h'
  have hlight := hT.lighter hperiod
  exact ⟨by omega, rfl, pingPeriod_of_later hT.work.later⟩

theorem exists_of_firstTurn {r : Happening} (h : w.firstTurn = some r) :
    ∃ i t, w.turn i t = some r := by
  obtain ⟨i, -, hi⟩ := List.exists_of_findSome?_eq_some h
  obtain ⟨t, -, ht⟩ := List.exists_of_findSome?_eq_some hi
  exact ⟨i, t, ht⟩

theorem settleWithin_rest (n : Nat) (w : World) (hperiod : lateness < w.pingPeriod)
    (hn : w.load ≤ n) :
    (settleWithin n w).1.firstTurn = none ∧ (settleWithin n w).1.now = w.now := by
  induction n generalizing w with
  | zero =>
    refine ⟨?_, rfl⟩
    -- a turn would take something off a load that is nothing
    show w.firstTurn = none
    cases hf : w.firstTurn with
    | none => rfl
    | some r =>
      obtain ⟨w', es⟩ := r
      obtain ⟨i, t, ht⟩ := exists_of_firstTurn hf
      have hlt := (load_turn ht hperiod).1
      omega
  | succ n ih =>
    rw [settleWithin]
    split
    · next hf => exact ⟨hf, rfl⟩
    · next w' es hf =>
      obtain ⟨i, t, ht⟩ := exists_of_firstTurn hf
      obtain ⟨hlt, hnow, hp⟩ := load_turn ht hperiod
      obtain ⟨hrest, hnow'⟩ := ih w' (by rwa [hp]) (by omega)
      exact ⟨hrest, hnow'.trans hnow⟩

/-- **All comes to rest.**  The turns that are taken between two moments are all that there are. -/
theorem rest_settle (w : World) (hperiod : lateness < w.pingPeriod) :
    w.settle.1.firstTurn = none ∧ w.settle.1.now = w.now :=
  settleWithin_rest w.load w hperiod (Nat.le_refl _)

/-! ## The running relay -/

/-- A world leads to another one by a timely run. -/
def Leads (w w' : World) : Prop := ∃ xs, w.Timely xs ∧ w' = w.after xs

theorem Leads.refl (w : World) : w.Leads w := ⟨[], fun _ => (by simp [trace]), rfl⟩

theorem Leads.trans {w w' w'' : World} (a : w.Leads w') (b : w'.Leads w'') : w.Leads w'' := by
  obtain ⟨xs, hxs, rfl⟩ := a
  obtain ⟨ys, hys, rfl⟩ := b
  exact ⟨xs ++ ys, (w.timely_append xs ys).2 ⟨hxs, hys⟩, (w.after_append xs ys).symm⟩

theorem leads_undergo (w : World) {x : Incident} (h : w.onTime x = true) :
    w.Leads (w.undergo x).1 := by
  refine ⟨[x], fun s hs => ?_, rfl⟩
  obtain rfl := List.mem_singleton.1 hs
  exact h

theorem Leads.now_le {w w' : World} (a : w.Leads w') : w.now ≤ w'.now := by
  obtain ⟨xs, -, rfl⟩ := a
  exact w.now_le_after xs

theorem Leads.policy {w w' : World} (a : w.Leads w') : w'.hub.policy = w.hub.policy := by
  obtain ⟨xs, -, rfl⟩ := a
  exact (w.work_after xs).later.policy

theorem Leads.pingPeriod {w w' : World} (a : w.Leads w') : w'.pingPeriod = w.pingPeriod := by
  obtain ⟨xs, -, rfl⟩ := a
  exact pingPeriod_of_later (w.work_after xs).later

theorem leads_settleWithin (n : Nat) (w : World) : w.Leads (settleWithin n w).1 := by
  induction n generalizing w with
  | zero => exact .refl w
  | succ n ih =>
    rw [settleWithin]
    split
    · exact .refl w
    · next w' es hf =>
      obtain ⟨i, t, ht⟩ := exists_of_firstTurn hf
      have hu : (w.undergo (.turn i t)).1 = w' := by rw [undergo, ht]; rfl
      exact (hu ▸ w.leads_undergo (x := .turn i t) rfl).trans (ih w')

/-- Time passes to a moment that is not beyond any that is waited for. -/
theorem leads_pass {t : Nat} (hrest : w.firstTurn = none) (hle : w.now ≤ t)
    (hall : ∀ x ∈ w.timers, w.now < x → t ≤ x) : w.Leads { w with now := t } := by
  have hu : (w.undergo (.pass (t - w.now))).1 = { w with now := t } := by
    rw [undergo, Nat.add_sub_cancel' hle]
  rw [← hu]
  refine w.leads_undergo ?_
  rw [onTime, hrest, Option.isNone_none, Bool.true_and, List.all_eq_true]
  intro x hx
  rw [Nat.add_sub_cancel' hle, Bool.or_eq_true, decide_eq_true_iff, decide_eq_true_iff]
  exact (Nat.lt_or_ge w.now x).elim (fun hlt => .inr (hall x hx hlt)) .inl

/-! ### Rest lasts until the next moment that is waited for -/

variable {l : Link} {t : Nat}

theorem read_later (h : w.read i l = none) (hall : ∀ x ∈ linkTimers l, w.now < x → t < x) :
    ({ w with now := t } : World).read i l = none := by
  cases hp : l.phase with
  | closing | gone | lost => simp only [read, hp]
  | serving writer =>
    cases hc : l.conn with
    | none => simp only [read, hp, hc]
    | some c =>
      obtain ⟨hs, hd, hi, hpresent⟩ := (read_eq_none_iff hp hc).1 h
      refine (read_eq_none_iff hp hc).2 ⟨hs, hall _ ?_ hd, hi, hpresent⟩
      rw [linkTimers, hp]
      cases writer <;> exact List.mem_cons_self

theorem write_later (h : w.write i l = none) (hall : ∀ x ∈ linkTimers l, w.now < x → t < x) :
    ({ w with now := t } : World).write i l = none := by
  cases hp : l.phase with
  | closing | gone | lost => simp only [write, hp]
  | serving writer =>
    cases hc : l.conn with
    | none => simp only [write, hp, hc]
    | some c =>
      simp only [write, hp, hc] at h ⊢
      cases hs : w.hub.isClosing c with
      | true => rfl
      | false =>
        rw [hs, if_neg Bool.false_ne_true] at h
        rw [if_neg Bool.false_ne_true]
        cases writer with
        | stopped => rfl
        | sending =>
          dsimp only at h ⊢
          split at h
          · cases h
          split at h
          · cases h
          rw [if_neg ‹_›, if_neg ‹_›]
        | idle =>
          dsimp only at h ⊢
          split at h
          · cases h
          · split at h
            · cases h
            · next hd =>
              have hmem : l.nextPing ∈ linkTimers l := by
                rw [linkTimers, hp]
                exact .tail _ (.head _)
              rw [if_neg (Nat.not_le.2 (hall _ hmem (Nat.not_le.1 hd)))]

theorem close_later (h : w.close i l = none) (hall : ∀ x ∈ linkTimers l, w.now < x → t < x) :
    ({ w with now := t } : World).close i l = none := by
  cases hp : l.phase with
  | serving | gone | lost => simp only [close, hp]
  | closing r owed giveUp =>
    simp only [close, hp] at h ⊢
    split at h
    · cases h
    split at h
    · split at h
      · cases h
      · split at h <;> cases h
    split at h
    · cases h
    next hstuck hclear hd =>
    have hmem : giveUp ∈ linkTimers l := by
      rw [linkTimers, hp]
      exact List.mem_cons_self
    rw [if_neg hstuck, if_neg hclear, if_neg (Nat.not_le.2 (hall _ hmem (Nat.not_le.1 hd)))]

theorem receive_later (h : w.receive i l = none) :
    ({ w with now := t } : World).receive i l = none := by
  unfold receive at h ⊢
  split at h
  · rw [if_pos ‹_›]
  split at h
  · cases h
  rw [if_neg ‹_›, if_neg ‹_›]
  split at h
  · cases h
  · rw [if_neg ‹_›]

/-- If nobody waits for a moment up to `t`, then all is still at rest at `t`. -/
theorem rest_of_pass (hrest : w.firstTurn = none) (hall : ∀ x ∈ w.timers, w.now < x → t < x) :
    ({ w with now := t } : World).firstTurn = none := by
  rw [firstTurn_eq_none_iff] at hrest ⊢
  intro i hi u
  have hl : w.links[i]? = some w.links[i] := List.getElem?_eq_getElem hi
  have hu := hrest i hi u
  have hlink : ∀ x ∈ linkTimers w.links[i], w.now < x → t < x := fun x hx =>
    hall x (List.mem_append_left _ (List.mem_flatMap.2 ⟨_, List.getElem_mem hi, hx⟩))
  simp only [turn, hl] at hu ⊢
  cases u with
  | read => exact read_later hu hlink
  | write => exact write_later hu hlink
  | close => exact close_later hu hlink
  | receive => exact receive_later hu

/-- Whatever is waited for is past, or lies beyond `t`. -/
theorem timers_of_nextTimer?_eq_none (h : w.nextTimer? t = none) :
    ∀ x ∈ w.timers, w.now < x → t < x := by
  intro x hmem hlt
  by_contra hge
  have hnone : w.timers.filter (fun x => w.now < x && x ≤ t) = [] := List.min?_eq_none_iff.1 h
  have hin : x ∈ w.timers.filter fun x => w.now < x && x ≤ t :=
    List.mem_filter.2 ⟨hmem, by simp [hlt, Nat.not_lt.1 hge]⟩
  rw [hnone] at hin
  cases hin

theorem nextTimer?_least {x : Nat} (h : w.nextTimer? t = some x) :
    ∀ y ∈ w.timers, w.now < y → x ≤ y := by
  intro y hy hlty
  by_cases hyt : y ≤ t
  · exact (List.min?_eq_some_iff.1 h).2 y (List.mem_filter.2 ⟨hy, by simp [hlty, hyt]⟩)
  · exact Nat.le_trans (nextTimer?_bounds h).2 (Nat.le_of_lt (Nat.not_le.1 hyt))

theorem nextTimer?_of_least {x : Nat} (hx : x ∈ w.timers) (hlt : w.now < x) (hxt : x ≤ t)
    (hmin : ∀ y ∈ w.timers, w.now < y → x ≤ y) : w.nextTimer? t = some x := by
  refine List.min?_eq_some_iff.2 ⟨List.mem_filter.2 ⟨hx, by simp [hlt, hxt]⟩, fun y hy => ?_⟩
  obtain ⟨hmem, hy⟩ := List.mem_filter.1 hy
  simp only [Bool.and_eq_true, decide_eq_true_eq] at hy
  exact hmin y hmem hy.1

/-- Time that passes ends at rest. -/
theorem leads_advanceWithin (n : Nat) (w : World) (t : Nat) (hperiod : lateness < w.pingPeriod)
    (hrest : w.firstTurn = none) (hle : w.now ≤ t) (hn : t - w.now ≤ n) :
    w.Leads (advanceWithin n w t).1 ∧ (advanceWithin n w t).1.firstTurn = none ∧
      (advanceWithin n w t).1.now = t := by
  induction n generalizing w with
  | zero =>
    obtain rfl : t = w.now := by omega
    exact ⟨.refl w, hrest, rfl⟩
  | succ n ih =>
    rw [advanceWithin]
    cases hx : w.nextTimer? t with
    | none =>
      have hall := timers_of_nextTimer?_eq_none hx
      exact ⟨leads_pass hrest hle fun x hm hlt => Nat.le_of_lt (hall x hm hlt),
        rest_of_pass hrest hall, rfl⟩
    | some x =>
      obtain ⟨hlt, hxt⟩ := nextTimer?_bounds hx
      have hpass := leads_pass hrest (Nat.le_of_lt hlt) (nextTimer?_least hx)
      have hreport : w.Leads (reports { w with now := x }).1 :=
        hpass.trans (leads_undergo _ (x := .report) rfl)
      have hsettle : w.Leads (reports { w with now := x }).1.settle.1 :=
        hreport.trans (leads_settleWithin _ _)
      obtain ⟨hrest', hnow'⟩ := rest_settle (reports { w with now := x }).1 hperiod
      have hnow : (reports { w with now := x }).1.settle.1.now = x := hnow'
      obtain ⟨hleads, hfirst, ht⟩ := ih (reports { w with now := x }).1.settle.1
        (by rw [hsettle.pingPeriod]; exact hperiod) hrest' (by omega) (by omega)
      exact ⟨hsettle.trans hleads, hfirst, ht⟩

theorem leads_settle (w : World) : w.Leads w.settle.1 := leads_settleWithin w.load w

theorem leads_advance (w : World) {t : Nat} (hperiod : lateness < w.pingPeriod)
    (hrest : w.firstTurn = none) (hle : w.now ≤ t) :
    w.Leads (w.advance t).1 ∧ (w.advance t).1.firstTurn = none := by
  obtain ⟨hl, hr, -⟩ := leads_advanceWithin (t - w.now) w t hperiod hrest hle (Nat.le_refl _)
  exact ⟨hl, hr⟩

theorem andThen_fst (a : Happening) (f : World → Happening) : (andThen a f).1 = (f a.1).1 := rfl

/-- What follows an action that takes so long. -/
def follow (a : Happening) (ms : Nat) : Happening :=
  andThen (andThen a settle) fun w =>
    andThen (w.advance (w.now + ms)) fun w => w.advance (w.now + tick)

theorem step_eq (w : World) (a : Action) :
    w.step a = ⟨(follow (w.undergo (.act a)) (duration a)).1, (w.act a).answer,
      (follow (w.undergo (.act a)) (duration a)).2⟩ := by
  rw [step, undergo, follow]

theorem run_cons (w : World) (a : Action) (as : List Action) :
    run w (a :: as) = run (w.step a).world as := by
  rw [run, run, List.foldl_cons]

/-- A step of the running relay is a timely run, and ends at rest. -/
theorem leads_step (w : World) (a : Action) (hperiod : lateness < w.pingPeriod) :
    w.Leads (w.step a).world ∧ (w.step a).world.firstTurn = none := by
  have hact : w.Leads (w.act a).world := w.leads_undergo (x := .act a) rfl
  have hsettle := hact.trans (w.act a).world.leads_settle
  obtain ⟨hrest, -⟩ := rest_settle (w.act a).world (by rw [hact.pingPeriod]; exact hperiod)
  obtain ⟨hlast, hrest⟩ := leads_advance (t := (w.act a).world.settle.1.now + duration a) _
    (by rw [hsettle.pingPeriod]; exact hperiod) hrest (Nat.le_add_right _ _)
  have hlast := hsettle.trans hlast
  obtain ⟨htick, hrest⟩ := leads_advance
    (t := ((w.act a).world.settle.1.advance ((w.act a).world.settle.1.now + duration a)).1.now + tick)
    _ (by rw [hlast.pingPeriod]; exact hperiod) hrest (Nat.le_add_right _ _)
  rw [step_eq]
  simp only [follow, undergo, andThen_fst]
  exact ⟨hlast.trans htick, hrest⟩

theorem leads_run (as : List Action) (hperiod : lateness < w.pingPeriod)
    (hrest : w.firstTurn = none) : w.Leads (run w as) ∧ (run w as).firstTurn = none := by
  induction as generalizing w with
  | nil => exact ⟨.refl w, hrest⟩
  | cons a as ih =>
    obtain ⟨hl, hr⟩ := w.leads_step a hperiod
    obtain ⟨hl', hr'⟩ := ih (w := (w.step a).world) (by rwa [hl.pingPeriod]) hr
    rw [run_cons]
    exact ⟨hl.trans hl', hr'⟩

end World

end Relay

end Switchboard
