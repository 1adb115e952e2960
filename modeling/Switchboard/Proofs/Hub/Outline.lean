import Switchboard.Hub.Report
import Switchboard.Proofs.Envelope.Opacity
import Switchboard.Proofs.Hub.Growth

/-!
# A hub without what its frames say

The outline of a hub is the hub with every frame that waits in it made blank: how many wait is
kept, what they say is not.  Every operation can be done on the outline, and comes to the outline of
what it comes to on the hub, with the same answer.

    h.outline.enter p c = ((h.enter p c).1.outline, (h.enter p c).2)
    h.outline.deliver c f.blank = ((h.deliver c f).1.outline, (h.deliver c f).2)
-/

namespace Switchboard

/-! ## Outlines -/

/-- Any frame, with nothing in it. -/
def Frame.blank (_ : Frame) : Frame := .binary []

/-- The mailbox with as many frames, all of them blank. -/
def Mailbox.outline (m : Mailbox) : Mailbox := { m with frames := m.frames.map Frame.blank }

def Hub.outline (h : Hub) : Hub := { h with boxes := h.boxes.map Mailbox.outline }

namespace Mailbox

theorem refusal?_outline (m : Mailbox) : m.outline.refusal? = m.refusal? := by
  unfold refusal?
  rw [outline, List.length_map]

theorem offer_outline (m : Mailbox) (f : Frame) :
    m.outline.offer f.blank = (m.offer f).map outline := by
  unfold offer
  rw [refusal?_outline]
  cases m.refusal? with
  | some r => rfl
  | none =>
    show _ = Except.ok _
    simp only [outline, List.map_append, List.map_cons, List.map_nil]

theorem take_outline (m : Mailbox) (most : Option Nat) :
    m.outline.take most = ((m.take most).1.map Frame.blank, (m.take most).2.outline) := by
  unfold take outline
  simp only [List.length_map, List.map_take, List.map_drop]

end Mailbox

namespace Hub

variable (h : Hub)

/-! ## Questions -/

theorem box?_outline (c : ConnId) : h.outline.box? c = (h.box? c).map Mailbox.outline :=
  List.getElem?_map

theorem fresh_outline : h.outline.fresh = h.fresh := List.length_map _

theorem isClosing_outline (c : ConnId) : h.outline.isClosing c = h.isClosing c := by
  unfold isClosing
  rw [box?_outline]
  cases h.box? c <;> rfl

theorem gone_outline (c : ConnId) : h.outline.gone c = h.gone c := by
  unfold gone
  rw [box?_outline]
  cases h.box? c <;> rfl

theorem routeEvents_outline (bound : PeerId) (r : Except Violation Outcome) :
    h.outline.routeEvents bound r = h.routeEvents bound r := rfl

/-! ## Operations -/

theorem outline_tally (t : Tally) : (h.tally t).outline = h.outline.tally t := rfl

theorem outline_shutdown : h.shutdown.outline = h.outline.shutdown := rfl

theorem outline_unregister (p : PeerId) : (h.unregister p).outline = h.outline.unregister p := rfl

theorem outline_openBox (p : PeerId) (n : Nat) :
    (h.openBox p n).outline = h.outline.openBox p n := by
  simp only [outline, openBox, List.map_append]
  rfl

/-- What is done to a mailbox can be done to its outline, if the two agree on that mailbox. -/
theorem outline_updateBox {c : ConnId} {g k : Mailbox → Mailbox}
    (hg : ∀ m, h.box? c = some m → (g m).outline = k m.outline) :
    (h.updateBox c g).outline = h.outline.updateBox c k := by
  have hboxes : (h.boxes.modify c g).map Mailbox.outline =
      (h.boxes.map Mailbox.outline).modify c k := by
    apply List.ext_getElem?
    intro d
    rw [List.getElem?_map, List.getElem?_modify, List.getElem?_modify, List.getElem?_map]
    by_cases hd : c = d
    · subst hd
      cases hm : h.boxes[c]? with
      | none => rfl
      | some m =>
        simp only [Option.map_eq_map, Option.map_some, if_true]
        exact congrArg some (hg m hm)
    · simp [hd]
  simp only [outline, updateBox, hboxes]

theorem outline_requestClose (c : ConnId) :
    (h.requestClose c).outline = h.outline.requestClose c := h.outline_updateBox fun _ _ => rfl

theorem outline_shut (c : ConnId) :
    (h.updateBox c Mailbox.shut).outline = h.outline.updateBox c Mailbox.shut :=
  h.outline_updateBox fun _ _ => rfl

theorem outline_discard (c : ConnId) :
    (h.updateBox c Mailbox.discard).outline = h.outline.updateBox c Mailbox.discard :=
  h.outline_updateBox fun _ _ => rfl

theorem outline_leave (p : PeerId) (c : ConnId) : (h.leave p c).outline = h.outline.leave p c := by
  unfold leave
  show _ = if h.isCurrent p c = true then _ else _
  split <;> rfl

theorem outline_release (p : PeerId) (c : ConnId) :
    (h.release p c).outline = h.outline.release p c := by
  unfold release
  rw [outline_tally, outline_leave]

theorem enter_outline (p : PeerId) (c : ConnId) :
    h.outline.enter p c = ((h.enter p c).1.outline, (h.enter p c).2) := by
  unfold enter
  have hlookup : h.outline.lookup p = h.lookup p := rfl
  rw [hlookup]
  cases h.lookup p with
  | none => rfl
  | some old =>
    have hpolicy : h.outline.policy = h.policy := rfl
    simp only [hpolicy]
    cases h.policy.duplicates with
    | rejectNew => rfl
    | evictExisting =>
      simp only [outline_requestClose]
      rfl

theorem register_outline (p : PeerId) (n : Nat) :
    h.outline.register p n = ((h.register p n).1.outline, (h.register p n).2) := by
  have henter := (h.openBox p n).enter_outline p h.fresh
  rw [outline_openBox] at henter
  unfold register
  rw [fresh_outline, henter]
  rcases (h.openBox p n).enter p h.fresh with ⟨h', ⟨t⟩ | ⟨evicted⟩⟩
  · rfl
  · cases evicted <;> rfl

theorem deliver_outline (c : ConnId) (f : Frame) :
    h.outline.deliver c f.blank = ((h.deliver c f).1.outline, (h.deliver c f).2) := by
  unfold deliver
  rw [box?_outline]
  cases h.box? c with
  | none => rfl
  | some m =>
    simp only [Option.map_some, m.offer_outline f]
    cases m.offer f with
    | error r => rfl
    | ok m' =>
      simp only [Except.map]
      rw [h.outline_updateBox (g := fun _ => m') (k := fun _ => m'.outline) fun _ _ => rfl]

theorem receive_outline (c : ConnId) (most : Option Nat) :
    h.outline.receive c most =
      ((h.receive c most).1.map Frame.blank, (h.receive c most).2.outline) := by
  unfold receive
  rw [box?_outline]
  cases h.box? c with
  | none => rfl
  | some m =>
    simp only [Option.map_some, m.take_outline most]
    rw [h.outline_updateBox (g := fun _ => (m.take most).2)
      (k := fun _ => (m.take most).2.outline) fun _ _ => rfl]

theorem forward_outline (dest : PeerId) (f : Frame) :
    h.outline.forward dest f.blank = ((h.forward dest f).1.outline, (h.forward dest f).2) := by
  unfold forward
  have hlookup : h.outline.lookup dest = h.lookup dest := rfl
  rw [hlookup]
  cases h.lookup dest with
  | none => rfl
  | some c =>
    simp only [h.deliver_outline c f]
    rcases h.deliver c f with ⟨h', ⟨_ | _⟩ | ⟨_⟩⟩ <;> rfl

/-- What becomes of a frame, but for its own fate in a mailbox, depends on its envelope and on the
outline. -/
theorem outline_route (bound : PeerId) (f : Frame) :
    (h.route bound f).1.outline = (match accept bound f with
      | .error _ => (h.outline.tally .received).tally .violation
      | .ok e => ((h.outline.tally .received).forward e.recipient f.blank).1) ∧
    (h.route bound f).2 = (match accept bound f with
      | .error v => .error v
      | .ok e => .ok ((h.outline.tally .received).forward e.recipient f.blank).2) := by
  unfold route
  cases accept bound f with
  | error v => exact ⟨rfl, rfl⟩
  | ok e =>
    have hforward := (h.tally .received).forward_outline e.recipient f
    rw [outline_tally] at hforward
    simp only [hforward, and_self]

/-! ## Hubs of one outline -/

variable {h} {k : Hub} (e : k.outline = h.outline)

include e

theorem table_of_outline : k.table = h.table := congrArg (·.table) e

theorem policy_of_outline : k.policy = h.policy := congrArg (·.policy) e

theorem counters_of_outline : k.counters = h.counters := congrArg (·.counters) e

theorem stopping_of_outline : k.stopping = h.stopping := congrArg (·.stopping) e

theorem fresh_of_outline : k.fresh = h.fresh := by
  rw [← fresh_outline, e, fresh_outline]

theorem lookup_of_outline (p : PeerId) : k.lookup p = h.lookup p := by
  unfold lookup
  rw [table_of_outline e]

theorem isCurrent_of_outline (p : PeerId) (c : ConnId) : k.isCurrent p c = h.isCurrent p c := by
  unfold isCurrent
  rw [lookup_of_outline e]

theorem isClosing_of_outline (c : ConnId) : k.isClosing c = h.isClosing c := by
  rw [← isClosing_outline, e, isClosing_outline]

theorem gone_of_outline (c : ConnId) : k.gone c = h.gone c := by
  rw [← gone_outline, e, gone_outline]

theorem enter_of_outline (p : PeerId) (c : ConnId) :
    (k.enter p c).1.outline = (h.enter p c).1.outline ∧ (k.enter p c).2 = (h.enter p c).2 := by
  have hk := k.enter_outline p c
  rw [e, h.enter_outline p c] at hk
  exact ⟨(Prod.mk.inj hk).1.symm, (Prod.mk.inj hk).2.symm⟩

theorem register_of_outline (p : PeerId) (n : Nat) :
    (k.register p n).1.outline = (h.register p n).1.outline ∧
      (k.register p n).2 = (h.register p n).2 := by
  have hk := k.register_outline p n
  rw [e, h.register_outline p n] at hk
  exact ⟨(Prod.mk.inj hk).1.symm, (Prod.mk.inj hk).2.symm⟩

theorem deliver_of_outline (c : ConnId) (f : Frame) :
    (k.deliver c f).1.outline = (h.deliver c f).1.outline ∧
      (k.deliver c f).2 = (h.deliver c f).2 := by
  have hk := k.deliver_outline c f
  rw [e, h.deliver_outline c f] at hk
  exact ⟨(Prod.mk.inj hk).1.symm, (Prod.mk.inj hk).2.symm⟩

theorem receive_of_outline (c : ConnId) (most : Option Nat) :
    (k.receive c most).1.length = (h.receive c most).1.length ∧
      (k.receive c most).2.outline = (h.receive c most).2.outline := by
  have hk := k.receive_outline c most
  rw [e, h.receive_outline c most] at hk
  have hlength := congrArg List.length (Prod.mk.inj hk).1
  rw [List.length_map, List.length_map] at hlength
  exact ⟨hlength.symm, (Prod.mk.inj hk).2.symm⟩

/-- Frames that the relay takes for the same meet the same fate. -/
theorem route_of_outline {f f' : Frame} (hf : f.Redressed f') (bound : PeerId) :
    (k.route bound f').1.outline = (h.route bound f).1.outline ∧
      ((∃ o, (h.route bound f).2 = .ok o ∧ (k.route bound f').2 = .ok o) ∨
        ∃ v v', (h.route bound f).2 = .error v ∧ (k.route bound f').2 = .error v' ∧
          v.Alike v') := by
  obtain ⟨hstate, hanswer⟩ := h.outline_route bound f
  obtain ⟨kstate, kanswer⟩ := k.outline_route bound f'
  have halike := alike_accept hf bound
  rw [hstate, hanswer, kstate, kanswer, e]
  generalize accept bound f = x at halike ⊢
  generalize accept bound f' = x' at halike ⊢
  cases halike with
  | envelope env => exact ⟨rfl, .inl ⟨_, rfl, rfl⟩⟩
  | violation hv => exact ⟨rfl, .inr ⟨_, _, rfl, rfl, hv⟩⟩

end Hub

end Switchboard
