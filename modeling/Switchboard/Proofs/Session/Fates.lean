import Switchboard.Proofs.Session.Queues
import Switchboard.Proofs.Session.Recount

/-!
# What becomes of a routed frame

A frame that is no envelope of the peer that it came from is a violation.  What becomes of any other
is told by the mailbox that is entered for its recipient: the frame is forwarded if that mailbox is
live and has room, dropped if it is live and full, and unroutable otherwise.  The frame goes behind
the others there if it is forwarded, and but for two counters nothing else ever changes.

    o = forwarded p ↔ s.RoomFor p
    o = dropped p ↔ s.FullFor p
    (step s (.route bound f)).state = (s.put p f).counting [received, forwarded]
-/

namespace Switchboard

/-! ## Specification -/

/-- The mailbox takes part: its close signal is not raised and its reading end is open. -/
def Mailbox.Live (m : Mailbox) : Prop := m.closing = false ∧ m.outlet = .open

/-- The mailbox of the connection that is entered for a peer. -/
def Hub.seat (h : Hub) (p : PeerId) : Option Mailbox := (h.lookup p).bind h.box?

/-- The hub with a frame behind the others in the mailbox that is entered for a peer. -/
def Hub.put (h : Hub) (p : PeerId) (f : Frame) : Hub :=
  match h.lookup p with
  | some c => h.updateBox c fun m => { m with frames := m.frames ++ [f] }
  | none => h

namespace Session

def State.RoomFor (s : State) (p : PeerId) : Prop :=
  ∃ m, s.hub.seat p = some m ∧ m.Live ∧ m.frames.length < m.capacity

def State.FullFor (s : State) (p : PeerId) : Prop :=
  ∃ m, s.hub.seat p = some m ∧ m.Live ∧ m.frames.length = m.capacity

def State.put (s : State) (p : PeerId) (f : Frame) : State := { s with hub := s.hub.put p f }

/-- The state with some more things counted. -/
def State.counting (s : State) (ts : List Tally) : State :=
  s.recount (s.hub.counters.countAll ts)

end Session

/-! ## Mailboxes that refuse -/

namespace Mailbox

theorem refusal?_eq_full_iff (m : Mailbox) :
    m.refusal? = some .full ↔ m.Live ∧ m.capacity ≤ m.frames.length := by
  unfold refusal? Live
  split
  · next h =>
    simp only [Bool.or_eq_true, decide_eq_true_eq] at h
    rcases h with h | h <;> simp [h]
  · next h =>
    simp only [Bool.or_eq_true, decide_eq_true_eq, not_or, Bool.not_eq_true, Decidable.not_not] at h
    split <;> simp [h] <;> omega

end Mailbox

/-! ## Frames that are handed over -/

namespace Hub

variable {h : Hub} {dest : PeerId} {m : Mailbox}

theorem updateBox_congr {c : ConnId} (hm : h.box? c = some m) {g k : Mailbox → Mailbox}
    (hg : g m = k m) : h.updateBox c g = h.updateBox c k := by
  have hboxes : h.boxes.modify c g = h.boxes.modify c k := by
    apply List.ext_getElem?
    intro d
    rw [List.getElem?_modify, List.getElem?_modify]
    by_cases hd : c = d
    · subst hd
      have hm' : h.boxes[c]? = some m := hm
      simp [hm', hg]
    · simp [hd]
  rw [updateBox, hboxes, updateBox]

theorem forward_of_seat (hs : h.seat dest = some m) (f : Frame) :
    h.forward dest f = match m.refusal? with
      | none => ((h.put dest f).tally .forwarded, .forwarded dest)
      | some .full => (h.tally .dropped, .dropped dest)
      | some .closed => (h.tally .unroutable, .unroutable dest .closing) := by
  obtain ⟨c, hl, hm⟩ := Option.bind_eq_some_iff.1 hs
  unfold forward put
  rw [hl]
  dsimp only
  obtain ⟨n, hn, hr, hd⟩ | ⟨r, hr, hd⟩ := h.deliver_cases c f
  · obtain rfl := Option.some.inj (hn.symm.trans hm)
    rw [hd, hr, updateBox_congr hn (k := fun m => { m with frames := m.frames ++ [f] }) rfl]
  · rw [hd, hr m hm]
    cases r <;> rfl

theorem forward_of_no_seat (hs : h.seat dest = none) (f : Frame) :
    ∃ why, h.forward dest f = (h.tally .unroutable, .unroutable dest why) := by
  unfold forward
  cases hl : h.lookup dest with
  | none => exact ⟨_, rfl⟩
  | some c =>
    have hm : h.box? c = none := by rwa [seat, hl, Option.bind_some] at hs
    refine ⟨.closing, ?_⟩
    simp only [deliver, hm]

end Hub

/-! ## Fates in a session -/

namespace Session

/-- What becomes of a frame that is sound, and the state after it. -/
structure Fate (s : State) (p : PeerId) (f : Frame) (o : Outcome) (s' : State) : Prop where
  forwarded : o = .forwarded p ↔ s.RoomFor p
  dropped : o = .dropped p ↔ s.FullFor p
  unroutable : (∃ why, o = .unroutable p why) ↔ ¬ s.RoomFor p ∧ ¬ s.FullFor p
  placed : s.RoomFor p → s' = (s.put p f).counting [.received, .forwarded]
  spared : ¬ s.RoomFor p → s' = s.counting [.received, o.tally]

variable {s : State} {p : PeerId} {m : Mailbox}

theorem roomFor_iff (hs : s.hub.seat p = some m) : s.RoomFor p ↔ m.refusal? = none := by
  rw [m.refusal?_eq_none_iff]
  constructor
  · rintro ⟨n, hn, hlive, hlt⟩
    obtain rfl := Option.some.inj (hn.symm.trans hs)
    exact ⟨hlive.1, hlive.2, hlt⟩
  · rintro ⟨hc, ho, hlt⟩
    exact ⟨m, hs, ⟨hc, ho⟩, hlt⟩

/-- No queue holds more than it may, so the one that takes nothing more is at its capacity. -/
theorem fullFor_iff (hfit : s.hub.Fits) (hs : s.hub.seat p = some m) :
    s.FullFor p ↔ m.refusal? = some .full := by
  rw [m.refusal?_eq_full_iff]
  constructor
  · rintro ⟨n, hn, hlive, heq⟩
    obtain rfl := Option.some.inj (hn.symm.trans hs)
    exact ⟨hlive, Nat.le_of_eq heq.symm⟩
  · rintro ⟨hlive, hle⟩
    obtain ⟨c, -, hm⟩ := Option.bind_eq_some_iff.1 hs
    exact ⟨m, hs, hlive, Nat.le_antisymm (hfit c m hm) hle⟩

theorem fate_route (hfit : s.hub.Fits) {bound : PeerId} {f : Frame} {e : Envelope}
    (ha : Hub.accept bound f = .ok e) :
    ∃ o, (step s (.route bound f)).answer = .routed o ∧
      Fate s e.recipient f o (step s (.route bound f)).state := by
  have hr := Hub.route_of_accept (h := s.hub) ha
  have hseat : (s.hub.tally .received).seat e.recipient = s.hub.seat e.recipient := rfl
  have hput : (s.hub.tally .received).put e.recipient f =
      (s.hub.put e.recipient f).tally .received := by
    unfold Hub.put
    rw [Hub.lookup_tally]
    cases s.hub.lookup e.recipient <;> rfl
  simp only [step, route]
  cases hs : s.hub.seat e.recipient with
  | none =>
    obtain ⟨why, hf⟩ := Hub.forward_of_no_seat (hseat.trans hs) f
    have hroom : ¬ s.RoomFor e.recipient := by
      rintro ⟨n, hn, -⟩
      rw [hs] at hn
      cases hn
    have hfull : ¬ s.FullFor e.recipient := by
      rintro ⟨n, hn, -⟩
      rw [hs] at hn
      cases hn
    rw [hr, hf]
    exact ⟨_, rfl, by simp [hroom], by simp [hfull], by simp [hroom, hfull], (absurd · hroom),
      fun _ => rfl⟩
  | some m =>
    have hf := Hub.forward_of_seat (hseat.trans hs) f
    have hroom := roomFor_iff hs
    have hfull := fullFor_iff hfit hs
    rw [hr, hf, hput]
    cases hm : m.refusal? with
    | none =>
      rw [hm] at hroom hfull
      exact ⟨_, rfl, by simp [hroom], by simp [hfull], by simp [hroom], fun _ => rfl,
        (absurd (hroom.2 rfl) ·)⟩
    | some r =>
      rw [hm] at hroom hfull
      have hno : ¬ s.RoomFor e.recipient := fun h => by cases hroom.1 h
      cases r with
      | full =>
        exact ⟨_, rfl, by simp [hno], by simp [hfull], by simp [hfull], (absurd · hno),
          fun _ => rfl⟩
      | closed =>
        exact ⟨_, rfl, by simp [hno], by simp [hfull], by simp [hno, hfull], (absurd · hno),
          fun _ => rfl⟩

theorem violation_route {bound : PeerId} {f : Frame} {v : Violation}
    (ha : Hub.accept bound f = .error v) :
    (step s (.route bound f)).answer = .violated v ∧
      (step s (.route bound f)).state = s.counting [.received, .violation] := by
  have hr := Hub.route_of_violation (h := s.hub) ha
  simp only [step, route, hr, true_and]
  rfl

/-! ## Top theorem -/

/-- **What becomes of a routed frame.**  In every state that a run leads to: a frame that is no
envelope, or one in another's name, is answered by that violation, and it is counted, and that is
all.  Any other is forwarded, dropped or unroutable as the mailbox that is entered for its recipient
has room, is full or is neither, whoever sent it; if it is forwarded it goes behind the others
there, as it is, and otherwise it is only counted. -/
theorem route_exactly (p : Policy) (steps : List Step) (bound : PeerId) (f : Frame) :
    let s := run (start p) steps
    let r := step s (.route bound f)
    match Envelope.ofFrame f with
    | .error v => r.answer = .violated v ∧ r.state = s.counting [.received, .violation]
    | .ok e =>
      if e.sender = bound then
        ∃ o, r.answer = .routed o ∧ Fate s e.recipient f o r.state
      else
        r.answer = .violated (.identityMismatch bound e.sender) ∧
          r.state = s.counting [.received, .violation] := by
  intro s r
  have hfit : s.hub.Fits := (later_run (start p) steps).fits (fits_start p)
  cases hf : Envelope.ofFrame f with
  | error v =>
    have ha : Hub.accept bound f = .error v := by simp only [Hub.accept, hf]
    exact violation_route ha
  | ok e =>
    dsimp only
    split
    · next hs => exact fate_route hfit ((Hub.accept_eq_ok_iff bound f e).2 ⟨hf, hs⟩)
    · next hs =>
      have ha : Hub.accept bound f = .error (.identityMismatch bound e.sender) := by
        simp only [Hub.accept, hf, Envelope.verify, if_neg hs]
      exact violation_route ha

end Session

end Switchboard
