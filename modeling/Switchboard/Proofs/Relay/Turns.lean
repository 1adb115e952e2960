import Switchboard.Proofs.Hub.Work
import Switchboard.Relay.World

/-!
# What a turn can come to

A turn of a link changes that link and the hub, and nothing else.  `Turned` lists all it can do,
with what it was done for: a served link ends for a reason (`Ending`), hears a frame, hands one over
(`Given`), or crashes; a closing link pays the close frame it owes, or is gone (`Parting`).

    w.turn i t = some (w', es) → w' = w.put i l' h' and Turned w l l' h' es
    Turned w l l' h' es → w.hub.Work h'
-/

namespace Switchboard.Relay

/-! ## All that a turn can do -/

/-- A served link may read, and `x` is the next thing that came. -/
structure Hears (w : World) (l : Link) (c : ConnId) (x : Arrival) (rest : List Arrival) : Prop where
  calm : w.hub.isClosing c = false
  early : w.now < l.deadline
  next : l.inbound = x :: rest

/-- A served link hears a frame that the transport lets through. -/
structure Gets (w : World) (l : Link) (c : ConnId) (f : Frame) (rest : List Arrival) : Prop
    extends Hears w l c (.frame f) rest where
  sound : Link.transportFault? w.hub.policy.maxMessageSize f = none

/-- It does so while a clock can measure the silence that may follow. -/
structure Accepts (w : World) (l : Link) (c : ConnId) (f : Frame) (rest : List Arrival) : Prop
    extends Gets w l c f rest where
  timed : w.idleTooLong = false

/-- The link with the rest of what came. -/
def Link.past (l : Link) (rest : List Arrival) : Link := { l with inbound := rest }

/-- The link once a frame was heard: it may be silent for as long as ever. -/
def World.awake (w : World) (l : Link) (rest : List Arrival) : Link :=
  { l with inbound := rest, deadline := w.now + w.idleLimit }

/-- Why the service of a link ends, what its client is owed, the link and the hub then, and what is
reported first. -/
inductive Ending (w : World) (l : Link) (c : ConnId) :
    CloseReason → Option Frame → Link → Hub → List Event → Prop
  | told {r : CloseReason} (hs : w.hub.isClosing c = true)
      (hr : r = if w.hub.isCurrent l.peer c then .outboundFailed else .superseded) :
      Ending w l c r (World.owedFor r) l w.hub []
  | silent (hs : w.hub.isClosing c = false) (hd : l.deadline ≤ w.now) :
      Ending w l c .timeout (World.owedFor .timeout) l w.hub [l.idleEvent w.idleLimit]
  | finished {rest : List Arrival} (hh : Hears w l c .finished rest) :
      Ending w l c .disconnected none (l.past rest) w.hub []
  | fault {detail : String} {rest : List Arrival} (hh : Hears w l c (.fault detail) rest) :
      Ending w l c (.transport detail) (some (.close none)) (l.past rest) w.hub
        [l.transportEvent detail]
  | misfit {f : Frame} {detail : String} {rest : List Arrival} (hh : Hears w l c (.frame f) rest)
      (hf : Link.transportFault? w.hub.policy.maxMessageSize f = some detail) :
      Ending w l c (.transport detail) (some (.close none)) (l.past rest) w.hub
        [l.transportEvent detail]
  | vanished (hs : w.hub.isClosing c = false) (hd : w.now < l.deadline) (hi : l.inbound = [])
      (hc : l.client.present = false) :
      Ending w l c (.transport Link.resetText) none l w.hub [l.transportEvent Link.resetText]
  | left {cf : Option CloseFrame} {rest : List Arrival} (hh : Accepts w l c (.close cf) rest) :
      Ending w l c .clientClosed (some (Link.echo cf)) (w.awake l rest) w.hub []
  | mute {b : Bytes} {rest : List Arrival} (hh : Accepts w l c (.ping b) rest)
      (hw : l.wire.send? (.pong b) = none) :
      Ending w l c (.transport Link.brokenText) (some (.close none)) (w.awake l rest) w.hub
        [l.transportEvent Link.brokenText]
  | violated {f : Frame} {rest : List Arrival} {v : Violation} {h : Hub}
      (hh : Accepts w l c f rest) (hf : f.isData = true)
      (hr : w.hub.route l.peer f = (h, .error v)) :
      Ending w l c (.violation v) (World.owedFor (.violation v)) (w.awake l rest) h
        [l.violationEvent v]

/-- When the next ping is due after one at `now`. -/
def World.pingAfter (w : World) (l : Link) : Nat :=
  if l.nextPing + lateness < w.now then w.now + w.pingPeriod else l.nextPing + w.pingPeriod

/-- What a writing hand hands over next, and the link and the hub without it. -/
inductive Given (w : World) (l : Link) (c : ConnId) : Frame → Link → Hub → List Event → Prop
  | queued {f : Frame} {fs : List Frame} {h : Hub} (hr : w.hub.receive c (some 1) = (f :: fs, h)) :
      Given w l c f l h []
  | ping {h : Hub} (hr : w.hub.receive c (some 1) = ([], h)) (hd : l.nextPing ≤ w.now) :
      Given w l c (.ping []) { l with nextPing := w.pingAfter l } w.hub [l.pingEvent]

/-- What is said of a close frame that could not be handed over. -/
def Link.unsaid (l : Link) (r : CloseReason) : List Event :=
  if r.closeFrame.isSome then [l.closeFrameEvent] else []

/-- Why a closing link is waited for no longer, and what is reported first. -/
inductive Parting (w : World) (l : Link) (r : CloseReason) (owed : Option Frame) (giveUp : Nat) :
    List Event → Prop
  | stuck (hm : l.isMute = true) (hw : l.wire.isClear = false) :
      Parting w l r owed giveUp (l.unsaid r)
  | said (hw : l.wire.isClear = true) (ho : owed = none) : Parting w l r owed giveUp []
  | lost {f : Frame} (hw : l.wire.isClear = true) (ho : owed = some f)
      (hf : l.isMute = true ∨ l.wire.send? f = none) : Parting w l r owed giveUp (l.unsaid r)
  | late (hw : l.wire.isClear = false) (hg : giveUp ≤ w.now) :
      Parting w l r owed giveUp [l.giveUpEvent]

/-- What one turn of the link `l` makes of it and of the hub, and what is reported. -/
inductive Turned (w : World) (l : Link) : Link → Hub → List Event → Prop
  | ended {c : ConnId} {writer : Writer} {r : CloseReason} {owed : Option Frame} {l₀ : Link}
      {h₀ : Hub} {before : List Event} (hp : l.phase = .serving writer) (hc : l.conn = some c)
      (he : Ending w l c r owed l₀ h₀ before) :
      Turned w l { l₀ with phase := .closing r owed (w.now + closeTimeout) }
        ((h₀.release l.peer c).requestClose c)
        (before ++ [Stage.established.moveEvent l.peer .closing, Hub.releaseEvent l.peer c r])
  | crashed {c : ConnId} {writer : Writer} {f : Frame} {rest : List Arrival}
      (hp : l.phase = .serving writer) (hc : l.conn = some c) (hh : Gets w l c f rest)
      (hi : w.idleTooLong = true) :
      Turned w l { l.past rest with
        phase := .lost .established
        wire := l.leftover (w.hub.receive c none).1 }
        ((w.hub.leave l.peer c).updateBox c Mailbox.discard)
        (if l.failsOn (w.hub.receive c none).1 then [l.writeEvent] else [])
  | woke {c : ConnId} {writer : Writer} {b : Bytes} {rest : List Arrival}
      (hp : l.phase = .serving writer) (hc : l.conn = some c) (hh : Accepts w l c (.pong b) rest) :
      Turned w l (w.awake l rest) w.hub []
  | answered {c : ConnId} {writer : Writer} {b : Bytes} {rest : List Arrival} {wire : Wire}
      (hp : l.phase = .serving writer) (hc : l.conn = some c) (hh : Accepts w l c (.ping b) rest)
      (hw : l.wire.send? (.pong b) = some wire) :
      Turned w l { w.awake l rest with wire := wire } w.hub []
  | routed {c : ConnId} {writer : Writer} {f : Frame} {rest : List Arrival} {o : Outcome} {h : Hub}
      (hp : l.phase = .serving writer) (hc : l.conn = some c) (hh : Accepts w l c f rest)
      (hf : f.isData = true) (hr : w.hub.route l.peer f = (h, .ok o)) :
      Turned w l (w.awake l rest) h (w.hub.routeEvents l.peer (.ok o))
  | ready {c : ConnId} (hp : l.phase = .serving .sending) (hc : l.conn = some c)
      (hs : w.hub.isClosing c = false) (hw : l.wire.isClear = true) :
      Turned w l { l with phase := .serving .idle } w.hub []
  | jammed {c : ConnId} (hp : l.phase = .serving .sending) (hc : l.conn = some c)
      (hs : w.hub.isClosing c = false) (hw : l.wire.isClear = false) (hm : l.isMute = true) :
      Turned w l { l with phase := .serving .stopped } (w.hub.requestClose c) [l.writeEvent]
  | handed {c : ConnId} {f : Frame} {l₀ : Link} {h₀ : Hub} {before : List Event} {wire : Wire}
      (hp : l.phase = .serving .idle) (hc : l.conn = some c) (hs : w.hub.isClosing c = false)
      (hg : Given w l c f l₀ h₀ before) (hm : l.isMute = false) (hw : l.wire.send? f = some wire) :
      Turned w l { l₀ with
        wire := wire
        phase := .serving (if wire.isClear then .idle else .sending) } h₀ before
  | failed {c : ConnId} {f : Frame} {l₀ : Link} {h₀ : Hub} {before : List Event}
      (hp : l.phase = .serving .idle) (hc : l.conn = some c) (hs : w.hub.isClosing c = false)
      (hg : Given w l c f l₀ h₀ before) (hw : l.isMute = true ∨ l.wire.send? f = none) :
      Turned w l { l₀ with phase := .serving .stopped } (h₀.requestClose c)
        (before ++ [l.writeEvent])
  | paid {r : CloseReason} {f : Frame} {giveUp : Nat} {wire : Wire}
      (hp : l.phase = .closing r (some f) giveUp) (hc : l.wire.isClear = true)
      (hm : l.isMute = false) (hw : l.wire.send? f = some wire) :
      Turned w l { l with wire := wire, phase := .closing r none giveUp } w.hub []
  | parted {r : CloseReason} {owed : Option Frame} {giveUp : Nat} {before : List Event}
      (hp : l.phase = .closing r owed giveUp) (hb : Parting w l r owed giveUp before) :
      Turned w l { l with phase := .gone, wire := l.wire.cut }
        (match l.conn with
          | some c => w.hub.updateBox c Mailbox.discard
          | none => w.hub)
        (before ++ [Stage.closing.moveEvent l.peer .closed, l.finalEvent r])
  | drained (hp : l.client.present = true) (hr : l.client.reading = true)
      (he : l.client.ended = false) (hw : l.wire.frames ≠ []) :
      Turned w l { l with
        wire := l.wire.drain.2
        inbound := l.inbound ++ World.answers l.wire.drain.1
        client := { l.client with inbox := l.client.inbox ++ l.wire.drain.1.map Item.frame } }
        w.hub []
  | noticed (hp : l.phase.isOver = true) (he : l.client.ended = false) :
      Turned w l { l with
        client := { l.client with ended := true, inbox := l.client.inbox ++ [.ending] } } w.hub []

/-- The world with another hub and another link at `i`. -/
def World.put (w : World) (i : Nat) (l : Link) (h : Hub) : World := { w with hub := h }.setLink i l

/-! ## A turn does nothing else -/

namespace World

theorem finish_eq {w : World} {i : Nat} {l k : Link} {c : ConnId} {writer : Writer}
    (r : CloseReason) (owed : Option Frame) (hp : k.phase = .serving writer)
    (hc : k.conn = some c) (hl : k.peer = l.peer) :
    w.finish i k r owed =
      (w.put i { k with phase := .closing r owed (w.now + closeTimeout) }
        ((w.hub.release l.peer c).requestClose c),
        [Stage.established.moveEvent l.peer .closing, Hub.releaseEvent l.peer c r]) := by
  simp only [finish, hc, Link.stage, hp, hl]
  rfl

theorem fail_eq {w : World} {i : Nat} {l k : Link} {c : ConnId} {writer : Writer}
    (detail : String) (owed : Option Frame) (hp : k.phase = .serving writer)
    (hc : k.conn = some c) (hl : k.peer = l.peer) :
    w.fail i k detail owed =
      (w.put i { k with phase := .closing (.transport detail) owed (w.now + closeTimeout) }
        ((w.hub.release l.peer c).requestClose c),
        l.transportEvent detail :: [Stage.established.moveEvent l.peer .closing,
          Hub.releaseEvent l.peer c (.transport detail)]) := by
  simp only [fail, finish_eq (.transport detail) owed hp hc hl, Link.transportEvent, hl]

theorem crash_eq {w : World} {i : Nat} {l : Link} {c : ConnId} {writer : Writer}
    {rest : List Arrival} (hp : l.phase = .serving writer) :
    w.crash i (l.past rest) c =
      (w.put i { l.past rest with
          phase := .lost .established
          wire := l.leftover (w.hub.receive c none).1 }
        ((w.hub.leave l.peer c).updateBox c Mailbox.discard),
        if l.failsOn (w.hub.receive c none).1 then [l.writeEvent] else []) := by
  have hstage : (l.past rest).stage = .established := by rw [Link.stage, Link.past, hp]
  rw [crash, hstage]
  rfl

/-- What becomes of a frame that was let through. -/
theorem take_cases {w : World} {i : Nat} {l : Link} {c : ConnId} {writer : Writer} {f : Frame}
    {rest : List Arrival} (hp : l.phase = .serving writer) (hc : l.conn = some c)
    (hh : Accepts w l c f rest) :
    ∃ l' h' es, w.take i (w.awake l rest) f = (w.put i l' h', es) ∧ Turned w l l' h' es := by
  have hp' : (w.awake l rest).phase = .serving writer := hp
  have hc' : (w.awake l rest).conn = some c := hc
  -- data frames are routed, and what becomes of them decides
  have sound : ∀ h o, w.hub.route l.peer f = (h, .ok o) → f.isData = true →
      w.take i (w.awake l rest) f =
        (w.put i (w.awake l rest) h, w.hub.routeEvents l.peer (.ok o)) := by
    intro h o hr hf
    cases f with
    | text | binary =>
      simp only [take, awake, hr]
      rfl
    | ping | pong | close => cases hf
  have unsound : ∀ h v, w.hub.route l.peer f = (h, .error v) → f.isData = true →
      w.take i (w.awake l rest) f =
        (({ w with hub := h }.finish i (w.awake l rest) (.violation v) (owedFor (.violation v))).1,
          l.violationEvent v ::
            ({ w with hub := h }.finish i (w.awake l rest) (.violation v)
              (owedFor (.violation v))).2) := by
    intro h v hr hf
    cases f with
    | text | binary =>
      simp only [take, awake, hr]
      rfl
    | ping | pong | close => cases hf
  have hdata : f.isData = true →
      ∃ l' h' es, w.take i (w.awake l rest) f = (w.put i l' h', es) ∧ Turned w l l' h' es := by
    intro hf
    rcases hr : w.hub.route l.peer f with ⟨h, v | o⟩
    · rw [unsound h v hr hf, finish_eq (l := l) _ _ hp' hc' rfl]
      exact ⟨_, _, _, rfl, .ended hp hc (.violated hh hf hr)⟩
    · rw [sound h o hr hf]
      exact ⟨_, _, _, rfl, .routed hp hc hh hf hr⟩
  cases f with
  | text | binary => exact hdata rfl
  | pong b => exact ⟨_, _, _, rfl, .woke hp hc hh⟩
  | close cf =>
    exact ⟨_, _, _, finish_eq _ _ hp' hc' rfl, .ended hp hc (.left hh)⟩
  | ping b =>
    have hwire : (w.awake l rest).wire = l.wire := rfl
    cases hs : l.wire.send? (.pong b) with
    | some wire =>
      simp only [take, hwire, hs]
      exact ⟨_, _, _, rfl, .answered hp hc hh hs⟩
    | none =>
      simp only [take, hwire, hs]
      exact ⟨_, _, _, fail_eq _ _ hp' hc' rfl, .ended hp hc (.mute hh hs)⟩

theorem read_cases {w w' : World} {i : Nat} {l : Link} {es : List Event}
    (h : w.read i l = some (w', es)) :
    ∃ l' h', w' = w.put i l' h' ∧ Turned w l l' h' es := by
  unfold read at h
  split at h
  case h_2 => cases h
  next writer c hp hc =>
  have ended : ∀ {r owed l₀ before}, Ending w l c r owed l₀ w.hub before →
      ∃ l' h', w.put i { l₀ with phase := .closing r owed (w.now + closeTimeout) }
          ((w.hub.release l.peer c).requestClose c) = w.put i l' h' ∧
        Turned w l l' h' (before ++ [Stage.established.moveEvent l.peer .closing,
          Hub.releaseEvent l.peer c r]) :=
    fun he => ⟨_, _, rfl, .ended hp hc he⟩
  by_cases hs : w.hub.isClosing c = true
  · simp only [hs, if_true, finish_eq _ _ hp hc rfl, Option.some.injEq, Prod.mk.injEq] at h
    obtain ⟨rfl, rfl⟩ := h
    exact ended (.told hs rfl)
  rw [if_neg hs] at h
  rw [Bool.not_eq_true] at hs
  by_cases hd : l.deadline ≤ w.now
  · simp only [hd, if_true, finish_eq _ _ hp hc rfl, Option.some.injEq, Prod.mk.injEq] at h
    obtain ⟨rfl, rfl⟩ := h
    exact ended (.silent hs hd)
  rw [if_neg hd] at h
  rw [Nat.not_le] at hd
  split at h
  · next rest hi =>
    simp only [finish_eq (l := l) (k := { l with inbound := rest }) _ _ hp hc rfl,
      Option.some.injEq, Prod.mk.injEq] at h
    obtain ⟨rfl, rfl⟩ := h
    exact ended (.finished ⟨hs, hd, hi⟩)
  · next detail rest hi =>
    simp only [fail_eq (l := l) (k := { l with inbound := rest }) _ _ hp hc rfl,
      Option.some.injEq, Prod.mk.injEq] at h
    obtain ⟨rfl, rfl⟩ := h
    exact ended (.fault ⟨hs, hd, hi⟩)
  · next f rest hi =>
    have hh : Hears w l c (.frame f) rest := ⟨hs, hd, hi⟩
    cases ht : Link.transportFault? w.hub.policy.maxMessageSize f with
    | some detail =>
      simp only [ht, fail_eq (l := l) (k := { l with inbound := rest }) _ _ hp hc rfl,
        Option.some.injEq, Prod.mk.injEq] at h
      obtain ⟨rfl, rfl⟩ := h
      exact ended (.misfit hh ht)
    | none =>
      cases hl : w.idleTooLong with
      | true =>
        simp only [ht, hl, if_true, Option.some.injEq] at h
        obtain ⟨rfl, rfl⟩ := Prod.mk.inj (h.symm.trans (crash_eq hp))
        exact ⟨_, _, rfl, .crashed hp hc ⟨hh, ht⟩ hl⟩
      | false =>
        simp only [ht, hl, Bool.false_eq_true, if_false, Option.some.injEq] at h
        obtain ⟨l', h', es', he, ht'⟩ := take_cases (i := i) hp hc ⟨⟨hh, ht⟩, hl⟩
        obtain ⟨rfl, rfl⟩ := Prod.mk.inj (h.symm.trans he)
        exact ⟨l', h', rfl, ht'⟩
  · next hi =>
    cases hc' : l.client.present with
    | true => simp [hc'] at h
    | false =>
      simp only [hc', Bool.false_eq_true, if_false, fail_eq _ _ hp hc rfl, Option.some.injEq,
        Prod.mk.injEq] at h
      obtain ⟨rfl, rfl⟩ := h
      exact ended (.vanished hs hd hi hc')

/-- A frame was handed over, or the way is broken. -/
theorem hand_cases {w : World} {i : Nat} {l l₀ : Link} {c : ConnId} {f : Frame} {h₀ : Hub}
    {before : List Event} (hp : l.phase = .serving .idle) (hc : l.conn = some c)
    (hs : w.hub.isClosing c = false) (hg : Given w l c f l₀ h₀ before) :
    ∃ l' h' es, { w with hub := h₀ }.hand i l₀ c f = (w.put i l' h', es) ∧
      Turned w l l' h' (before ++ es) := by
  have hout : (if l₀.isMute = true then none else l₀.wire.send? f) =
      if l.isMute = true then none else l.wire.send? f := by cases hg <;> rfl
  have hevent : l₀.writeEvent = l.writeEvent := by cases hg <;> rfl
  unfold hand
  rw [hout, hevent]
  cases hm : l.isMute with
  | true => exact ⟨_, _, _, rfl, .failed hp hc hs hg (.inl hm)⟩
  | false =>
    cases hw : l.wire.send? f with
    | none => exact ⟨_, _, _, rfl, .failed hp hc hs hg (.inr hw)⟩
    | some wire =>
      refine ⟨_, _, _, rfl, ?_⟩
      rw [List.append_nil]
      exact .handed hp hc hs hg hm hw

theorem write_cases {w w' : World} {i : Nat} {l : Link} {es : List Event}
    (h : w.write i l = some (w', es)) :
    ∃ l' h', w' = w.put i l' h' ∧ Turned w l l' h' es := by
  unfold write at h
  split at h
  case h_2 => cases h
  next writer c hp hc =>
  by_cases hs : w.hub.isClosing c = true
  · simp [hs] at h
  rw [if_neg hs] at h
  rw [Bool.not_eq_true] at hs
  cases writer with
  | stopped => cases h
  | sending =>
    simp only at h
    split at h
    · next hw =>
      obtain ⟨rfl, rfl⟩ := Prod.mk.inj (Option.some.inj h)
      exact ⟨_, _, rfl, .ready hp hc hs hw⟩
    · next hw =>
      split at h
      · next hm =>
        obtain ⟨rfl, rfl⟩ := Prod.mk.inj (Option.some.inj h)
        rw [Bool.not_eq_true] at hw
        exact ⟨_, _, rfl, .jammed hp hc hs hw (Bool.and_eq_true_iff.1 hm).1⟩
      · cases h
  | idle =>
    simp only at h
    split at h
    · next f fs hub hr =>
      obtain ⟨l', h', es', he, ht⟩ := hand_cases (i := i) hp hc hs (.queued hr)
      obtain ⟨rfl, rfl⟩ := Prod.mk.inj ((Option.some.inj h).symm.trans he)
      exact ⟨l', h', rfl, ht⟩
    · next hub hr =>
      split at h
      · next hd =>
        obtain ⟨l', h', es', he, ht⟩ := hand_cases (i := i) hp hc hs (.ping hr hd)
        simp only [pingAfter] at he
        simp only [he, Option.some.injEq, Prod.mk.injEq] at h
        obtain ⟨rfl, rfl⟩ := h
        exact ⟨l', h', rfl, ht⟩
      · cases h

theorem close_cases {w w' : World} {i : Nat} {l : Link} {es : List Event}
    (h : w.close i l = some (w', es)) :
    ∃ l' h', w' = w.put i l' h' ∧ Turned w l l' h' es := by
  unfold close at h
  split at h
  case h_2 => cases h
  next r owed giveUp hp =>
  have parted : ∀ {before}, Parting w l r owed giveUp before →
      ∃ l' h', (w.complete i l r before).1 = w.put i l' h' ∧
        Turned w l l' h' (w.complete i l r before).2 := by
    intro before hb
    have hst : l.stage = .closing := by rw [Link.stage, hp]
    refine ⟨_, _, rfl, ?_⟩
    rw [complete, hst]
    exact .parted hp hb
  have done : ∀ {before}, Parting w l r owed giveUp before →
      w.complete i l r before = (w', es) → ∃ l' h', w' = w.put i l' h' ∧ Turned w l l' h' es := by
    intro before hb he
    have hp' := parted hb
    rwa [he] at hp'
  dsimp only at h
  split at h
  · next hm =>
    simp only [Bool.and_eq_true, Bool.not_eq_true'] at hm
    exact done (.stuck hm.1.1 hm.1.2) (Option.some.inj h)
  split at h
  · next hw =>
    cases owed with
    | none => exact done (.said hw rfl) (Option.some.inj h)
    | some f =>
      simp only at h
      cases hm : l.isMute with
      | true =>
        simp only [hm, if_true] at h
        exact done (.lost hw rfl (.inl hm)) (Option.some.inj h)
      | false =>
        cases hf : l.wire.send? f with
        | none =>
          simp only [hm, hf, Bool.false_eq_true, if_false] at h
          exact done (.lost hw rfl (.inr hf)) (Option.some.inj h)
        | some wire =>
          simp only [hm, hf, Bool.false_eq_true, if_false] at h
          obtain ⟨rfl, rfl⟩ := Prod.mk.inj (Option.some.inj h)
          exact ⟨_, _, rfl, .paid hp hw hm hf⟩
  · next hw =>
    rw [Bool.not_eq_true] at hw
    split at h
    · next hg => exact done (.late hw hg) (Option.some.inj h)
    · cases h

theorem receive_cases {w w' : World} {i : Nat} {l : Link} {es : List Event}
    (h : w.receive i l = some (w', es)) :
    ∃ l' h', w' = w.put i l' h' ∧ Turned w l l' h' es := by
  unfold receive at h
  split at h
  · cases h
  next hc =>
  simp only [Bool.or_eq_true, Bool.not_eq_true', not_or, Bool.not_eq_false, Bool.not_eq_true] at hc
  obtain ⟨⟨hpresent, hreading⟩, hended⟩ := hc
  split at h
  · next hw =>
    obtain ⟨rfl, rfl⟩ := Prod.mk.inj (Option.some.inj h)
    refine ⟨_, _, rfl, .drained hpresent hreading hended fun hn => ?_⟩
    simp [hn] at hw
  · split at h
    · next hp =>
      obtain ⟨rfl, rfl⟩ := Prod.mk.inj (Option.some.inj h)
      exact ⟨_, _, rfl, .noticed hp hended⟩
    · cases h

/-- **All that a turn does.**  It is a turn of a link that is there, and changes that link and the
hub in one of the ways of `Turned`. -/
theorem turn_cases {w w' : World} {i : Nat} {t : Turn} {es : List Event}
    (h : w.turn i t = some (w', es)) :
    ∃ l l' h', w.links[i]? = some l ∧ w' = w.put i l' h' ∧ Turned w l l' h' es := by
  unfold turn at h
  cases hl : w.links[i]? with
  | none => rw [hl] at h; cases h
  | some l =>
    rw [hl] at h
    refine ⟨l, ?_⟩
    have turned : ∃ l' h', w' = w.put i l' h' ∧ Turned w l l' h' es := by
      cases t with
      | read => exact read_cases h
      | write => exact write_cases h
      | close => exact close_cases h
      | receive => exact receive_cases h
    obtain ⟨l', h', hw, ht⟩ := turned
    exact ⟨l', h', rfl, hw, ht⟩

end World

/-! ## The hub and the link after a turn -/

variable {w : World} {l l' : Link} {c : ConnId} {h' : Hub} {es : List Event}

theorem Ending.work {r : CloseReason} {owed : Option Frame} (a : Ending w l c r owed l' h' es) :
    w.hub.Work h' := by
  cases a with
  | @violated f rest v h hh hf hr =>
    have hw := Hub.Work.route l.peer f (.refl (h := w.hub))
    rwa [hr] at hw
  | told | silent | finished | fault | misfit | vanished | left | mute => exact .refl

theorem Given.work {f : Frame} (a : Given w l c f l' h' es) : w.hub.Work h' := by
  cases a with
  | queued hr =>
    have hw := Hub.Work.receive c (some 1) (.refl (h := w.hub))
    rwa [hr] at hw
  | ping => exact .refl

theorem Turned.work (a : Turned w l l' h' es) : w.hub.Work h' := by
  cases a with
  | ended hp hc he => exact (he.work.release l.peer _).requestClose _
  | crashed => exact (Hub.Work.refl.leave l.peer _).discard _
  | @routed c writer f rest o h hp hc hh hf hr =>
    have hw := Hub.Work.route l.peer f (.refl (h := w.hub))
    rwa [hr] at hw
  | jammed => exact Hub.Work.refl.requestClose _
  | handed hp hc hs hg => exact hg.work
  | failed hp hc hs hg => exact hg.work.requestClose _
  | parted hp hb =>
    split
    · exact Hub.Work.refl.discard _
    · exact .refl
  | woke | answered | ready | paid | drained | noticed => exact .refl

/-- A link that ends is as it was, but for what it has heard. -/
theorem Ending.link {r : CloseReason} {owed : Option Frame} (a : Ending w l c r owed l' h' es) :
    ∃ rest deadline, l' = { l with inbound := rest, deadline := deadline } ∧
      rest <:+ l.inbound := by
  cases a with
  | told | silent | vanished => exact ⟨_, _, rfl, List.suffix_refl _⟩
  | finished hh | fault hh | misfit hh => exact ⟨_, _, rfl, hh.next ▸ List.suffix_cons _ _⟩
  | left hh | mute hh | violated hh => exact ⟨_, _, rfl, hh.next ▸ List.suffix_cons _ _⟩

theorem Given.link {f : Frame} (a : Given w l c f l' h' es) :
    ∃ next, l' = { l with nextPing := next } := by
  cases a <;> exact ⟨_, rfl⟩

theorem Turned.peer (a : Turned w l l' h' es) : l'.peer = l.peer := by
  cases a with
  | ended hp hc he => obtain ⟨_, _, rfl, -⟩ := he.link; rfl
  | handed hp hc hs hg => obtain ⟨_, rfl⟩ := hg.link; rfl
  | failed hp hc hs hg => obtain ⟨_, rfl⟩ := hg.link; rfl
  | _ => rfl

theorem Turned.address (a : Turned w l l' h' es) : l'.address = l.address := by
  cases a with
  | ended hp hc he => obtain ⟨_, _, rfl, -⟩ := he.link; rfl
  | handed hp hc hs hg => obtain ⟨_, rfl⟩ := hg.link; rfl
  | failed hp hc hs hg => obtain ⟨_, rfl⟩ := hg.link; rfl
  | _ => rfl

theorem Turned.conn (a : Turned w l l' h' es) : l'.conn = l.conn := by
  cases a with
  | ended hp hc he => obtain ⟨_, _, rfl, -⟩ := he.link; rfl
  | handed hp hc hs hg => obtain ⟨_, rfl⟩ := hg.link; rfl
  | failed hp hc hs hg => obtain ⟨_, rfl⟩ := hg.link; rfl
  | _ => rfl

end Switchboard.Relay
