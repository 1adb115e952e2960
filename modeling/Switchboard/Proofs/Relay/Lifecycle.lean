import Switchboard.Proofs.Relay.Incidents

/-!
# The life of a link

Of all that happens to a link, what counts for its life (`Progress`): it is served, its service
ends or breaks off, it pays the close frame it owes, it is gone, or nothing of this.  With each of
these goes what it reports of its stages and of its registration, and what it writes.

    w.links[i]? = some l → Progress w l l' h' (w.told i x) (w.wrote i x)
-/

namespace Switchboard.Relay

/-! ## Reports and frames that count -/

/-- A report on a stage, accepted or not. -/
def isMove (e : Event) : Bool :=
  e.message == "Connection state changed" ||
    e.message == "Ignoring invalid connection state transition"

/-- A report that a registration has ended. -/
def isRelease (e : Event) : Bool := e.message == "Peer unregistered"

def isClose : Frame → Bool
  | .close _ => true
  | _ => false

/-- Reports on neither stages nor registrations. -/
def Quiet (es : List Event) : Prop := ∀ e ∈ es, isMove e = false ∧ isRelease e = false

/-- No close frame is among them. -/
def Unclosed (fs : List Frame) : Prop := ∀ f ∈ fs, isClose f = false

/-- A close frame that says what is to be said for a reason, if anything is. -/
def Tells (r : CloseReason) (f : Frame) : Prop :=
  ∃ cf, f = .close cf ∧ ∀ told, r.closeFrame = some told → cf = some told

theorem isMove_moveEvent (p : PeerId) (s t : Stage) : isMove (s.moveEvent p t) = true := by
  unfold Stage.moveEvent
  split <;> rfl

theorem isRelease_moveEvent (p : PeerId) (s t : Stage) : isRelease (s.moveEvent p t) = false := by
  unfold Stage.moveEvent
  split <;> rfl

theorem isMove_releaseEvent (p : PeerId) (c : ConnId) (r : CloseReason) :
    isMove (Hub.releaseEvent p c r) = false := rfl

theorem Quiet.nil : Quiet [] := fun _ he => by cases he

theorem Quiet.append {es es' : List Event} (a : Quiet es) (b : Quiet es') : Quiet (es ++ es') :=
  fun e he => (List.mem_append.1 he).elim (a e) (b e)

theorem quiet_singleton {e : Event} (hm : isMove e = false) (hr : isRelease e = false) :
    Quiet [e] := fun _ he => by
  obtain rfl := List.mem_singleton.1 he
  exact ⟨hm, hr⟩

theorem Quiet.filter {es : List Event} (a : Quiet es) :
    es.filter isMove = [] ∧ es.filter isRelease = [] :=
  ⟨List.filter_eq_nil_iff.2 fun e he => by simp [(a e he).1],
    List.filter_eq_nil_iff.2 fun e he => by simp [(a e he).2]⟩

theorem quiet_routeEvents (h : Hub) (p : PeerId) (r : Except Violation Outcome) :
    Quiet (h.routeEvents p r) := by
  unfold Hub.routeEvents
  split
  · exact .nil
  all_goals exact quiet_singleton rfl rfl

theorem quiet_registerEvents (p : PeerId) (r : Except Taken Registered) :
    Quiet (Hub.registerEvents p r) := by
  unfold Hub.registerEvents
  split
  · refine .append ?_ (quiet_singleton rfl rfl)
    split
    · exact quiet_singleton rfl rfl
    · exact .nil
  · exact quiet_singleton rfl rfl

theorem quiet_unsaid (l : Link) (r : CloseReason) : Quiet (l.unsaid r) := by
  unfold Link.unsaid
  split
  · exact quiet_singleton rfl rfl
  · exact .nil

theorem quiet_finalEvent (l : Link) (r : CloseReason) : Quiet [l.finalEvent r] := by
  cases r <;> exact quiet_singleton rfl rfl

theorem isClose_of_isData {f : Frame} (h : f.isData = true) : isClose f = false := by
  cases f with
  | close => cases h
  | text | binary | ping | pong => rfl

theorem tells_owedFor {r : CloseReason} {f : Frame} (h : World.owedFor r = some f) : Tells r f := by
  unfold World.owedFor at h
  split at h
  · next told ht =>
    refine ⟨some told, (Option.some.inj h).symm, fun t' h' => ?_⟩
    rw [ht] at h'
    exact h'
  · next hn =>
    refine ⟨none, (Option.some.inj h).symm, fun told ht => ?_⟩
    rw [hn] at ht
    cases ht

/-- For some reasons nothing is to be said. -/
theorem tells_of_closeFrame {r : CloseReason} (cf : Option CloseFrame) (h : r.closeFrame = none) :
    Tells r (.close cf) :=
  ⟨cf, rfl, fun told ht => by rw [h] at ht; cases ht⟩

/-! ## What counts of an incident -/

/-- What an incident makes of the life of a link, what it reports, and what it writes. -/
inductive Progress (w : World) (l l' : Link) (h' : Hub) (es : List Event) (fs : List Frame) : Prop
  | serves {writer writer' : Writer} (hp : l.phase = .serving writer)
      (hp' : l'.phase = .serving writer') (he : Quiet es) (hf : Unclosed fs)
  | ends {writer : Writer} {c : ConnId} {r : CloseReason} {owed : Option Frame} {giveUp : Nat}
      {h₀ : Hub} {before : List Event} (hp : l.phase = .serving writer) (hc : l.conn = some c)
      (hp' : l'.phase = .closing r owed giveUp) (ho : ∀ f, owed = some f → Tells r f)
      (hw : w.hub.Work h₀) (hh : h' = (h₀.release l.peer c).requestClose c) (hb : Quiet before)
      (he : es = before ++
        [Stage.established.moveEvent l.peer .closing, Hub.releaseEvent l.peer c r])
      (hf : fs = [])
  | breaks {writer : Writer} {c : ConnId} (hp : l.phase = .serving writer) (hc : l.conn = some c)
      (hi : w.idleTooLong = true) (hp' : l'.phase = .lost .established)
      (hh : h' = (w.hub.leave l.peer c).updateBox c Mailbox.discard) (he : Quiet es)
      (hf : Unclosed fs)
  | pays {r : CloseReason} {f : Frame} {giveUp : Nat} (hp : l.phase = .closing r (some f) giveUp)
      (hp' : l'.phase = .closing r none giveUp) (he : es = []) (hf : fs = [f])
  | parts {r : CloseReason} {owed : Option Frame} {giveUp : Nat} {before : List Event}
      (hp : l.phase = .closing r owed giveUp) (hp' : l'.phase = .gone) (hb : Quiet before)
      (he : es = before ++ [Stage.closing.moveEvent l.peer .closed, l.finalEvent r])
      (hf : fs = [])
  | rests (hp : l'.phase = l.phase) (he : es = []) (hf : fs = [])

/-! ## Frames that are written -/

namespace Wire

theorem drop_send {w w' : Wire} {f : Frame} (h : w.send? f = some w') :
    w'.frames.drop w.frames.length = [f] := by
  rw [frames_send h, List.drop_left]

theorem frames_drain (w : Wire) : w.drain.2.frames = [] := by
  unfold drain
  split <;> rfl

theorem length_whole (n : Nat) (fs : List Frame) : (whole n fs).length ≤ fs.length := by
  induction fs generalizing n with
  | nil => exact Nat.le_refl _
  | cons f fs ih =>
    unfold whole
    split
    · exact Nat.succ_le_succ (ih _)
    · exact Nat.zero_le _

theorem drop_cut (w : Wire) : w.cut.frames.drop w.frames.length = [] :=
  List.drop_eq_nil_of_le (length_whole _ _)

theorem drop_sendAll (w : Wire) (fs : List Frame) :
    (w.sendAll fs).frames.drop w.frames.length = [] ∨
      (w.sendAll fs).frames.drop w.frames.length = fs := by
  cases hb : w.broken with
  | true =>
    rw [sendAll_of_broken hb, List.drop_length]
    exact .inl rfl
  | false =>
    rw [frames_sendAll fs hb, List.drop_left]
    exact .inr rfl

end Wire

variable {w : World} {l l' : Link} {c : ConnId} {h' : Hub} {es : List Event}

/-- All that is written when a service breaks off was waiting before. -/
theorem mem_of_mem_leftover {fs : List Frame} {f : Frame}
    (hf : f ∈ (l.leftover fs).frames.drop l.wire.frames.length) : f ∈ fs := by
  unfold Link.leftover at hf
  split at hf
  · rw [Wire.drop_cut] at hf
    cases hf
  · obtain he | he := l.wire.drop_sendAll fs <;> rw [he] at hf
    · cases hf
    · exact hf

theorem Ending.quiet {r : CloseReason} {owed : Option Frame} (a : Ending w l c r owed l' h' es) :
    Quiet es := by
  cases a with
  | told | finished | left => exact .nil
  | silent | fault | misfit | vanished | mute | violated => exact quiet_singleton rfl rfl

/-- What the client of a link that ends is owed is told the reason. -/
theorem Ending.tells {r : CloseReason} {owed : Option Frame} (a : Ending w l c r owed l' h' es)
    {f : Frame} (ho : owed = some f) : Tells r f := by
  cases a with
  | told | silent | violated => exact tells_owedFor ho
  | finished | vanished => cases ho
  | fault | misfit | mute =>
    obtain rfl := Option.some.inj ho
    exact tells_of_closeFrame _ rfl
  | @left cf =>
    obtain rfl := Option.some.inj ho
    cases cf <;> exact tells_of_closeFrame _ rfl

theorem Given.quiet {f : Frame} (a : Given w l c f l' h' es) : Quiet es := by
  cases a with
  | queued => exact .nil
  | ping => exact quiet_singleton rfl rfl

/-- Close frames are never handed over by the writing hand. -/
theorem Given.isClose {f : Frame} (a : Given w l c f l' h' es) (hd : w.hub.DataOnly) :
    isClose f = false := by
  cases a with
  | @queued f fs h hr =>
    refine isClose_of_isData (hd c f ?_)
    rw [w.hub.waiting_receive c c (some 1), if_pos rfl, hr]
    exact List.mem_append_left _ List.mem_cons_self
  | ping => rfl

theorem Parting.quiet {r : CloseReason} {owed : Option Frame} {giveUp : Nat}
    (a : Parting w l r owed giveUp es) : Quiet es := by
  cases a with
  | stuck | lost => exact quiet_unsaid l r
  | said => exact .nil
  | late => exact quiet_singleton rfl rfl

/-- Turns of a link that is served, closing, gone or lost. -/
theorem Turned.progress (a : Turned w l l' h' es) (hd : w.hub.DataOnly) :
    Progress w l l' h' es (l'.wire.frames.drop l.wire.frames.length) := by
  have same : l.wire.frames.drop l.wire.frames.length = [] := List.drop_length
  have none_closed : ∀ {fs : List Frame}, fs = [] → Unclosed fs := by
    rintro _ rfl f hf
    cases hf
  cases a with
  | ended hp hc he =>
    refine .ends hp hc rfl (fun f ho => he.tells ho) he.work rfl he.quiet rfl ?_
    obtain ⟨_, _, rfl, -⟩ := he.link
    exact same
  | @crashed c writer f rest hp hc hh hi =>
    refine .breaks hp hc hi rfl rfl ?_ fun f hf => ?_
    · split
      · exact quiet_singleton rfl rfl
      · exact .nil
    · have hwaits : f ∈ w.hub.waiting c := w.hub.receive_none c ▸ mem_of_mem_leftover hf
      exact isClose_of_isData (hd c f hwaits)
  | woke hp hc hh => exact .serves hp hp .nil (none_closed same)
  | answered hp hc hh hw =>
    refine .serves hp hp .nil fun f hf => ?_
    rw [Wire.drop_send hw] at hf
    rw [List.mem_singleton.1 hf]
    rfl
  | routed hp hc hh hf hr => exact .serves hp hp (quiet_routeEvents _ _ _) (none_closed same)
  | ready hp => exact .serves hp rfl .nil (none_closed same)
  | jammed hp => exact .serves hp rfl (quiet_singleton rfl rfl) (none_closed same)
  | handed hp hc hs hg hm hw =>
    refine .serves hp rfl hg.quiet fun f hf => ?_
    rw [Wire.drop_send hw] at hf
    rw [List.mem_singleton.1 hf]
    exact hg.isClose hd
  | failed hp hc hs hg =>
    refine .serves hp rfl (hg.quiet.append (quiet_singleton rfl rfl)) (none_closed ?_)
    obtain ⟨_, rfl⟩ := hg.link
    exact same
  | paid hp hc hm hw => exact .pays hp rfl rfl (Wire.drop_send hw)
  | parted hp hb => exact .parts hp rfl hb.quiet rfl (Wire.drop_cut _)
  | drained =>
    refine .rests rfl rfl ?_
    rw [Wire.frames_drain, List.drop_nil]
  | noticed => exact .rests rfl rfl same

namespace World

variable {i : Nat}

theorem underWay_eq (hl : w.links[i]? = some l) : w.underWay i = l.wire.frames := by
  simp [underWay, hl]

/-- **What counts of an incident**, for a link that is there. -/
theorem undergo_progress (hl : w.links[i]? = some l) (hd : w.hub.DataOnly) (x : Incident) :
    ∃ l', (w.undergo x).1.links[i]? = some l' ∧ l'.address = l.address ∧ l'.peer = l.peer ∧
      l'.conn = l.conn ∧ Progress w l l' (w.undergo x).1.hub (w.told i x) (w.wrote i x) := by
  obtain ⟨l', hl', ⟨t, -, -, hT⟩ | ⟨ho, hq⟩⟩ := undergo_link hl x
  · refine ⟨l', hl', hT.address, hT.peer, hT.conn, ?_⟩
    rw [wrote, underWay_eq hl, underWay_eq hl']
    exact hT.progress hd
  · refine ⟨l', hl', ho.address, ho.peer, ho.conn, .rests ho.phase hq ?_⟩
    rw [wrote, underWay_eq hl, underWay_eq hl', ho.frames, List.drop_length]

end World

/-- A link that is not served does not touch the table. -/
theorem Turned.table (a : Turned w l l' h' es) (hs : l.isServed = false) :
    h'.table = w.hub.table := by
  have served : ∀ {writer}, l.phase ≠ .serving writer := by
    intro writer hp
    rw [Link.isServed_of_serving hp] at hs
    cases hs
  cases a with
  | ended hp | crashed hp | woke hp | answered hp | routed hp | ready hp | jammed hp | handed hp
  | failed hp => exact absurd hp served
  | parted =>
    split <;> rfl
  | paid | drained | noticed => rfl

end Switchboard.Relay
