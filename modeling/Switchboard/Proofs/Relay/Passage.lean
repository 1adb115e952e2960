import Switchboard.Proofs.Relay.Handover
import Switchboard.Proofs.Relay.Settling

/-!
# How frames pass through

What a client has received, what is on its way to it and what waits for it are, one behind the
other, the frames that were forwarded to its connection (`Carries`): from the front, and all of them
as long as none is lost in the middle of being written.  What a client has sent is, in its order,
what its link gave the hub to route, and what has still to be heard (`Asks`).

    received ++ under way ++ waiting = forwarded
    given to route ++ still to be heard = sent
-/

namespace Switchboard.Relay

open World (total)

/-! ## Specification -/

/-- The data frames among some. -/
def dataOf (fs : List Frame) : List Frame := fs.filter Frame.isData

def Item.frame? : Item → Option Frame
  | .frame f => some f
  | .ending => none

/-- The data frame that has come, if it is one. -/
def Arrival.data? : Arrival → Option Frame
  | .frame f => if f.isData then some f else none
  | _ => none

/-- The data frames that the client of a link has received. -/
def Link.received (l : Link) : List Frame := dataOf (l.client.inbox.filterMap Item.frame?)

namespace World

/-- The data frames that come from the client of a link with an incident. -/
def brings (w : World) (j : Nat) (x : Incident) : List Frame :=
  match w.links[j]?, (w.undergo x).1.links[j]? with
  | some l, some l' => (l'.inbound.drop l.inbound.length).filterMap Arrival.data?
  | _, _ => []

/-- All data frames that came from the client of a link. -/
def said (w : World) (j : Nat) (xs : List Incident) : List Frame :=
  (w.trace xs).flatMap fun s => s.1.brings j s.2

/-- What the link `j` gave the hub to route, among some calls. -/
def callsOf (j : Nat) (ks : List Call) : List Call := ks.filter fun k => k.reader == j

/-- How frames have passed, in a run from `w`, to the client of the link `i`, which is `l` by now
and has the connection `c`. -/
structure Passage (w : World) (xs : List Incident) (i : Nat) (l : Link) (c : ConnId) : Prop where
  /-- What was received is, from the front, what was forwarded; of each sender it is part of what
  that one sent, in the same order, and nothing twice. -/
  inOrder : ∃ got, got <+: w.forwarded c xs ∧ l.received = got.map (·.frame) ∧
    ∀ j, ((callsOf j got).map (·.frame)).Sublist (w.said j xs)
  complete : (w.after xs).firstTurn.isNone = true → (w.after xs).isOpen i = true →
    l.client.reading = true → 0 < l.wire.capacity → l.received = (w.forwarded c xs).map (·.frame)
  /-- Once all is at rest, all was routed that came from links that are open. -/
  asked : (w.after xs).firstTurn.isNone = true → ∀ j, (w.after xs).isOpen j = true →
    (callsOf j (w.calls xs)).map (·.frame) = w.said j xs
  /-- A valid frame reaches the connection that is entered for its recipient, or it is reported. -/
  answered : ∀ k ∈ w.calls xs, ∀ e, Hub.accept k.sender k.frame = .ok e →
    (∃ d, k.target = some d ∧ k.reached = some d) ∨ k.answer = .ok (.dropped e.recipient) ∨
      ∃ why, k.answer = .ok (.unroutable e.recipient why)
  /-- As long as the link is entered for its peer, that connection is its own. -/
  addressed : (w.after xs).hub.lookup l.peer = some c → ∀ ys zs, xs = ys ++ zs →
    ((w.after ys).links[i]?).isSome = true → ∀ k ∈ (w.after ys).calls zs, ∀ e,
      Hub.accept k.sender k.frame = .ok e → e.recipient = l.peer → k.target = some c
  entered : (∀ q, .act (.unregister q) ∉ xs) → (w.after xs).isOpen i = true →
    (w.after xs).isTold i = false → (w.after xs).hub.lookup l.peer = some c

end World

/-! ## The way -/

namespace Wire

theorem wireSize_pos (f : Frame) : 0 < f.wireSize := by
  unfold Frame.wireSize Frame.headerSize
  split
  · omega
  · split <;> omega

theorem whole_front (n : Nat) (fs : List Frame) : whole n fs <+: fs := by
  induction fs generalizing n with
  | nil => exact List.prefix_refl _
  | cons f fs ih =>
    unfold whole
    split
    · exact List.cons_prefix_cons.2 ⟨rfl, ih _⟩
    · exact List.nil_prefix

theorem whole_mono {m n : Nat} (h : m ≤ n) (fs gs : List Frame) :
    whole m fs <+: whole n (fs ++ gs) := by
  induction fs generalizing m n with
  | nil => exact List.nil_prefix
  | cons f fs ih =>
    rw [List.cons_append, whole, whole]
    split
    · rw [if_pos (by omega)]
      exact List.cons_prefix_cons.2 ⟨rfl, ih (by omega)⟩
    · exact List.nil_prefix

theorem whole_of_total_le {n : Nat} {fs : List Frame} (h : total (fs.map Frame.wireSize) ≤ n) :
    whole n fs = fs := by
  induction fs generalizing n with
  | nil => rfl
  | cons f fs ih =>
    have hsum : total ((f :: fs).map Frame.wireSize) = f.wireSize + total (fs.map Frame.wireSize) :=
      rfl
    rw [whole, if_pos (by omega), ih (by omega)]

/-- How the bytes of a way belong to its frames, as long as this side is there. -/
structure Sound (w : Wire) : Prop where
  size : total (w.frames.map Frame.wireSize) ≤ w.used + w.pending
  begun : 0 < w.capacity → w.frames ≠ [] → w.used ≠ 0
  empty : w.frames = [] → w.used = 0
  clogged : w.broken = false → w.pending ≠ 0 → w.frames ≠ []

variable {w w' : Wire} {f : Frame}

theorem sound_new (capacity : Nat) : Sound { capacity := capacity } :=
  ⟨Nat.le_refl _, fun _ h => absurd rfl h, fun _ => rfl, fun _ h => absurd rfl h⟩

theorem Sound.breaks (a : w.Sound) {broken : Bool} (hb : w.broken = true → broken = true) :
    Sound { w with broken := broken } :=
  ⟨a.size, a.begun, a.empty, fun hn hp => a.clogged (Bool.eq_false_iff.2 fun ht => by
    rw [hb ht] at hn
    cases hn) hp⟩

theorem broken_of_send (h : w.send? f = some w') : w.broken = false ∧ w'.broken = false := by
  unfold send? at h
  split at h
  · cases h
  · next hb =>
    cases h
    exact ⟨Bool.eq_false_iff.2 hb, Bool.eq_false_iff.2 hb⟩

theorem Sound.send (a : w.Sound) (h : w.send? f = some w') :
    w'.Sound ∧ w.used ≤ w'.used := by
  have hframes := frames_send h
  have hpos := wireSize_pos f
  unfold send? at h
  split at h
  · cases h
  · cases h
    refine ⟨⟨?_, fun hc _ => ?_, fun hn => ?_, fun _ _ hn => ?_⟩, Nat.le_add_right _ _⟩
    · have hsum : total ((w.frames ++ [f]).map Frame.wireSize) =
          total (w.frames.map Frame.wireSize) + f.wireSize := by
        rw [List.map_append, World.total_append]
        rfl
      have hsize := a.size
      simp only [flow, hsum]
      omega
    · simp only [flow] at hc ⊢
      omega
    · simp [flow] at hn
    · simp [flow] at hn

theorem sound_drain (w : Wire) : w.drain.2.Sound := by
  unfold drain
  split
  · next hb =>
    refine ⟨Nat.zero_le _, fun _ h => absurd rfl h, fun _ => rfl, fun hn _ => ?_⟩
    simp only [Bool.and_eq_true, decide_eq_true_eq] at hb
    rw [hb.1] at hn
    cases hn
  · exact ⟨Nat.zero_le _, fun _ h => absurd rfl h, fun _ => rfl, fun _ h => absurd rfl h⟩

/-- A client that reads on gets the frames under way, from the front. -/
theorem drain_front (w : Wire) : w.drain.1 <+: w.frames := by
  unfold drain
  split
  · exact whole_front _ _
  · exact List.prefix_refl _

/-- It gets all of them, unless the way is broken with one of them in the middle. -/
theorem drain_of_intact (h : (w.broken && w.pending != 0) = false) :
    w.drain.1 = w.frames ∧ w.drain.2.pending = 0 := by
  have hb : ¬ (w.broken && decide (w.pending ≠ 0)) = true := by
    simp only [Bool.and_eq_false_iff, bne_eq_false_iff_eq] at h
    simp only [Bool.and_eq_true, decide_eq_true_eq, not_and, Decidable.not_not]
    rintro hbroken
    exact h.resolve_left (by rw [hbroken]; decide)
  unfold drain
  rw [if_neg hb]
  exact ⟨rfl, rfl⟩

theorem drain_of_broken (h : (w.broken && w.pending != 0) = true) :
    w.drain.1 = whole w.used w.frames ∧
      (w.drain.2.broken && w.drain.2.pending != 0) = true := by
  have hb : (w.broken && decide (w.pending ≠ 0)) = true := by
    simpa using h
  unfold drain
  rw [if_pos hb]
  exact ⟨rfl, h⟩

end Wire

/-! ## A link and its way -/

/-- What the client of a link has received or is about to. -/
def Link.passed (l : Link) : List Frame := l.received ++ dataOf l.wire.frames

/-- The writing hand is ready, or the frame that it is in the middle of can still be written. -/
def Link.Intact (l : Link) : Prop :=
  l.phase = .serving .idle ∨
    l.phase = .serving .sending ∧ (l.wire.broken && l.wire.pending != 0) = false

/-- What holds of a link whatever was sent. -/
structure Orderly (l : Link) : Prop where
  owed : ∀ r f giveUp, l.phase = .closing r (some f) giveUp → f.isData = false
  ended : l.client.ended = true → l.phase.isOver = true
  wire : ∀ writer, l.phase = .serving writer → l.wire.Sound

/-- What has passed through a link to which `fwd` was forwarded, when `queue` still waits for it. -/
structure Carries (l : Link) (queue fwd : List Frame) : Prop where
  front : l.passed <+: fwd
  full : l.Intact → l.passed ++ queue = fwd
  whole : l.phase = .serving .idle →
    dataOf (Wire.whole l.wire.used l.wire.frames) = dataOf l.wire.frames

variable {w : World} {l l' : Link} {c : ConnId} {h h' : Hub} {es : List Event}
variable {queue fwd : List Frame}

theorem dataOf_append (fs gs : List Frame) : dataOf (fs ++ gs) = dataOf fs ++ dataOf gs :=
  List.filter_append ..

theorem dataOf_singleton {f : Frame} (hf : f.isData = true) : dataOf [f] = [f] := by
  simp [dataOf, hf]

theorem dataOf_control {f : Frame} (hf : f.isData = false) : dataOf [f] = [] := by
  simp [dataOf, hf]

theorem dataOf_front {fs gs : List Frame} (h : fs <+: gs) : dataOf fs <+: dataOf gs :=
  h.filter _

/-- What was whole is whole when more bytes have gone, and a control frame changes nothing. -/
theorem dataOf_whole_append {m n : Nat} {fs : List Frame} {f : Frame} (hmn : m ≤ n)
    (hf : f.isData = false) (h : dataOf (Wire.whole m fs) = dataOf fs) :
    dataOf (Wire.whole n (fs ++ [f])) = dataOf (fs ++ [f]) := by
  have hlow := dataOf_front (Wire.whole_mono hmn fs [f])
  have hhigh := dataOf_front (Wire.whole_front n (fs ++ [f]))
  have hall : dataOf (fs ++ [f]) = dataOf fs := by
    rw [dataOf_append, dataOf_control hf, List.append_nil]
  rw [h, ← hall] at hlow
  exact hhigh.eq_of_length_le hlow.length_le

theorem passed_congr (hi : l'.client.inbox = l.client.inbox)
    (hw : l'.wire.frames = l.wire.frames) : l'.passed = l.passed := by
  rw [Link.passed, Link.passed, Link.received, Link.received, hi, hw]

theorem filterMap_frame_items (fs : List Frame) :
    (fs.map Item.frame).filterMap Item.frame? = fs := by
  induction fs with
  | nil => rfl
  | cons f fs ih => exact congrArg (f :: ·) ih

/-! ### Turns -/

theorem Orderly.of_phase (a : Orderly l) (hp : l'.phase = l.phase)
    (he : l'.client.ended = l.client.ended)
    (hw : ∀ writer, l.phase = .serving writer → l'.wire.Sound) : Orderly l' where
  owed r f giveUp h := a.owed r f giveUp (hp ▸ h)
  ended h := hp.symm ▸ a.ended (he ▸ h)
  wire writer h := hw writer (hp ▸ h)

theorem Orderly.not_ended (a : Orderly l) (hp : l.phase.isOver = false) :
    l.client.ended = false :=
  Bool.eq_false_iff.2 fun he => by cases hp.symm.trans (a.ended he)

theorem Turned.orderly (a : Turned w l l' h' es) (ho : Orderly l) : Orderly l' := by
  have open_ : ∀ {writer}, l.phase = .serving writer → l.client.ended = true → False := by
    intro writer hp he
    cases he.symm.trans (ho.not_ended (by rw [hp]; rfl))
  cases a with
  | @ended c writer r owed l₀ h₀ before hp hc he =>
    obtain ⟨rest, deadline, rfl, -⟩ := he.link
    refine ⟨fun r' f giveUp hp' => ?_, fun hend => (open_ hp hend).elim, fun _ hp' => (by cases hp')⟩
    obtain ⟨rfl, howed, -⟩ := Phase.closing.inj hp'
    obtain ⟨cf, rfl, -⟩ := he.tells howed
    rfl
  | crashed =>
    exact ⟨fun _ _ _ hp' => (by cases hp'), fun _ => rfl, fun _ hp' => (by cases hp')⟩
  | woke hp | routed hp => exact ho.of_phase rfl rfl ho.wire
  | answered hp _ _ hw => exact ho.of_phase rfl rfl fun writer hp => ((ho.wire writer hp).send hw).1
  | ready hp | jammed hp =>
    exact ⟨fun _ _ _ hp' => (by cases hp'), fun hend => (open_ hp hend).elim,
      fun _ _ => ho.wire _ hp⟩
  | handed hp _ _ hg _ hw =>
    obtain ⟨next, rfl⟩ := hg.link
    exact ⟨fun _ _ _ hp' => (by cases hp'), fun hend => (open_ hp hend).elim,
      fun _ _ => ((ho.wire _ hp).send hw).1⟩
  | failed hp _ _ hg =>
    obtain ⟨next, rfl⟩ := hg.link
    exact ⟨fun _ _ _ hp' => (by cases hp'), fun hend => (open_ hp hend).elim,
      fun _ _ => ho.wire _ hp⟩
  | paid hp =>
    refine ⟨fun _ _ _ hp' => (by cases hp'), fun hend => ?_, fun _ hp' => (by cases hp')⟩
    cases hend.symm.trans (ho.not_ended (by rw [hp]; rfl))
  | parted => exact ⟨fun _ _ _ hp' => (by cases hp'), fun _ => rfl, fun _ hp' => (by cases hp')⟩
  | drained => exact ho.of_phase rfl rfl fun _ _ => Wire.sound_drain _
  | noticed hp => exact ⟨ho.owed, fun _ => hp, ho.wire⟩

/-- A link that has only heard something, while more frames came for it. -/
theorem Carries.heard (a : Carries l queue fwd) (news : List Frame) (hp : l'.phase = l.phase)
    (hw : l'.wire = l.wire) (hi : l'.client.inbox = l.client.inbox) :
    Carries l' (queue ++ news) (fwd ++ news) := by
  have hpassed : l'.passed = l.passed := passed_congr hi (by rw [hw])
  refine ⟨?_, fun hx => ?_, fun hx => ?_⟩
  · rw [hpassed]
    exact a.front.trans (List.prefix_append _ _)
  · rw [Link.Intact, hp, hw] at hx
    rw [hpassed, ← List.append_assoc, a.full hx]
  · rw [hw]
    exact a.whole (hp ▸ hx)

/-- A link that may have lost something. -/
theorem Carries.lost {fwd' queue' : List Frame} (a : Carries l queue fwd) (hf : fwd <+: fwd')
    (hp : ∀ writer, l'.phase = .serving writer → writer = .stopped)
    (hpassed : l'.passed <+: l.passed) : Carries l' queue' fwd' where
  front := (hpassed.trans a.front).trans hf
  full hx := by
    obtain hidle | ⟨hsending, -⟩ := hx
    · cases hp _ hidle
    · cases hp _ hsending
  whole hx := by cases hp _ hx

theorem length_receive (h : Hub) (c : ConnId) (n : Nat) :
    (h.receive c (some n)).1.length ≤ n := by
  unfold Hub.receive
  split
  · exact Nat.zero_le _
  · exact List.length_take_le n _

theorem waiting_of_receive (hr : (h.receive c (some 1)).1 = []) : h.waiting c = [] := by
  unfold Hub.receive at hr
  split at hr
  · next hm => rw [Hub.waiting, hm]; rfl
  · next m hm =>
    rw [Hub.waiting_of_box? hm]
    exact (List.take_eq_nil_iff.1 hr).resolve_left Nat.one_ne_zero

/-- What is handed over was the first that waited, or it is no data. -/
theorem Given.full {f : Frame} {l₀ : Link} {h₀ : Hub} (a : Given w l c f l₀ h₀ es)
    (hd : w.hub.DataOnly) :
    w.hub.waiting c = dataOf [f] ++ h₀.waiting c := by
  cases a with
  | @queued f fs h hr =>
    have hw := w.hub.waiting_receive c c (some 1)
    have hlen := length_receive w.hub c 1
    rw [hr] at hlen
    obtain rfl : fs = [] := List.eq_nil_of_length_eq_zero (Nat.le_zero.1 (Nat.le_of_succ_le_succ hlen))
    rw [if_pos rfl, hr] at hw
    rw [hw, dataOf_singleton (hd c f (hw ▸ List.mem_cons_self))]
  | ping => rw [dataOf_control rfl, List.nil_append]

/-- Another frame was put on the way of a served link. -/
theorem Carries.sent {f : Frame} {wire : Wire} {queue' : List Frame}
    (a : Carries l queue fwd) (hp : l.phase = .serving .idle) (hq : queue = dataOf [f] ++ queue')
    (hw : l.wire.send? f = some wire) (hs : wire.Sound) (hi : l'.client.inbox = l.client.inbox)
    (hwire : l'.wire = wire)
    (hp' : l'.phase = .serving (if wire.isClear then .idle else .sending)) :
    Carries l' queue' fwd := by
  have hpassed : l'.passed = l.passed ++ dataOf [f] := by
    rw [Link.passed, Link.passed, Link.received, Link.received, hi, hwire, Wire.frames_send hw,
      dataOf_append, List.append_assoc]
  have hfull : l'.passed ++ queue' = fwd := by
    rw [hpassed, List.append_assoc, ← hq]
    exact a.full (.inl hp)
  refine ⟨?_, fun _ => hfull, fun hidle => ?_⟩
  · rw [← hfull]
    exact List.prefix_append _ _
  · -- all its bytes have gone
    have hclear : wire.pending = 0 := by
      rw [hp'] at hidle
      split at hidle
      · next hc => exact beq_iff_eq.1 hc
      · cases hidle
    have hsize := hs.size
    rw [hclear, Nat.add_zero] at hsize
    rw [hwire, Wire.whole_of_total_le hsize]

/-- The client of a link has read on. -/
theorem Carries.drained (a : Carries l queue fwd) (hp : l'.phase = l.phase)
    (hw : l'.wire = l.wire.drain.2)
    (hi : l'.client.inbox = l.client.inbox ++ l.wire.drain.1.map Item.frame) :
    Carries l' queue fwd := by
  have hpassed : l'.passed = l.received ++ dataOf l.wire.drain.1 := by
    rw [Link.passed, Link.received, hi, hw, Wire.frames_drain, List.filterMap_append,
      filterMap_frame_items, dataOf_append]
    exact List.append_nil _
  have hfront : l'.passed <+: l.passed := by
    rw [hpassed]
    exact (List.prefix_append_right_inj _).2 (dataOf_front (Wire.drain_front _))
  refine ⟨hfront.trans a.front, fun hx => ?_, fun _ => by rw [hw, Wire.frames_drain]; rfl⟩
  rw [Link.Intact, hp, hw] at hx
  cases hlossy : l.wire.broken && l.wire.pending != 0 with
  | false =>
    rw [hpassed, (Wire.drain_of_intact hlossy).1]
    exact a.full (hx.imp_right fun hx => ⟨hx.1, hlossy⟩)
  | true =>
    -- then the writing hand is not in the middle of a frame, and what is lost is no data
    obtain ⟨hdrain, hstill⟩ := Wire.drain_of_broken hlossy
    have hidle : l.phase = .serving .idle := hx.resolve_right fun hx => by
      rw [hstill] at hx
      cases hx.2
    rw [hpassed, hdrain, a.whole hidle]
    exact a.full (.inl hidle)

/-- Of what waits when the service of a link breaks off, all or nothing is handed over behind the
rest. -/
theorem Carries.leftover {writer : Writer} (k : Carries l queue fwd) (hq : dataOf queue = queue)
    (hp : l.phase = .serving writer) (hw : writer ≠ .stopped) :
    l.received ++ dataOf (l.leftover queue).frames <+: fwd := by
  unfold Link.leftover
  split
  · have hcut := dataOf_front (Wire.whole_front l.wire.used l.wire.frames)
    exact ((List.prefix_append_right_inj _).2 hcut).trans k.front
  · cases hb : l.wire.broken with
    | true =>
      rw [Wire.sendAll_of_broken hb]
      exact k.front
    | false =>
      have hintact : l.Intact := by
        cases writer with
        | idle => exact .inl hp
        | sending => exact .inr ⟨hp, by rw [hb, Bool.false_and]⟩
        | stopped => exact absurd rfl hw
      rw [Wire.frames_sendAll _ hb, dataOf_append, hq, ← List.append_assoc, ← k.full hintact]
      exact List.prefix_refl _

/-- **What a turn without a call makes of what has passed.** -/
theorem Turned.carries (a : Turned w l l' h' es) (hc : l.conn = some c) (hd : w.hub.DataOnly)
    (hs : l.phase = .serving .stopped → w.hub.isClosing c = true) (ho : Orderly l)
    (k : Carries l (w.hub.waiting c) fwd)
    (hn : ∀ f, w.offer? l = some f → l.inbound <+: l'.inbound) :
    Carries l' (h'.waiting c) fwd := by
  have own : ∀ {d}, l.conn = some d → d = c := fun hd => Option.some.inj (hd.symm.trans hc)
  have lost : ∀ {m : Link} {q : List Frame},
      (∀ writer, m.phase = .serving writer → writer = .stopped) → m.passed <+: l.passed →
      Carries m q fwd := fun hp hpassed => k.lost (List.prefix_refl _) hp hpassed
  have heard : ∀ {m : Link}, m.phase = l.phase → m.wire = l.wire →
      m.client.inbox = l.client.inbox → Carries m (w.hub.waiting c) fwd := fun hp hw hi => by
    have hheard := k.heard [] hp hw hi
    rwa [List.append_nil, List.append_nil] at hheard
  cases a with
  | @ended d writer r owed l₀ h₀ before hp hc he =>
    obtain ⟨rest, deadline, rfl, -⟩ := he.link
    exact lost nofun (List.prefix_refl _)
  | @crashed d writer f rest hp hc' hh =>
    obtain rfl := own hc'
    refine ⟨?_, fun hx => (by obtain hp' | ⟨hp', -⟩ := hx <;> cases hp'), nofun⟩
    rw [Hub.receive_none]
    exact k.leftover (List.filter_eq_self.2 (hd d)) hp fun hstopped => by
      cases (hs (hstopped ▸ hp)).symm.trans hh.calm
  | woke => exact heard rfl rfl rfl
  | @answered d writer b rest wire hp hd' hh hw =>
    obtain ⟨hsound, hused⟩ := (ho.wire _ hp).send hw
    have hpassed : Link.passed { w.awake l rest with wire := wire } = l.passed := by
      show l.received ++ dataOf wire.frames = l.passed
      rw [Wire.frames_send hw, dataOf_append, dataOf_control rfl, List.append_nil]
      rfl
    refine ⟨hpassed ▸ k.front, fun hx => ?_, fun hx => ?_⟩
    · -- the way was not broken, or the answer could not have been written
      have hbroken := (Wire.broken_of_send hw).1
      rw [hpassed]
      exact k.full (hx.imp_right fun hx => ⟨hx.1, by rw [hbroken, Bool.false_and]⟩)
    · show dataOf (Wire.whole wire.used wire.frames) = dataOf wire.frames
      rw [Wire.frames_send hw]
      exact dataOf_whole_append hused rfl (k.whole hx)
  | routed hp hc hh hf =>
    have hpre := hn _ (World.offer?_eq_some_iff.2 ⟨_, _, _, hp, hc, hh, hf⟩)
    rw [hh.next] at hpre
    exact absurd hpre.length_le (Nat.not_le.2 (Nat.lt_succ_self _))
  | ready hp _ _ hw =>
    have hclear : l.wire.pending = 0 := beq_iff_eq.1 hw
    have hsize := (ho.wire _ hp).size
    rw [hclear, Nat.add_zero] at hsize
    refine ⟨k.front, fun _ => k.full (.inr ⟨hp, ?_⟩), fun _ => ?_⟩
    · rw [hclear, bne_self_eq_false, Bool.and_false]
    · rw [Wire.whole_of_total_le hsize]
  | jammed => exact lost (fun _ hp => (Phase.serving.inj hp).symm) (List.prefix_refl _)
  | handed hp hc' _ hg _ hw =>
    obtain rfl := own hc'
    obtain ⟨next, rfl⟩ := hg.link
    exact k.sent hp (hg.full hd) hw ((ho.wire _ hp).send hw).1 rfl rfl rfl
  | failed hp _ _ hg =>
    obtain ⟨next, rfl⟩ := hg.link
    exact lost (fun _ hp => (Phase.serving.inj hp).symm) (List.prefix_refl _)
  | paid hp _ _ hw =>
    refine lost nofun ?_
    rw [Link.passed, Link.passed, Link.received, Wire.frames_send hw, dataOf_append,
      dataOf_control (ho.owed _ _ _ hp), List.append_nil]
    exact List.prefix_refl _
  | parted =>
    refine lost nofun ?_
    exact List.prefix_append_right_inj _ |>.2 (dataOf_front (Wire.whole_front _ _))
  | drained => exact k.drained rfl rfl rfl
  | noticed =>
    have hitems : (l.client.inbox ++ [Item.ending]).filterMap Item.frame? =
        l.client.inbox.filterMap Item.frame? := by
      rw [List.filterMap_append]
      exact List.append_nil _
    refine ⟨?_, fun hx => ?_, k.whole⟩ <;> rw [Link.passed, Link.received, hitems]
    · exact k.front
    · exact k.full hx

theorem Outside.orderly (a : Outside l l') (ho : Orderly l) : Orderly l' := by
  obtain ⟨broken, hw⟩ := a.wire
  refine ho.of_phase a.phase a.ended fun writer hp => ?_
  rw [hw]
  refine (ho.wire writer hp).breaks fun hb => ?_
  have hbroken := a.broken hb
  rwa [hw] at hbroken

/-- More frames came for a link that was touched from the outside at most. -/
theorem Outside.carries (a : Outside l l') (k : Carries l queue fwd) (news : List Frame) :
    Carries l' (queue ++ news) (fwd ++ news) := by
  obtain ⟨broken, hw⟩ := a.wire
  have hpassed : l'.passed = l.passed := passed_congr a.inbox (by rw [hw])
  refine ⟨?_, fun hx => ?_, fun hx => ?_⟩
  · rw [hpassed]
    exact k.front.trans (List.prefix_append _ _)
  · -- a way that is whole now was never broken
    have hintact : l.Intact := by
      rw [Link.Intact, a.phase, Bool.and_eq_false_iff] at hx
      refine hx.imp_right fun ⟨hp, hlossy⟩ => ⟨hp, Bool.and_eq_false_iff.2 ?_⟩
      refine hlossy.imp (fun hb => Bool.eq_false_iff.2 fun ht => ?_) fun hpending => ?_
      · rw [a.broken ht] at hb
        cases hb
      · rwa [hw] at hpending
    rw [hpassed, ← List.append_assoc, k.full hintact]
  · rw [hw]
    exact k.whole (a.phase ▸ hx)

theorem Welcomed.orderly {d : Dial} {p : PeerId} (a : Welcomed w d p l h es) : Orderly l := by
  cases a with
  | unqueued => exact ⟨fun _ _ _ hp => (by cases hp), fun _ => rfl, fun _ hp => (by cases hp)⟩
  | refused =>
    refine ⟨fun r f giveUp hp => ?_, fun he => (by cases he), fun _ hp => (by cases hp)⟩
    obtain ⟨rfl, howed, -⟩ := Phase.closing.inj hp
    obtain ⟨cf, rfl, -⟩ := tells_owedFor howed
    rfl
  | served _ _ hl =>
    subst hl
    exact ⟨fun _ _ _ hp => (by cases hp), fun he => (by cases he), fun _ _ => Wire.sound_new _⟩
  | undone _ _ hl =>
    subst hl
    exact ⟨fun _ _ _ hp => (by cases hp), fun _ => rfl, fun _ hp => (by cases hp)⟩

theorem Welcomed.blank {d : Dial} {p : PeerId} (a : Welcomed w d p l h es) :
    l.client.inbox = [] ∧ l.inbound = [] := by
  cases a with
  | unqueued | refused => exact ⟨rfl, rfl⟩
  | served _ _ hl | undone _ _ hl =>
    subst hl
    exact ⟨rfl, rfl⟩

/-! ## A link and its client -/

/-- Of what the client of a link has sent, `asked` was given to the hub. -/
structure Asks (l : Link) (asked sent : List Frame) : Prop where
  front : asked <+: sent
  full : ∀ writer, l.phase = .serving writer → asked ++ l.inbound.filterMap Arrival.data? = sent

theorem drop_of_cons {x : Arrival} {rest : List Arrival} (hi : l.inbound = x :: rest) :
    rest.drop l.inbound.length = [] := by
  rw [hi]
  exact List.drop_eq_nil_of_le (Nat.le_succ _)

/-- Turns without a call lose no data that has still to be heard. -/
theorem Turned.unheard_data {writer : Writer} (a : Turned w l l' h' es)
    (hp' : l'.phase = .serving writer) (hn : ∀ f, w.offer? l = some f → l.inbound <+: l'.inbound) :
    l'.inbound.filterMap Arrival.data? = l.inbound.filterMap Arrival.data? ++
      (l'.inbound.drop l.inbound.length).filterMap Arrival.data? := by
  have same : ∀ {xs : List Arrival}, xs.filterMap Arrival.data? = xs.filterMap Arrival.data? ++
      (xs.drop xs.length).filterMap Arrival.data? := by
    intro xs
    rw [List.drop_length]
    exact (List.append_nil _).symm
  cases a with
  | woke _ _ hh | answered _ _ hh =>
    dsimp only [World.awake]
    rw [drop_of_cons hh.next, hh.next]
    exact (List.append_nil _).symm
  | routed hp hc hh hf =>
    have hpre := hn _ (World.offer?_eq_some_iff.2 ⟨_, _, _, hp, hc, hh, hf⟩)
    rw [hh.next] at hpre
    exact absurd hpre.length_le (Nat.not_le.2 (Nat.lt_succ_self _))
  | ready | jammed => exact same
  | handed _ _ _ hg | failed _ _ _ hg =>
    obtain ⟨next, rfl⟩ := hg.link
    exact same
  | drained =>
    dsimp only
    rw [List.drop_left, List.filterMap_append]
  | ended | crashed | paid | parted => cases hp'
  | noticed => exact same

theorem Outside.unheard_data (a : Outside l l') :
    l'.inbound.filterMap Arrival.data? = l.inbound.filterMap Arrival.data? ++
      (l'.inbound.drop l.inbound.length).filterMap Arrival.data? := by
  obtain hi | ⟨x, hi⟩ := a.inbound
  · rw [hi, List.drop_length]
    exact (List.append_nil _).symm
  · rw [hi, List.drop_left, List.filterMap_append]

theorem Asks.more {asked sent news : List Frame} (a : Asks l asked sent)
    (hp : ∀ writer, l'.phase = .serving writer → (∃ before, l.phase = .serving before) ∧
      l'.inbound.filterMap Arrival.data? = l.inbound.filterMap Arrival.data? ++ news) :
    Asks l' asked (sent ++ news) := by
  refine ⟨a.front.trans (List.prefix_append _ _), fun writer hp' => ?_⟩
  obtain ⟨⟨before, hbefore⟩, hi⟩ := hp writer hp'
  rw [hi, ← List.append_assoc, a.full before hbefore]

namespace World

variable {i j : Nat} {x : Incident} {xs : List Incident} {p : Policy} {site : Http.Site}

/-! ## Runs -/

theorem orderly_after (p : Policy) (site : Http.Site) (xs : List Incident)
    (hl : ((start p site).after xs).links[i]? = some l) : Orderly l := by
  induction xs using List.reverseRecOn generalizing l with
  | nil => cases hl
  | append_singleton xs x ih =>
    rw [after_snoc] at hl
    obtain ⟨l₀, hl₀, -, -, ⟨t, -, hT⟩ | ho⟩ | ⟨-, -, d, q, es, hW⟩ := undergo_old_or_new hl
    · exact hT.orderly (ih hl₀)
    · exact ho.orderly (ih hl₀)
    · exact hW.orderly

/-- Frames are forwarded to connections that there are. -/
theorem reached_lt {k : Call} {d : ConnId} (hk : k ∈ (start p site).calls xs)
    (hd : k.reached = some d) : d < ((start p site).after xs).hub.fresh := by
  induction xs using List.reverseRecOn with
  | nil => cases hk
  | append_singleton xs x ih =>
    rw [after_snoc]
    refine Nat.lt_of_lt_of_le ?_ (undergo_work _ x).later.fresh_le
    rw [calls_snoc] at hk
    rcases List.mem_append.1 hk with hk | hk
    · exact ih hk
    · obtain ⟨l, -, -, -, -, ht, -⟩ := call?_eq_some_iff.1 (Option.mem_toList.1 hk)
      have htarget : k.target = some d := by
        unfold Call.reached at hd
        split at hd
        · exact hd
        · cases hd
      rw [ht, target?] at htarget
      split at htarget
      · next e he =>
        have hw : ((start p site).after xs).Standing := standing_after p site xs
        obtain ⟨n, m, writer, hm, hc, -, -⟩ := hw.listed _ d htarget
        exact (hw.known n m d hm hc).lt
      · cases htarget

theorem call?_of_not_turn (hx : ∀ t, x ≠ .turn j t) {k : Call} (hk : w.call? x = some k) :
    k.reader ≠ j := by
  rintro rfl
  obtain ⟨-, hturn, -⟩ := call?_eq_some_iff.1 hk
  exact hx _ hturn

theorem reader_of_turn {t : Turn} {k : Call} (hk : w.call? (.turn j t) = some k) :
    k.reader = j := by
  obtain ⟨-, hturn, -⟩ := call?_eq_some_iff.1 hk
  cases hturn
  rfl

/-- A turn of the link itself: a call, or none. -/
theorem carries_turn {t : Turn} (k : Carries l (w.hub.waiting c) fwd) (hw : w.Standing)
    (ho : Orderly l) (hd : w.hub.DataOnly) (hl : w.links[i]? = some l) (hc : l.conn = some c)
    (hl' : (w.undergo (.turn i t)).1.links[i]? = some l') :
    Carries l' ((w.undergo (.turn i t)).1.hub.waiting c)
      (fwd ++ (w.newFor c (.turn i t)).map (·.frame)) := by
  cases hk : w.call? (.turn i t) with
  | some q =>
    obtain ⟨l₁, d, rest, hl₁, -, -, hcase⟩ := undergo_call hk
    rw [reader_of_turn hk] at hl₁ hcase
    obtain rfl := Option.some.inj (hl₁.symm.trans hl)
    rw [waiting_of_call hk]
    obtain ⟨h, o, -, -, hu⟩ | ⟨h, v, giveUp, owed, -, -, hu⟩ := hcase <;>
      rw [hu, links_put_self hl] at hl' <;> obtain rfl := Option.some.inj hl'
    · exact k.heard _ rfl rfl rfl
    · exact k.lost (List.prefix_append _ _) (fun _ hp => (by cases hp)) (List.prefix_refl _)
  | none =>
    rw [newFor_of_none hk, List.map_nil, List.append_nil]
    obtain hu | ⟨l₁, l₂, h, es, hl₁, hu, hT⟩ := w.undergo_turn i t
    · rw [hu, hl] at hl'
      obtain rfl := Option.some.inj hl'
      rw [hu]
      exact k
    · obtain rfl := Option.some.inj (hl₁.symm.trans hl)
      have hn : ∀ f, w.offer? l₁ = some f → l₁.inbound <+: l'.inbound := fun f hf =>
        inbound_of_call hl₁ hl' hk hf
      rw [hu, links_put_self hl₁] at hl'
      obtain rfl := Option.some.inj hl'
      rw [hu]
      exact hT.carries hc hd (fun hp => hw.stopped i l₁ c hl hp hc) ho k hn

/-- **What an incident makes of what has passed.** -/
theorem carries_undergo (k : Carries l (w.hub.waiting c) fwd) (hw : w.Standing) (ho : Orderly l)
    (hd : w.hub.DataOnly) (hl : w.links[i]? = some l) (hc : l.conn = some c)
    (hl' : (w.undergo x).1.links[i]? = some l') :
    Carries l' ((w.undergo x).1.hub.waiting c) (fwd ++ (w.newFor c x).map (·.frame)) := by
  by_cases hx : ∃ t, x = .turn i t
  · obtain ⟨t, rfl⟩ := hx
    exact carries_turn k hw ho hd hl hc hl'
  · obtain ⟨l₁, hl₁, ⟨t, rfl, -⟩ | ⟨hout, -⟩⟩ := undergo_link hl x
    · exact absurd ⟨t, rfl⟩ hx
    · obtain rfl := Option.some.inj (hl₁.symm.trans hl')
      have hother : ∀ n t m, x = .turn n t → w.links[n]? = some m → m.conn ≠ some c :=
        fun n t m hturn hm hcm => hx ⟨t, by rw [hturn, hw.own n i m l c hm hl hcm hc]⟩
      rw [undergo_waiting hother]
      exact hout.carries k _

/-- Nothing has passed through a link that begins. -/
theorem carries_new {d : Dial} {q : PeerId} (hW : Welcomed w d q l (w.undergo x).1.hub es)
    (hc : l.conn = some c) : Carries l ((w.undergo x).1.hub.waiting c) [] := by
  have hpassed : l.passed = [] := by
    rw [Link.passed, Link.received, hW.blank.1, hW.frames]
    rfl
  have hqueue : (w.undergo x).1.hub.waiting c = [] := by
    rw [hW.waiting, (hW.conn hc).1, Hub.waiting_fresh]
  refine ⟨hpassed ▸ List.nil_prefix, fun _ => by rw [hpassed, hqueue]; rfl, fun _ => ?_⟩
  rw [hW.frames]
  rfl

/-- **What has passed through a link**, in every run. -/
theorem carries_after (p : Policy) (site : Http.Site) (xs : List Incident)
    (hl : ((start p site).after xs).links[i]? = some l) (hc : l.conn = some c) :
    Carries l (((start p site).after xs).hub.waiting c)
      (((start p site).forwarded c xs).map (·.frame)) := by
  induction xs using List.reverseRecOn generalizing l with
  | nil => cases hl
  | append_singleton xs x ih =>
    rw [after_snoc] at hl
    rw [after_snoc, forwarded_snoc, List.map_append]
    cases hold : ((start p site).after xs).links[i]? with
    | none =>
      obtain ⟨-, -, -, d, q, es, hx, hW, -⟩ := undergo_new hold hl
      -- nothing was forwarded to a connection that there was not
      have hnone : (start p site).forwarded c xs = [] := by
        refine List.filter_eq_nil_iff.2 fun k hk hr => ?_
        have hlt := reached_lt hk (beq_iff_eq.1 hr)
        rw [(hW.conn hc).1] at hlt
        exact Nat.lt_irrefl _ hlt
      rw [hnone, newFor_of_none (by rw [hx]; rfl)]
      exact carries_new hW hc
    | some l₀ =>
      obtain ⟨l₁, hl₁, ⟨t, -, -, hT⟩ | ⟨ho, -⟩⟩ := undergo_link hold x <;>
        obtain rfl := Option.some.inj (hl₁.symm.trans hl)
      · have hc₀ : l₀.conn = some c := hT.conn ▸ hc
        exact carries_undergo (ih hold hc₀) (standing_after p site xs)
          (orderly_after p site xs hold) (dataOnly_after p site xs) hold hc₀ hl
      · have hc₀ : l₀.conn = some c := ho.conn ▸ hc
        exact carries_undergo (ih hold hc₀) (standing_after p site xs)
          (orderly_after p site xs hold) (dataOnly_after p site xs) hold hc₀ hl

/-! ## What a client has sent -/

theorem said_snoc (w : World) (j : Nat) (xs : List Incident) (x : Incident) :
    w.said j (xs ++ [x]) = w.said j xs ++ (w.after xs).brings j x := by
  simp [said, trace_append, trace]

theorem callsOf_snoc (w : World) (j : Nat) (xs : List Incident) (x : Incident) :
    callsOf j (w.calls (xs ++ [x])) =
      callsOf j (w.calls xs) ++ callsOf j ((w.after xs).call? x).toList := by
  rw [calls_snoc, callsOf, List.filter_append]
  rfl

theorem callsOf_of_not_turn (hx : ∀ t, x ≠ .turn j t) :
    callsOf j (w.call? x).toList = [] := by
  refine List.filter_eq_nil_iff.2 fun k hk hr => ?_
  exact call?_of_not_turn hx (Option.mem_toList.1 hk) (beq_iff_eq.1 hr)

theorem brings_eq (hl : w.links[j]? = some l) (hl' : (w.undergo x).1.links[j]? = some l') :
    w.brings j x = (l'.inbound.drop l.inbound.length).filterMap Arrival.data? := by
  rw [brings, hl, hl']

variable {asked sent : List Frame}

/-- A turn of the link itself. -/
theorem asks_turn {t : Turn} (a : Asks l asked sent) (hl : w.links[j]? = some l)
    (hl' : (w.undergo (.turn j t)).1.links[j]? = some l') :
    Asks l' (asked ++ (callsOf j (w.call? (.turn j t)).toList).map (·.frame))
      (sent ++ w.brings j (.turn j t)) := by
  rw [brings_eq hl hl']
  cases hk : w.call? (.turn j t) with
  | some q =>
    obtain ⟨l₁, d, rest, hl₁, -, hi, hcase⟩ := undergo_call hk
    have hreader := reader_of_turn hk
    obtain ⟨l₂, -, hl₂, hf, -⟩ := call?_eq_some_iff.1 hk
    rw [hreader] at hl₁ hl₂ hcase
    obtain rfl := Option.some.inj (hl₁.symm.trans hl)
    obtain rfl := Option.some.inj (hl₂.symm.trans hl)
    obtain ⟨writer, -, -, hp, -, -, hdata⟩ := offer?_eq_some_iff.1 hf
    have hq : Arrival.data? (.frame q.frame) = some q.frame := if_pos hdata
    have hsent : asked ++ q.frame :: rest.filterMap Arrival.data? = sent := by
      have hfull := a.full writer hp
      rwa [hi, List.filterMap_cons, hq] at hfull
    have hrest : l'.inbound = rest := by
      obtain ⟨h, o, -, -, hu⟩ | ⟨h, v, giveUp, owed, -, -, hu⟩ := hcase <;>
        rw [hu, links_put_self hl] at hl' <;> obtain rfl := Option.some.inj hl' <;> rfl
    have hasked : (callsOf j (some q).toList).map (·.frame) = [q.frame] := by
      simp [callsOf, hreader]
    rw [hrest, drop_of_cons hi, hasked, List.filterMap_nil, List.append_nil]
    refine ⟨?_, fun _ _ => ?_⟩
    · rw [← hsent]
      exact ⟨rest.filterMap Arrival.data?, List.append_assoc _ _ _⟩
    · rw [hrest, ← hsent, List.append_assoc]
      rfl
  | none =>
    rw [Option.toList_none, callsOf, List.filter_nil, List.map_nil, List.append_nil]
    obtain hu | ⟨l₁, l₂, h, es, hl₁, hu, hT⟩ := w.undergo_turn j t
    · rw [hu, hl] at hl'
      obtain rfl := Option.some.inj hl'
      rw [List.drop_length, List.filterMap_nil, List.append_nil]
      exact a
    · obtain rfl := Option.some.inj (hl₁.symm.trans hl)
      have hn : ∀ f, w.offer? l₁ = some f → l₁.inbound <+: l'.inbound := fun f hf =>
        inbound_of_call hl₁ hl' hk hf
      rw [hu, links_put_self hl₁] at hl'
      obtain rfl := Option.some.inj hl'
      exact a.more fun writer hp' => ⟨serving_of_turned hT hp', hT.unheard_data hp' hn⟩

/-- **What was given to the hub of what a client has sent**, in every run. -/
theorem asks_after (p : Policy) (site : Http.Site) (xs : List Incident) (j : Nat) :
    (((start p site).after xs).links[j]? = none →
      callsOf j ((start p site).calls xs) = [] ∧ (start p site).said j xs = []) ∧
    ∀ l, ((start p site).after xs).links[j]? = some l →
      Asks l ((callsOf j ((start p site).calls xs)).map (·.frame)) ((start p site).said j xs) := by
  induction xs using List.reverseRecOn with
  | nil => exact ⟨fun _ => ⟨rfl, rfl⟩, fun l hl => by cases hl⟩
  | append_singleton xs x ih =>
    obtain ⟨hnone, hsome⟩ := ih
    rw [after_snoc, callsOf_snoc, said_snoc, List.map_append]
    cases hold : ((start p site).after xs).links[j]? with
    | none =>
      obtain ⟨hcalls, hsaid⟩ := hnone hold
      have hbrings : ((start p site).after xs).brings j x = [] := by rw [brings, hold]
      have hquiet : callsOf j (((start p site).after xs).call? x).toList = [] := by
        refine List.filter_eq_nil_iff.2 fun k hk hr => ?_
        obtain ⟨l, -, hl, -⟩ := call?_eq_some_iff.1 (Option.mem_toList.1 hk)
        rw [beq_iff_eq.1 hr, hold] at hl
        cases hl
      rw [hcalls, hsaid, hbrings, hquiet]
      refine ⟨fun _ => ⟨rfl, rfl⟩, fun l hl => ?_⟩
      obtain ⟨-, -, -, d, q, es, -, hW, -⟩ := undergo_new hold hl
      exact ⟨List.prefix_refl _, fun _ _ => by rw [hW.blank.2]; rfl⟩
    | some l₀ =>
      refine ⟨fun hn => ?_, fun l hl => ?_⟩
      · obtain ⟨l', hl', -⟩ := undergo_link hold x
        rw [hn] at hl'
        cases hl'
      · by_cases hx : ∃ t, x = .turn j t
        · obtain ⟨t, rfl⟩ := hx
          exact asks_turn (hsome l₀ hold) hold hl
        · rw [callsOf_of_not_turn fun t ht => hx ⟨t, ht⟩, List.map_nil, List.append_nil,
            brings_eq hold hl]
          obtain ⟨l₁, hl₁, ⟨t, rfl, -⟩ | ⟨ho, -⟩⟩ := undergo_link hold x
          · exact absurd ⟨t, rfl⟩ hx
          · obtain rfl := Option.some.inj (hl₁.symm.trans hl)
            exact (hsome l₀ hold).more fun writer hp => ⟨⟨writer, ho.phase ▸ hp⟩, ho.unheard_data⟩

theorem callsOf_front (p : Policy) (site : Http.Site) (xs : List Incident) (j : Nat) :
    (callsOf j ((start p site).calls xs)).map (·.frame) <+: (start p site).said j xs := by
  obtain ⟨hnone, hsome⟩ := asks_after p site xs j
  cases hl : ((start p site).after xs).links[j]? with
  | none =>
    rw [(hnone hl).1]
    exact List.nil_prefix
  | some l => exact (hsome l hl).front

theorem exists_front_map {α β : Type} {f : α → β} {ys : List β} {xs : List α}
    (h : ys <+: xs.map f) : ∃ zs, zs <+: xs ∧ ys = zs.map f := by
  refine ⟨xs.take ys.length, List.take_prefix _ _, ?_⟩
  rw [List.map_take]
  exact List.prefix_iff_eq_take.1 h

/-! ## Rest -/

/-- All that was forwarded has come through to a client that reads, once all is at rest. -/
theorem received_of_rest {writer : Writer} (k : Carries l (w.hub.waiting c) fwd) (ho : Orderly l)
    (hw : w.Standing) (hrest : w.firstTurn.isNone = true) (hl : w.links[i]? = some l)
    (hc : l.conn = some c) (hp : l.phase = .serving writer) (hreads : l.client.reading = true)
    (hroom : 0 < l.wire.capacity) : l.received = fwd := by
  obtain ⟨hcalm, -, -, hpresent⟩ := (read_eq_none_iff hp hc).1 (by
    have ht := turn_of_rest hrest hl .read
    simpa only [turn, hl] using ht)
  have hsound := ho.wire writer hp
  -- nothing is under way
  have hframes : l.wire.frames = [] := by
    have ht := turn_of_rest hrest hl .receive
    have hended : l.client.ended = false := ho.not_ended (by rw [hp]; rfl)
    simp only [turn, hl, receive, hpresent, hreads, hended] at ht
    by_contra hne
    have hused := hsound.begun hroom hne
    simp [hne, hused] at ht
  have hpassed : l.passed = l.received := by
    rw [Link.passed, hframes]
    exact List.append_nil _
  have hwrite : w.write i l = none := by
    have ht := turn_of_rest hrest hl .write
    simpa only [turn, hl] using ht
  cases writer with
  | stopped =>
    have hs := hw.stopped i l c hl hp hc
    rw [hcalm] at hs
    cases hs
  | idle =>
    have hqueue : w.hub.waiting c = [] := by
      simp only [write, hp, hc, hcalm, Bool.false_eq_true, if_false] at hwrite
      rcases hr : w.hub.receive c (some 1) with ⟨_ | ⟨f, fs⟩, h⟩
      · exact waiting_of_receive (by rw [hr])
      · rw [hr] at hwrite
        cases hwrite
    rw [← hpassed, ← k.full (.inl hp), hqueue, List.append_nil]
  | sending =>
    -- the rest of its frame can be written, or will be found not to
    simp only [write, hp, hc, hcalm, Bool.false_eq_true, if_false] at hwrite
    split at hwrite
    · cases hwrite
    next hclear =>
    split at hwrite
    · cases hwrite
    next hstuck =>
    have hpending : l.wire.pending ≠ 0 := fun h => hclear (by rw [Wire.isClear, h]; rfl)
    have hbroken : l.wire.broken = true := by
      by_contra hb
      exact hsound.clogged (Bool.eq_false_iff.2 hb) hpending hframes
    have hfree : l.wire.hasRoom = true := by
      rw [Wire.hasRoom, hsound.empty hframes]
      exact decide_eq_true hroom
    rw [Link.isMute, hbroken, hfree] at hstuck
    exact absurd rfl hstuck

/-! ## Top theorem -/

/-- **Frames pass through whole, in order, and once.**  In every run and to every link that was
accepted, whatever the policy and whoever sends. -/
theorem passage (p : Policy) (site : Http.Site) (xs : List Incident)
    (hl : ((start p site).after xs).links[i]? = some l) (hc : l.conn = some c) :
    Passage (start p site) xs i l c := by
  have hw : ((start p site).after xs).Standing := standing_after p site xs
  have hcarries := carries_after p site xs hl hc
  refine ⟨?_, fun hrest hopen hreads hroom => ?_, fun hrest j hopen => ?_, fun k hk e he => ?_,
    fun hentered ys zs hxs hthere k hk e he hrecipient => ?_, fun hu hopen htold => ?_⟩
  · obtain ⟨got, hgot, hframes⟩ := exists_front_map
      ((List.prefix_append _ _).trans hcarries.front)
    refine ⟨got, hgot, hframes, fun j => ?_⟩
    have hcalls : (callsOf j got).Sublist (callsOf j ((start p site).calls xs)) :=
      (hgot.sublist.trans List.filter_sublist).filter _
    exact (hcalls.map _).trans (callsOf_front p site xs j).sublist
  · obtain ⟨k, writer, hk, hp⟩ := serving_of_isOpen hopen
    obtain rfl := Option.some.inj (hl.symm.trans hk)
    exact received_of_rest hcarries (orderly_after p site xs hl) hw hrest hl hc hp hreads hroom
  · obtain ⟨k, writer, hk, hp⟩ := serving_of_isOpen hopen
    obtain ⟨d, hd⟩ := hw.taken j k writer hk hp
    have hread : ((start p site).after xs).read j k = none := by
      have ht := turn_of_rest hrest hk .read
      simpa only [turn, hk] using ht
    obtain ⟨-, -, hinbound, -⟩ := (read_eq_none_iff hp hd).1 hread
    have hfull := ((asks_after p site xs j).2 k hk).full writer hp
    rwa [hinbound, List.filterMap_nil, List.append_nil] at hfull
  · obtain ⟨ys, x, zs, -, hcall⟩ := call_of_mem_calls hk
    obtain ⟨-, ⟨hreached, hsome⟩ | hreported⟩ := answer_of_accept hcall he
    · obtain ⟨d, hd⟩ := Option.isSome_iff_exists.1 hsome
      exact .inl ⟨d, hd, hreached.trans hd⟩
    · exact .inr hreported
  · obtain ⟨vs, x, us, rfl, hcall⟩ := call_of_mem_calls hk
    rw [← after_append] at hcall
    obtain ⟨htarget, -⟩ := answer_of_accept hcall he
    rw [htarget, hrecipient]
    -- an entry that is there now was there before
    obtain ⟨l₀, hl₀⟩ := Option.isSome_iff_exists.1 hthere
    obtain ⟨l₁, hl₁, -, hc₁⟩ := links_after vs hl₀
    obtain ⟨l₂, hl₂, -, hc₂⟩ := links_after (vs ++ x :: us) hl₀
    rw [← after_append] at hl₁ hl₂
    rw [← hxs] at hl₂
    obtain rfl := Option.some.inj (hl₂.symm.trans hl)
    have hknown := (standing_after p site (ys ++ vs)).known i l₁ c hl₁ (hc₁.trans (hc₂.symm.trans hc))
    have hwork := ((start p site).after (ys ++ vs)).work_after (x :: us)
    rw [← after_append, List.append_assoc, ← hxs] at hwork
    exact hwork.lookup hknown.lt hentered
  · obtain ⟨k, writer, hk, hp⟩ := serving_of_isOpen hopen
    obtain rfl := Option.some.inj (hl.symm.trans hk)
    refine (entered_or_evicted hu hl hp hc).resolve_right fun hevicted => ?_
    have htold' : ((start p site).after xs).isTold i = true := by
      rw [isTold, hl, Option.any_some, hc, Option.any_some]
      exact isClosing_of_evicted hevicted hl hc
    rw [htold] at htold'
    cases htold'

/-- A client that asks for the socket of peer 8. -/
def eighth : Dial :=
  { name := "other", address := "127.0.0.1:40001", path := "/websocket/8", room := 65536 }

/-- One client sends another one two frames, the second of them as octets. -/
def twoFrames : List Incident :=
  [.act (.connect (seventh "only")), .act (.connect eighth),
    .arrive 0 (.frame (.text "[7,8,0]")), .arrive 0 (.frame (.binary (Text.bytes "[7,8,1]"))),
    .turn 0 .read, .turn 0 .read, .turn 1 .write, .turn 1 .write, .turn 1 .receive]

theorem passage_twoFrames :
    let w := start (Policy.ofSettings {}) none
    ∃ l, (w.after twoFrames).links[1]? = some l ∧ l.conn = some 1 ∧ Passage w twoFrames 1 l 1 ∧
      l.received = [.text "[7,8,0]", .binary (Text.bytes "[7,8,1]")] := by
  intro w
  have hlink : ((w.after twoFrames).links[1]?).map (fun l => (l.conn, l.received)) =
      some (some 1, [.text "[7,8,0]", .binary (Text.bytes "[7,8,1]")]) := by decide +kernel
  obtain ⟨l, hl, he⟩ := Option.map_eq_some_iff.1 hlink
  obtain ⟨hc, hr⟩ := Prod.mk.inj he
  exact ⟨l, hl, hc, passage _ none twoFrames hl hc, hr⟩

end World

end Switchboard.Relay
