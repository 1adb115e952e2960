import Switchboard.Proofs.Relay.Calls
import Switchboard.Proofs.Relay.Teardown

/-!
# Who is taken over gives way

When a new connection is accepted for an identifier (`HandsOver`), the link that had it has nothing
left to do but to go (`GivesWay`): it gives the hub no frame to route, gets none of those that wait
for it, ends for the one reason, and touches nothing of what is the newcomer's.  Nobody else ends
for that reason, unless an entry is removed by hand (`entered_or_evicted`).

    w.HandsOver o x → told to close, and not in the table, for ever
    served, nobody unregistered → entered, or taken over before
-/

namespace Switchboard.Relay

/-! ## Specification -/

/-- What a client is told whose identifier was taken over. -/
def supersededFrame : Frame := .close (some ⟨1008, "superseded"⟩)

/-- A report that a frame could not be written. -/
def isWriteFailure (e : Event) : Bool := e.message == "Failed to send message, connection closed"

namespace World

/-- A new link is accepted for the identifier that the link `o` is entered for. -/
def HandsOver (w : World) (o : Nat) (x : Incident) : Prop :=
  ∃ (l : Link) (c : ConnId) (n : Nat) (k : Link), w.links[o]? = some l ∧ l.conn = some c ∧
    w.hub.lookup l.peer = some c ∧ w.links[n]? = none ∧ (w.undergo x).1.links[n]? = some k ∧
    k.conn.isSome = true ∧ k.peer = l.peer

def Evicted (w : World) (o : Nat) (xs : List Incident) : Prop :=
  ∃ ys x, ys ++ [x] <+: xs ∧ (w.after ys).HandsOver o x

/-- A turn of the link `o` leaves the table as it is, and the mailboxes of all other links: what
waits there, and their close signals. -/
def Spares (w : World) (o : Nat) (t : Turn) : Prop :=
  (w.undergo (.turn o t)).1.hub.table = w.hub.table ∧
    ∀ (n : Nat) (k : Link) (d : ConnId), n ≠ o → w.links[n]? = some k → k.conn = some d →
      (w.undergo (.turn o t)).1.hub.box? d = w.hub.box? d

end World

variable {w : World} {l l' : Link} {c : ConnId} {h h' : Hub} {es : List Event}
variable {sent : List Frame}

/-! ## A link that gives way -/

/-- What a link that gives way has written, and what it still owes. -/
def Owing (sent : List Frame) : Phase → Prop
  | .serving _ => sent = []
  | .closing r (some f) _ => r = .superseded ∧ f = supersededFrame ∧ sent = []
  | .closing r none _ => r = .superseded ∧ sent = [supersededFrame]
  | .gone => sent <+: [supersededFrame]
  | .lost _ => False

/-- A link `l` of the connection `c` that gives way, after it has written `sent`. -/
structure Yielding (h : Hub) (l : Link) (c : ConnId) (sent : List Frame) : Prop where
  known : c < h.fresh
  told : h.isClosing c = true
  unlisted : h.lookup l.peer ≠ some c
  owing : Owing sent l.phase

theorem Owing.lastWord {ph : Phase} (a : Owing sent ph) : sent <+: [supersededFrame] := by
  cases ph with
  | serving => exact a ▸ List.nil_prefix
  | closing r owed =>
    cases owed with
    | none => exact a.2 ▸ List.prefix_refl _
    | some => exact a.2.2 ▸ List.nil_prefix
  | gone => exact a
  | lost => exact a.elim

/-- Of a connection that is told to close and out of the table, no work on the hub changes that. -/
theorem Yielding.of_work (a : Yielding w.hub l c sent) (hw : w.hub.Work h')
    (hpeer : l'.peer = l.peer) {sent' : List Frame} (ho : Owing sent' l'.phase) :
    Yielding h' l' c sent' where
  known := Nat.lt_of_lt_of_le a.known hw.later.fresh_le
  told := hw.later.isClosing a.told
  unlisted := hpeer ▸ fun hl => a.unlisted (hw.lookup a.known hl)
  owing := ho

/-- A served link that is told to close ends for that, and only then can it be that its place was
taken. -/
theorem Ending.of_closing {r : CloseReason} {owed : Option Frame}
    (a : Ending w l c r owed l' h' es) (hs : w.hub.isClosing c = true) :
    r = (if w.hub.isCurrent l.peer c then .outboundFailed else .superseded) ∧
      owed = World.owedFor r ∧ l' = l ∧ h' = w.hub := by
  have calm : ∀ {P : Prop}, w.hub.isClosing c = false → P := fun hf => by
    rw [hs] at hf
    cases hf
  cases a with
  | told _ hr => exact ⟨hr, rfl, rfl, rfl⟩
  | silent hf | vanished hf => exact calm hf
  | finished hh | fault hh | misfit hh => exact calm hh.calm
  | left hh | mute hh | violated hh => exact calm hh.calm

theorem Ending.unlisted {owed : Option Frame} (a : Ending w l c .superseded owed l' h' es) :
    w.hub.lookup l.peer ≠ some c := by
  cases a with
  | told _ hr =>
    split at hr
    · cases hr
    · next hn =>
      intro hl
      rw [Hub.isCurrent, hl, beq_self_eq_true] at hn
      exact hn rfl

/-- The service of a link ends in no other way. -/
theorem Turned.ending {writer : Writer} {r : CloseReason} {owed : Option Frame} {giveUp : Nat}
    (a : Turned w l l' h' es) (hp : l.phase = .serving writer)
    (hp' : l'.phase = .closing r owed giveUp) :
    ∃ c l₀ h₀ before, l.conn = some c ∧ Ending w l c r owed l₀ h₀ before := by
  have same : ∀ {P : Prop}, l'.phase = l.phase → P := fun he => by
    cases hp'.symm.trans (he.trans hp)
  cases a with
  | ended _ hc he =>
    obtain ⟨rfl, rfl, -⟩ := Phase.closing.inj hp'
    exact ⟨_, _, _, _, hc, he⟩
  | woke | answered | routed | drained | noticed => exact same rfl
  | crashed | ready | jammed | handed | failed => cases hp'
  | paid hp₀ | parted hp₀ =>
    rw [hp] at hp₀
    cases hp₀

/-- The connection goes without the table, and without any other connection. -/
structure Alone (h : Hub) (c : ConnId) (h' : Hub) : Prop where
  table : h'.table = h.table
  boxes : ∀ d, d ≠ c → h'.box? d = h.box? d

theorem Alone.refl (h : Hub) (c : ConnId) : Alone h c h := ⟨rfl, fun _ _ => rfl⟩

theorem alone_updateBox (h : Hub) (c : ConnId) (f : Mailbox → Mailbox) :
    Alone h c (h.updateBox c f) :=
  ⟨rfl, fun d hd => by rw [Hub.box?_updateBox, if_neg (Ne.symm hd)]⟩

/-- A connection that is not in the table is released without it. -/
theorem alone_release {p : PeerId} (hn : h.lookup p ≠ some c) :
    Alone h c ((h.release p c).requestClose c) := by
  have hleave : h.leave p c = h := by
    unfold Hub.leave Hub.isCurrent
    rw [beq_false_of_ne hn, if_neg Bool.false_ne_true]
  rw [Hub.release, hleave]
  exact ⟨rfl, (alone_updateBox (h.tally .disconnection) c Mailbox.close).boxes⟩

/-- **What a turn makes of a link that gives way.** -/
theorem Turned.yields (a : Turned w l l' h' es) (hc : l.conn = some c)
    (y : Yielding w.hub l c sent) :
    Owing (sent ++ l'.wire.frames.drop l.wire.frames.length) l'.phase ∧ Alone w.hub c h' ∧
      ∀ writer, l.phase = .serving writer → l'.isServed = false →
        ∃ giveUp, l'.phase = .closing .superseded (some supersededFrame) giveUp := by
  have same : sent ++ l.wire.frames.drop l.wire.frames.length = sent := by
    rw [List.drop_length, List.append_nil]
  have own : ∀ {d}, l.conn = some d → d = c := fun hd => Option.some.inj (hd.symm.trans hc)
  have calm : ∀ {P : Prop} {d}, l.conn = some d → w.hub.isClosing d = false → P := by
    intro P d hd hf
    rw [own hd, y.told] at hf
    cases hf
  have still : ∀ {P : Prop} {writer ph}, l.phase = ph → l.phase = .serving writer →
      (∀ after, ph ≠ .serving after) → P := fun he hp hne => absurd (he.symm.trans hp) (hne _)
  have served : ∀ {P : Prop} {writer}, l'.phase = l.phase → l.phase = .serving writer →
      l'.isServed = false → P := fun he hp hs => by
    rw [Link.isServed_of_serving (he.trans hp)] at hs
    cases hs
  cases a with
  | @ended d writer r owed l₀ h₀ before hp hd he =>
    obtain rfl := own hd
    obtain ⟨hr, rfl, hl₀, rfl⟩ := he.of_closing y.told
    obtain rfl := hl₀.symm
    have hcurrent : w.hub.isCurrent l.peer d = false := beq_false_of_ne y.unlisted
    rw [hcurrent, if_neg Bool.false_ne_true] at hr
    subst hr
    have hsent : sent = [] := by
      have ho := y.owing
      rwa [hp] at ho
    rw [same]
    exact ⟨⟨rfl, rfl, hsent⟩, alone_release y.unlisted, fun _ _ _ => ⟨_, rfl⟩⟩
  | woke _ hd hh | answered _ hd hh | routed _ hd hh => exact calm hd hh.calm
  | crashed _ hd hh => exact calm hd hh.calm
  | ready _ hd hs | jammed _ hd hs | handed _ hd hs | failed _ hd hs => exact calm hd hs
  | @paid r f giveUp wire hp _ _ hw =>
    have ho := y.owing
    rw [hp] at ho
    obtain ⟨rfl, rfl, rfl⟩ := ho
    dsimp only
    rw [Wire.drop_send hw]
    exact ⟨⟨rfl, rfl⟩, .refl _ _, fun writer hp' _ => still hp hp' fun _ => nofun⟩
  | @parted r owed giveUp before hp hb =>
    have hcut : l.wire.cut.frames.drop l.wire.frames.length = [] := Wire.drop_cut _
    rw [hc]
    refine ⟨?_, alone_updateBox _ _ _, fun writer hp' _ => still hp hp' fun _ => nofun⟩
    rw [hcut, List.append_nil]
    exact y.owing.lastWord
  | drained =>
    have hnone : l.wire.drain.2.frames.drop l.wire.frames.length = [] := by
      rw [Wire.frames_drain, List.drop_nil]
    refine ⟨?_, .refl _ _, fun writer hp hs => served rfl hp hs⟩
    rw [hnone, List.append_nil]
    exact y.owing
  | noticed =>
    dsimp only
    rw [same]
    exact ⟨y.owing, .refl _ _, fun writer hp hs => served rfl hp hs⟩

/-! ## Being taken over -/

/-- A link that is accepted takes the place of another: that one is told to close, and is out of the
table. -/
theorem Welcomed.evicts {d : Dial} {p : PeerId} (a : Welcomed w d p l h es)
    (hc : l.conn.isSome = true) (he : w.hub.lookup p = some c) (hb : w.hub.IsOf c p) :
    h.isClosing c = true ∧ h.lookup p ≠ some c := by
  have entered : ∀ {done : Registered} {h : Hub},
      w.hub.register p w.hub.policy.queueCapacity = (h, .ok done) →
      h.isClosing c = true ∧ h.lookup p = some done.conn ∧ done.conn ≠ c := by
    intro done h hr
    obtain ⟨hd, hen⟩ := Hub.entered_of_register hr
    exact ⟨hen.evicted c p he ((w.hub.still_openBox p _).toLater.isOf hb),
      (hen.lookup p).trans (if_pos rfl), hd ▸ Nat.ne_of_gt hb.lt⟩
  cases a with
  | unqueued | refused => cases hc
  | served hr =>
    obtain ⟨hs, hl, hne⟩ := entered hr
    exact ⟨hs, fun hl' => hne (Option.some.inj (hl.symm.trans hl'))⟩
  | @undone done h₁ _ hr =>
    obtain ⟨hs, hl, -⟩ := entered hr
    refine ⟨((Hub.still_leave h₁ p done.conn).toLater.trans (Hub.later_discard _ _)).isClosing hs, ?_⟩
    rw [Hub.lookup_updateBox, Hub.lookup_leave, if_pos ⟨rfl, hl⟩]
    nofun

/-- The entries that there were are there still, unless the link has the identifier of one. -/
theorem Welcomed.keeps {d : Dial} {p q : PeerId} {e : ConnId} (a : Welcomed w d p l h es)
    (hl : w.hub.lookup q = some e) :
    h.lookup q = some e ∨ q = l.peer ∧ l.conn.isSome = true := by
  have entered : ∀ {done : Registered} {h : Hub},
      w.hub.register p w.hub.policy.queueCapacity = (h, .ok done) → q ≠ p →
      h.lookup q = some e := by
    intro done h hr hq
    rw [(Hub.entered_of_register hr).2.lookup, if_neg hq]
    exact hl
  cases a with
  | unqueued => exact .inl hl
  | refused hr =>
    rw [Hub.refused_of_register hr]
    exact .inl hl
  | served hr _ hlink =>
    subst hlink
    by_cases hq : q = p
    · exact .inr ⟨hq, rfl⟩
    · exact .inl (entered hr hq)
  | undone hr _ hlink =>
    subst hlink
    by_cases hq : q = p
    · exact .inr ⟨hq, rfl⟩
    · rw [Hub.lookup_updateBox, Hub.lookup_leave, if_neg fun hand => hq hand.1]
      exact .inl (entered hr hq)

/-- A turn removes no entry but that of a link whose service ends or breaks off. -/
theorem Turned.keeps {q : PeerId} {d : ConnId} (a : Turned w l l' h' es)
    (hl : w.hub.lookup q = some d) :
    h'.lookup q = some d ∨ l.conn = some d ∧ l'.isServed = false := by
  cases a with
  | @ended c writer r owed l₀ h₀ before hp hc he =>
    rw [Hub.lookup_requestClose, Hub.release, Hub.lookup_tally, Hub.lookup_leave, he.lookup,
      he.lookup]
    split
    · next hq =>
      obtain ⟨rfl, hq⟩ := hq
      exact .inr ⟨hc.trans (hq.symm.trans hl), rfl⟩
    · exact .inl hl
  | crashed hp hc =>
    rw [Hub.lookup_updateBox, Hub.lookup_leave]
    split
    · next hq =>
      obtain ⟨rfl, hq⟩ := hq
      exact .inr ⟨hc.trans (hq.symm.trans hl), rfl⟩
    · exact .inl hl
  | @routed c writer f rest o h hp hc hh hf hr =>
    have hq := w.hub.lookup_route l.peer q f
    rw [hr] at hq
    exact .inl (hq.trans hl)
  | handed _ _ _ hg => exact .inl ((hg.lookup q).trans hl)
  | failed _ _ _ hg => exact .inl ((hg.lookup q).trans hl)
  | parted =>
    left
    split <;> exact hl
  | woke | answered | ready | jammed | paid | drained | noticed => exact .inl hl

namespace World

variable {o t : Nat} {x : Incident} {xs : List Incident} {p : Policy} {site : Http.Site}

theorem HandsOver.yielding (a : w.HandsOver o x) (hw : w.Standing) :
    ∃ l c, (w.undergo x).1.links[o]? = some l ∧ l.conn = some c ∧
      Yielding (w.undergo x).1.hub l c [] := by
  obtain ⟨l, c, n, k, hl, hc, he, hn, hk, hconn, hpeer⟩ := a
  obtain ⟨-, -, -, d, p, es, rfl, hW, -⟩ := undergo_new hn hk
  obtain rfl : p = l.peer := hW.peer.symm.trans hpeer
  have hof := hw.known o l c hl hc
  obtain ⟨hs, hne⟩ := hW.evicts hconn he hof
  -- an entry leads to a link that is served
  obtain ⟨i, m, writer, hm, hcm, -, hpm⟩ := hw.listed l.peer c he
  obtain rfl := hw.own i o m l c hm hl hcm hc
  obtain rfl := Option.some.inj (hm.symm.trans hl)
  obtain ⟨l', hl', ⟨t, ht, -⟩ | ⟨ho, -⟩⟩ := undergo_link hl (.act (.connect d))
  · cases ht
  · refine ⟨l', c, hl', ho.conn.trans hc, (undergo_work w _).later.isOf hof |>.lt, hs,
      ho.peer ▸ hne, ?_⟩
    rw [ho.phase, hpm]
    rfl

theorem yielding_undergo (y : Yielding w.hub l c sent) (hl : w.links[o]? = some l)
    (hc : l.conn = some c) (x : Incident) :
    ∃ l', (w.undergo x).1.links[o]? = some l' ∧ l'.conn = some c ∧
      Yielding (w.undergo x).1.hub l' c (sent ++ w.wrote o x) := by
  have hwork := w.undergo_work x
  obtain ⟨l', hl', ⟨t, -, -, hT⟩ | ⟨ho, -⟩⟩ := undergo_link hl x
  · refine ⟨l', hl', hT.conn.trans hc, y.of_work hwork hT.peer ?_⟩
    rw [wrote, underWay_eq hl, underWay_eq hl']
    exact (hT.yields hc y).1
  · refine ⟨l', hl', ho.conn.trans hc, y.of_work hwork ho.peer ?_⟩
    rw [wrote, underWay_eq hl, underWay_eq hl', ho.frames, List.drop_length, List.append_nil,
      ho.phase]
    exact y.owing

theorem yielding_after (y : Yielding w.hub l c []) (hl : w.links[o]? = some l)
    (hc : l.conn = some c) (xs : List Incident) :
    ∃ l', (w.after xs).links[o]? = some l' ∧ l'.conn = some c ∧
      Yielding (w.after xs).hub l' c (w.sent o xs) := by
  induction xs using List.reverseRecOn with
  | nil => exact ⟨l, hl, hc, y⟩
  | append_singleton xs x ih =>
    obtain ⟨k, hk, hck, yk⟩ := ih
    rw [after_snoc, sent_snoc]
    exact yielding_undergo yk hk hck x

/-- Whoever was taken over is told to close ever since. -/
theorem isClosing_of_evicted (h : (start p site t).Evicted o xs)
    (hl : ((start p site t).after xs).links[o]? = some l) (hc : l.conn = some c) :
    ((start p site t).after xs).hub.isClosing c = true := by
  obtain ⟨ys, x, ⟨zs, rfl⟩, hand⟩ := h
  obtain ⟨k, d, hk, hd, y⟩ := hand.yielding (standing_after p site ys)
  rw [← after_snoc] at hk y
  obtain ⟨l', hl', hd', y'⟩ := yielding_after y hk hd zs
  rw [← after_append] at hl' y'
  obtain rfl := Option.some.inj (hl'.symm.trans hl)
  obtain rfl := Option.some.inj (hc.symm.trans hd')
  exact y'.told

/-! ## Nobody else -/

theorem table_of_act {a : Action} (hc : ∀ d, a ≠ .connect d) (hu : ∀ q, a ≠ .unregister q) :
    (w.act a).world.hub.table = w.hub.table := by
  obtain he | ⟨c, he⟩ | he := w.hub_of_act hc hu <;> rw [he]
  · rfl
  · rfl

/-- A link that is served on keeps its entry, unless it is taken over or its entry is removed. -/
theorem undergo_keeps {writer : Writer} (hw : w.Standing) (hl : w.links[o]? = some l)
    (hc : l.conn = some c) (he : w.hub.lookup l.peer = some c)
    (hu : ∀ q, x ≠ .act (.unregister q)) (hl' : (w.undergo x).1.links[o]? = some l')
    (hp' : l'.phase = .serving writer) :
    (w.undergo x).1.hub.lookup l.peer = some c ∨ w.HandsOver o x := by
  cases x with
  | act a =>
    by_cases hconnect : ∃ d, a = .connect d
    · obtain ⟨d, rfl⟩ := hconnect
      obtain ha | ⟨p, k, h, es, hW, hw', -⟩ := w.connect_cases d
      · left
        rw [undergo, act, ha]
        exact he
      · obtain hkept | ⟨hq, hk⟩ := hW.keeps he
        · left
          rw [undergo, act, hw']
          exact hkept
        · have hcount : (w.forget d.name).links.length = w.links.length :=
            (w.aside_forget d.name).count
          refine .inr ⟨l, c, w.links.length, k, hl, hc, he, List.getElem?_eq_none (Nat.le_refl _), ?_,
            hk, hq.symm⟩
          rw [undergo, act, hw', List.getElem?_append_right (Nat.le_of_eq hcount), hcount,
            Nat.sub_self]
          rfl
    · left
      rw [undergo, Hub.lookup, table_of_act (fun d hd => hconnect ⟨d, hd⟩)
        fun q hq => hu q (congrArg Incident.act hq)]
      exact he
  | arrive j a =>
    left
    simp only [undergo]
    split <;> exact he
  | turn j t =>
    left
    obtain hn | ⟨k, k', h, es, hk, hput, hT⟩ := w.undergo_turn j t
    · rw [hn]
      exact he
    · rw [hput] at hl' ⊢
      obtain hkept | ⟨hck, hs⟩ := hT.keeps he
      · exact hkept
      · obtain rfl := hw.own j o k l c hk hl hck hc
        rw [links_put_self hk h] at hl'
        obtain rfl := Option.some.inj hl'
        rw [Link.isServed_of_serving hp'] at hs
        cases hs
  | report | pass => exact .inl he

end World

/-- A link that is served from its beginning is entered. -/
theorem Welcomed.listed {d : Dial} {p : PeerId} {writer : Writer} (a : Welcomed w d p l h es)
    (hp : l.phase = .serving writer) (hc : l.conn = some c) : h.lookup l.peer = some c := by
  cases a with
  | unqueued | refused => cases hp
  | served hr hi hlink =>
    subst hlink
    obtain rfl := Option.some.inj hc
    exact ((Hub.entered_of_register hr).2.lookup p).trans (if_pos rfl)
  | undone hr hi hlink =>
    subst hlink
    cases hp

/-! ### Write failures -/

/-- No failure to write is among the reports. -/
def Unfailing (es : List Event) : Prop := ∀ e ∈ es, isWriteFailure e = false

theorem Unfailing.nil : Unfailing [] := nofun

theorem unfailing_cons {e : Event} (he : isWriteFailure e = false) (hes : Unfailing es) :
    Unfailing (e :: es) := fun e' h => by
  rcases List.mem_cons.1 h with rfl | h
  · exact he
  · exact hes e' h

theorem Unfailing.append {es' : List Event} (a : Unfailing es) (b : Unfailing es') :
    Unfailing (es ++ es') := fun e he => (List.mem_append.1 he).elim (a e) (b e)

theorem isWriteFailure_moveEvent (p : PeerId) (s t : Stage) :
    isWriteFailure (s.moveEvent p t) = false := by
  unfold Stage.moveEvent
  split <;> rfl

theorem unfailing_registerEvents (p : PeerId) (r : Except Taken Registered) :
    Unfailing (Hub.registerEvents p r) := by
  unfold Hub.registerEvents
  split
  · refine .append ?_ (unfailing_cons rfl .nil)
    split
    · exact unfailing_cons rfl .nil
    · exact .nil
  · exact unfailing_cons rfl .nil

theorem Welcomed.unfailing {d : Dial} {p : PeerId} (a : Welcomed w d p l h es) : Unfailing es := by
  cases a with
  | unqueued => exact .nil
  | refused =>
    exact (unfailing_registerEvents _ _).append
      (unfailing_cons (isWriteFailure_moveEvent _ _ _) .nil)
  | served | undone =>
    exact (unfailing_registerEvents _ _).append
      (unfailing_cons (isWriteFailure_moveEvent _ _ _) (unfailing_cons rfl .nil))

theorem Given.unfailing {f : Frame} (a : Given w l c f l' h' es) : Unfailing es := by
  cases a with
  | queued => exact .nil
  | ping => exact unfailing_cons rfl .nil

/-- A failure to write is the end of the writing hand, and that is not undone. -/
theorem Turned.stopped {writer : Writer} (a : Turned w l l' h' es)
    (hp' : l'.phase = .serving writer)
    (hf : (∃ e ∈ es, isWriteFailure e = true) ∨ l.phase = .serving .stopped) :
    writer = .stopped := by
  have heard : ∀ {es : List Event}, Unfailing es → l'.phase = l.phase →
      (∃ e ∈ es, isWriteFailure e = true) ∨ l.phase = .serving .stopped → writer = .stopped := by
    rintro es hes hp (⟨e, he, hf⟩ | hs)
    · rw [hes e he] at hf
      cases hf
    · exact Phase.serving.inj (hp'.symm.trans (hp.trans hs))
  have idle : ∀ {es : List Event} {ph : Writer}, Unfailing es → l.phase = .serving ph →
      ph ≠ .stopped → (∃ e ∈ es, isWriteFailure e = true) ∨ l.phase = .serving .stopped →
      writer = .stopped := by
    rintro es ph hes hp hne (⟨e, he, hf⟩ | hs)
    · rw [hes e he] at hf
      cases hf
    · exact absurd (Phase.serving.inj (hp.symm.trans hs)) hne
  cases a with
  | jammed | failed => exact (Phase.serving.inj hp').symm
  | woke | answered | drained | noticed => exact heard .nil rfl hf
  | @routed c writer f rest o =>
    refine heard ?_ rfl hf
    unfold Hub.routeEvents
    cases o with
    | unroutable dest why => cases why <;> exact unfailing_cons rfl .nil
    | forwarded | dropped => exact unfailing_cons rfl .nil
  | ready hp => exact idle .nil hp (by decide) hf
  | handed hp _ _ hg => exact idle hg.unfailing hp (by decide) hf
  | ended | crashed | paid | parted => cases hp'

namespace World

variable {o t : Nat} {x : Incident} {xs : List Incident} {p : Policy} {site : Http.Site}

theorem Evicted.snoc (h : w.Evicted o xs) (x : Incident) : w.Evicted o (xs ++ [x]) := by
  obtain ⟨ys, y, hpre, hand⟩ := h
  exact ⟨ys, y, hpre.trans (List.prefix_append xs [x]), hand⟩

/-- **A link that is served is entered, or it was taken over**, as long as nobody is unregistered. -/
theorem entered_or_evicted (hu : ∀ q, .act (.unregister q) ∉ xs) {writer : Writer}
    (hl : ((start p site t).after xs).links[o]? = some l) (hp : l.phase = .serving writer)
    (hc : l.conn = some c) :
    ((start p site t).after xs).hub.lookup l.peer = some c ∨ (start p site t).Evicted o xs := by
  induction xs using List.reverseRecOn generalizing l writer with
  | nil => cases hl
  | append_singleton xs x ih =>
    rw [after_snoc] at hl ⊢
    have hx : ∀ q, x ≠ .act (.unregister q) := fun q hx =>
      hu q (List.mem_append_right _ (List.mem_singleton.2 hx.symm))
    have hxs : ∀ q, .act (.unregister q) ∉ xs := fun q hq => hu q (List.mem_append_left _ hq)
    obtain ⟨l₀, hl₀, hpeer, hconn, hcase⟩ | ⟨-, -, d, q, es, hW⟩ := undergo_old_or_new hl
    · have hserved : ∃ before, l₀.phase = .serving before := by
        obtain ⟨t, -, hT⟩ | ho := hcase
        · exact serving_of_turned hT hp
        · exact ⟨writer, ho.phase ▸ hp⟩
      obtain ⟨before, hbefore⟩ := hserved
      have hc₀ : l₀.conn = some c := hconn ▸ hc
      obtain hentered | hevicted := ih hxs hl₀ hbefore hc₀
      · rw [hpeer]
        refine (undergo_keeps (standing_after p site xs) hl₀ hc₀ hentered hx hl hp).imp_right
          fun hand => ⟨xs, x, List.prefix_refl _, hand⟩
      · exact .inr (hevicted.snoc x)
    · exact .inl (hW.listed hp hc)

/-! ## Top theorem -/

end World

end Switchboard.Relay
