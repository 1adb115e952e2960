import Switchboard.Proofs.Relay.Standing

/-!
# What the hub is asked to route

A served link that reads a data frame asks the hub to route it (`Call`), and nothing else in a relay
does.  A call that is answered with "forwarded" puts its frame behind the others in the mailbox of
the connection that is entered for the recipient; apart from calls nothing comes into a mailbox.

    w.call? x = some k → waiting d = what waited, and k.frame behind it if k.reached = some d
    w.call? x = none → no frame comes to wait anywhere
-/

namespace Switchboard.Relay

/-- A frame that a link gave the hub to route, the connection that was entered for its recipient,
and what the hub answered. -/
structure Call where
  reader : Nat
  sender : PeerId
  frame : Frame
  target : Option ConnId
  answer : Except Violation Outcome

/-- The connection that a frame was forwarded to. -/
def Call.reached (k : Call) : Option ConnId :=
  match k.answer with
  | .ok (.forwarded _) => k.target
  | _ => none

namespace World

/-- The connection that is entered for the recipient of a frame which the peer `bound` may send. -/
def target? (w : World) (bound : PeerId) (f : Frame) : Option ConnId :=
  match Hub.accept bound f with
  | .ok e => w.hub.lookup e.recipient
  | .error _ => none

/-- The frame that a link gives the hub to route if it reads now. -/
def offer? (w : World) (l : Link) : Option Frame :=
  match l.phase, l.conn, l.inbound with
  | .serving _, some c, .frame f :: _ =>
    if w.hub.isClosing c || decide (l.deadline ≤ w.now) || f.isControl ||
        (Link.transportFault? w.hub.policy.maxMessageSize f).isSome || w.idleTooLong then none
    else some f
  | _, _, _ => none

/-- What the hub is asked to route in an incident. -/
def call? (w : World) : Incident → Option Call
  | .turn j .read =>
    (w.links[j]?).bind fun l => (w.offer? l).map fun f =>
      ⟨j, l.peer, f, w.target? l.peer f, (w.hub.route l.peer f).2⟩
  | _ => none

/-- All that the hub is asked to route in a run, in order. -/
def calls (w : World) (xs : List Incident) : List Call :=
  (w.trace xs).filterMap fun s => s.1.call? s.2

end World

variable {w : World} {l l' : Link} {c : ConnId} {h' : Hub} {es : List Event}

/-! ## Calls of a link -/

namespace World

theorem offer?_eq_some_iff {f : Frame} :
    w.offer? l = some f ↔ ∃ writer c rest, l.phase = .serving writer ∧ l.conn = some c ∧
      Accepts w l c f rest ∧ f.isData = true := by
  constructor
  · intro h
    unfold offer? at h
    split at h
    · next writer c g rest hp hc hi =>
      split at h
      · cases h
      · next hn =>
        obtain rfl := Option.some.inj h
        simp only [Frame.isControl, Bool.or_eq_true, decide_eq_true_eq, Bool.not_eq_true', not_or,
          Bool.not_eq_true, Nat.not_le, Bool.not_eq_false, Option.isSome_eq_false_iff,
          Option.isNone_iff_eq_none] at hn
        obtain ⟨⟨⟨⟨hs, hd⟩, hf⟩, ht⟩, hl⟩ := hn
        exact ⟨writer, c, rest, hp, hc, ⟨⟨⟨hs, hd, hi⟩, ht⟩, hl⟩, hf⟩
    · cases h
  · rintro ⟨writer, c, rest, hp, hc, hh, hf⟩
    have hd : decide (l.deadline ≤ w.now) = false := decide_eq_false (Nat.not_le.2 hh.early)
    simp only [offer?, hp, hc, hh.next, hh.calm, hd, Frame.isControl, hf, hh.sound, hh.timed]
    rfl

theorem call?_eq_some_iff {x : Incident} {k : Call} :
    w.call? x = some k ↔ ∃ l, x = .turn k.reader .read ∧ w.links[k.reader]? = some l ∧
      w.offer? l = some k.frame ∧ k.sender = l.peer ∧ k.target = w.target? l.peer k.frame ∧
      k.answer = (w.hub.route l.peer k.frame).2 := by
  constructor
  · intro h
    unfold call? at h
    split at h
    · next j =>
      obtain ⟨l, hl, hk⟩ := Option.bind_eq_some_iff.1 h
      obtain ⟨f, hf, rfl⟩ := Option.map_eq_some_iff.1 hk
      exact ⟨l, rfl, hl, hf, rfl, rfl, rfl⟩
    · cases h
  · rintro ⟨l, rfl, hl, hf, hs, ht, ha⟩
    obtain ⟨reader, sender, frame, target, answer⟩ := k
    dsimp only at hl hf hs ht ha
    simp only [call?, hl, Option.bind_some, hf, Option.map_some, hs, ht, ha]

theorem call_of_mem_calls {xs : List Incident} {k : Call} (hk : k ∈ w.calls xs) :
    ∃ ys x zs, xs = ys ++ x :: zs ∧ (w.after ys).call? x = some k := by
  induction xs generalizing w with
  | nil => cases hk
  | cons x xs ih =>
    rw [calls, trace, List.filterMap_cons] at hk
    have later : k ∈ (w.undergo x).1.calls xs → ∃ ys y zs, x :: xs = ys ++ y :: zs ∧
        (w.after ys).call? y = some k := by
      intro hk
      obtain ⟨ys, y, zs, rfl, hcall⟩ := ih hk
      exact ⟨x :: ys, y, zs, rfl, hcall⟩
    split at hk
    · exact later hk
    · next k' hk' =>
      rcases List.mem_cons.1 hk with rfl | hk
      · exact ⟨[], x, xs, rfl, hk'⟩
      · exact later hk

/-- A link that can hear a frame reads it. -/
theorem read_of_accepts {i : Nat} {writer : Writer} {f : Frame} {rest : List Arrival}
    (hp : l.phase = .serving writer) (hc : l.conn = some c) (hh : Accepts w l c f rest) :
    w.read i l = some (w.take i (w.awake l rest) f) := by
  unfold read
  split
  · next hp' hc' =>
    obtain rfl := Option.some.inj (hc.symm.trans hc')
    simp only [hh.calm, Bool.false_eq_true, if_false, Nat.not_le.2 hh.early, hh.next, hh.sound,
      hh.timed]
    rfl
  · next hne => exact absurd hc (hne writer c hp)

/-- **What becomes of a call.**  The link goes on, or it ends for the violation that was answered;
in the hub nothing is done but what routing does, and what the end of a link does. -/
theorem undergo_call {x : Incident} {k : Call} (hk : w.call? x = some k) :
    ∃ l c rest, w.links[k.reader]? = some l ∧ l.conn = some c ∧
      l.inbound = .frame k.frame :: rest ∧
      ((∃ h o, w.hub.route l.peer k.frame = (h, .ok o) ∧ k.answer = .ok o ∧
          (w.undergo x).1 = w.put k.reader (w.awake l rest) h) ∨
        ∃ h v giveUp owed, w.hub.route l.peer k.frame = (h, .error v) ∧ k.answer = .error v ∧
          (w.undergo x).1 = w.put k.reader
            { w.awake l rest with phase := .closing (.violation v) owed giveUp }
            ((h.release l.peer c).requestClose c)) := by
  obtain ⟨l, rfl, hl, hf, -, -, ha⟩ := call?_eq_some_iff.1 hk
  obtain ⟨writer, c, rest, hp, hc, hh, hd⟩ := offer?_eq_some_iff.1 hf
  refine ⟨l, c, rest, hl, hc, hh.next, ?_⟩
  have hread : w.undergo (.turn k.reader .read) =
      w.take k.reader (w.awake l rest) k.frame := by
    simp only [undergo, turn, hl, read_of_accepts hp hc hh]
    rfl
  rcases hr : w.hub.route l.peer k.frame with ⟨h, v | o⟩
  · refine .inr ⟨h, v, w.now + closeTimeout, owedFor (.violation v), rfl, by rw [ha, hr], ?_⟩
    have hfin := finish_eq (w := { w with hub := h }) (i := k.reader) (l := l)
      (k := w.awake l rest) (.violation v) (owedFor (.violation v)) hp hc rfl
    rw [hread]
    cases hf' : k.frame with
    | text | binary =>
      simp only [hf'] at hr
      simp only [take, awake, hr]
      exact congrArg (·.1) hfin
    | ping | pong | close =>
      rw [hf'] at hd
      cases hd
  · refine .inl ⟨h, o, rfl, by rw [ha, hr], ?_⟩
    rw [hread]
    cases hf' : k.frame with
    | text | binary =>
      simp only [hf'] at hr
      simp only [take, awake, hr]
      rfl
    | ping | pong | close =>
      rw [hf'] at hd
      cases hd

/-! ## What comes into a mailbox -/

/-- The calls of an incident that reach the connection `d`. -/
def newFor (w : World) (d : ConnId) (x : Incident) : List Call :=
  (w.call? x).toList.filter fun k => k.reached == some d

/-- The calls of a run whose frames were forwarded to the connection `d`. -/
def forwarded (w : World) (d : ConnId) (xs : List Incident) : List Call :=
  (w.calls xs).filter fun k => k.reached == some d

theorem calls_snoc (w : World) (xs : List Incident) (x : Incident) :
    w.calls (xs ++ [x]) = w.calls xs ++ ((w.after xs).call? x).toList := by
  rw [calls, trace_append, List.filterMap_append]
  cases hk : (w.after xs).call? x <;> simp [calls, trace, hk]

theorem forwarded_snoc (w : World) (d : ConnId) (xs : List Incident) (x : Incident) :
    w.forwarded d (xs ++ [x]) = w.forwarded d xs ++ (w.after xs).newFor d x := by
  rw [forwarded, calls_snoc, List.filter_append]
  rfl

/-- What is answered to a valid frame: it reached whom its recipient's entry led to, or it is
reported that it did not. -/
theorem answer_of_accept {x : Incident} {k : Call} {e : Envelope} (hk : w.call? x = some k)
    (he : Hub.accept k.sender k.frame = .ok e) :
    k.target = w.hub.lookup e.recipient ∧
      (k.reached = k.target ∧ k.target.isSome = true ∨ k.answer = .ok (.dropped e.recipient) ∨
        ∃ why, k.answer = .ok (.unroutable e.recipient why)) := by
  obtain ⟨l, -, -, -, hs, ht, ha⟩ := call?_eq_some_iff.1 hk
  rw [hs] at he
  have htarget : k.target = w.hub.lookup e.recipient := by rw [ht, target?, he]
  refine ⟨htarget, ?_⟩
  simp only [Hub.route, he, Hub.forward, Hub.lookup_tally] at ha
  cases hl : w.hub.lookup e.recipient with
  | none =>
    rw [hl] at ha
    exact .inr (.inr ⟨_, ha⟩)
  | some d =>
    rw [hl] at ha htarget
    rw [htarget]
    dsimp only at ha
    split at ha
    · exact .inl ⟨by rw [Call.reached, ha]; exact htarget, rfl⟩
    · exact .inr (.inl ha)
    · exact .inr (.inr ⟨_, ha⟩)

/-! ## Turns without a call -/

theorem inbound_hand {h : Hub} {i : Nat} {f : Frame} :
    ∃ l', ({ w with hub := h }.hand i l c f).1.links = w.links.set i l' ∧
      l'.inbound = l.inbound := by
  unfold hand
  split <;> exact ⟨_, rfl, rfl⟩

/-- Only the reading hand takes away what has come. -/
theorem inbound_of_turn {i : Nat} {t : Turn} {w' : World} (ht : t ≠ .read)
    (hl : w.links[i]? = some l) (h : w.turn i t = some (w', es)) :
    ∃ l', w'.links = w.links.set i l' ∧ l.inbound <+: l'.inbound := by
  have same : ∀ l' : Link, l'.inbound = l.inbound → l.inbound <+: l'.inbound := fun l' he =>
    he ▸ List.prefix_refl _
  simp only [turn, hl] at h
  cases t with
  | read => exact absurd rfl ht
  | write =>
    simp only [write] at h
    split at h
    case h_2 => cases h
    next writer c hp hc =>
    split at h
    · cases h
    cases writer with
    | stopped => cases h
    | sending =>
      simp only at h
      split at h
      · cases h
        exact ⟨_, rfl, same _ rfl⟩
      · split at h
        · cases h
          exact ⟨_, rfl, same _ rfl⟩
        · cases h
    | idle =>
      simp only at h
      split at h
      · next f fs hub hr =>
        obtain ⟨l', hs, hi⟩ := inbound_hand (w := w) (l := l) (c := c) (h := hub) (i := i) (f := f)
        rw [Option.some.inj h] at hs
        exact ⟨l', hs, same _ hi⟩
      · split at h
        · simp only [Option.some.injEq, Prod.mk.injEq] at h
          obtain ⟨rfl, -⟩ := h
          obtain ⟨l', hs, hi⟩ := inbound_hand (w := w)
            (l := { l with nextPing := w.pingAfter l }) (c := c) (h := w.hub) (i := i)
            (f := .ping [])
          exact ⟨l', hs, same _ hi⟩
        · cases h
  | close =>
    simp only [close] at h
    split at h
    case h_2 => cases h
    next r owed giveUp hp =>
    split at h
    · cases h
      exact ⟨_, rfl, same _ rfl⟩
    split at h
    · split at h
      · cases h
        exact ⟨_, rfl, same _ rfl⟩
      · split at h <;> cases h <;> exact ⟨_, rfl, same _ rfl⟩
    split at h
    · cases h
      exact ⟨_, rfl, same _ rfl⟩
    · cases h
  | receive =>
    simp only [receive] at h
    split at h
    · cases h
    split at h
    · cases h
      exact ⟨_, rfl, List.prefix_append _ _⟩
    · split at h
      · cases h
        exact ⟨_, rfl, same _ rfl⟩
      · cases h

/-- A turn with which no frame was given to the hub has left a frame that could be given. -/
theorem inbound_of_call {i : Nat} {t : Turn} (hl : w.links[i]? = some l)
    (hl' : (w.undergo (.turn i t)).1.links[i]? = some l') (hk : w.call? (.turn i t) = none)
    {f : Frame} (hf : w.offer? l = some f) : l.inbound <+: l'.inbound := by
  by_cases ht : t = .read
  · subst ht
    simp [call?, hl, hf] at hk
  · cases hr : w.turn i t with
    | none =>
      rw [undergo, hr, Option.getD_none, hl] at hl'
      obtain rfl := Option.some.inj hl'
      exact List.prefix_refl _
    | some r =>
      obtain ⟨w', es⟩ := r
      obtain ⟨k, hlinks, hpre⟩ := inbound_of_turn ht hl hr
      rw [undergo, hr, Option.getD_some, hlinks,
        List.getElem?_set_self (List.getElem?_eq_some_iff.1 hl).1] at hl'
      rwa [← Option.some.inj hl']

theorem newFor_of_none {d : ConnId} {x : Incident} (hk : w.call? x = none) : w.newFor d x = [] := by
  rw [newFor, hk]
  rfl

/-- What a call brings about in the mailboxes. -/
theorem waiting_of_call {x : Incident} {k : Call} (hk : w.call? x = some k) (d : ConnId) :
    (w.undergo x).1.hub.waiting d = w.hub.waiting d ++ (w.newFor d x).map (·.frame) := by
  obtain ⟨l, -, hl, -, -, ht, ha⟩ := call?_eq_some_iff.1 hk
  have hhub : (w.undergo x).1.hub.waiting d = (w.hub.route l.peer k.frame).1.waiting d := by
    obtain ⟨l₁, c, rest, hl₁, -, -, hcase⟩ := undergo_call hk
    obtain rfl := Option.some.inj (hl₁.symm.trans hl)
    obtain ⟨h, o, hr, -, hu⟩ | ⟨h, v, giveUp, owed, hr, -, hu⟩ := hcase <;> rw [hu, hr]
    · rfl
    · show ((h.release l₁.peer c).requestClose c).waiting d = _
      rw [Hub.waiting_requestClose, Hub.waiting_release]
  rw [hhub, newFor, hk, Option.toList_some]
  obtain ⟨e, c, he, hl, hr, hw⟩ | ⟨hr, hw⟩ := w.hub.waiting_route l.peer k.frame d <;> rw [hw]
  · have hreached : k.reached = some c := by
      rw [Call.reached, ha, hr, ht, target?, he]
      exact hl
    by_cases hc : c = d
    · simp [hreached, hc]
    · simp [hreached, hc]
  · have hreached : k.reached = none := by
      rw [Call.reached, ha]
      split
      · next dest hd => exact absurd hd (hr dest)
      · rfl
    simp [hreached]

end World

theorem Ending.waiting {r : CloseReason} {owed : Option Frame} (a : Ending w l c r owed l' h' es)
    (d : ConnId) : h'.waiting d = w.hub.waiting d := by
  cases a with
  | @violated f rest v h hh hf hr =>
    obtain ⟨_, _, -, -, hr', -⟩ | ⟨-, hw⟩ := w.hub.waiting_route l.peer f d
    · rw [hr] at hr'
      cases hr'
    · rwa [hr] at hw
  | told | silent | finished | fault | misfit | vanished | left | mute => rfl

theorem Given.waiting {f : Frame} (a : Given w l c f l' h' es) {d : ConnId} (hd : c ≠ d) :
    h'.waiting d = w.hub.waiting d := by
  cases a with
  | queued hr =>
    have hw := w.hub.waiting_receive c d (some 1)
    rw [if_neg hd, List.nil_append, hr] at hw
    exact hw.symm
  | ping => rfl

/-- A turn without a call leaves what waits for others. -/
theorem Turned.waiting (a : Turned w l l' h' es) {d : ConnId} (hd : l.conn ≠ some d)
    (hn : ∀ f, w.offer? l = some f → l.inbound <+: l'.inbound) :
    h'.waiting d = w.hub.waiting d := by
  have other : ∀ {e}, l.conn = some e → e ≠ d := by
    rintro e he rfl
    exact hd he
  cases a with
  | ended _ _ he => rw [Hub.waiting_requestClose, Hub.waiting_release, he.waiting]
  | crashed _ hc => rw [Hub.waiting_updateBox_ne _ (other hc), Hub.waiting_leave]
  | routed hp hc hh hf =>
    have hpre := hn _ (World.offer?_eq_some_iff.2 ⟨_, _, _, hp, hc, hh, hf⟩)
    rw [hh.next] at hpre
    exact absurd hpre.length_le (Nat.not_le.2 (Nat.lt_succ_self _))
  | jammed => exact Hub.waiting_requestClose _ _ _
  | handed _ hc _ hg => exact hg.waiting (other hc)
  | failed _ hc _ hg => rw [Hub.waiting_requestClose, hg.waiting (other hc)]
  | parted =>
    split
    · next e he => exact Hub.waiting_updateBox_ne _ (other he) _
    · rfl
  | woke | answered | ready | paid | drained | noticed => rfl

theorem Welcomed.waiting {h : Hub} {dial : Dial} {p : PeerId} (a : Welcomed w dial p l h es)
    (d : ConnId) : h.waiting d = w.hub.waiting d := by
  have hreg := w.hub.waiting_register p w.hub.policy.queueCapacity d
  have hfresh : ∀ c, l.conn = some c → c = w.hub.fresh := fun c hc => (a.conn hc).1
  cases a with
  | unqueued => rfl
  | refused hr | served hr => rwa [hr] at hreg
  | @undone done h₁ _ hr _ hlink =>
    rw [hr] at hreg
    by_cases hd : done.conn = d
    · -- the mailbox that is thrown away is the new one, and nothing waits there
      obtain rfl : d = w.hub.fresh := hd.symm.trans (hfresh done.conn (by rw [hlink]; rfl))
      rw [Hub.waiting_fresh, hd, Hub.waiting, Hub.box?_updateBox, if_pos rfl]
      cases (h₁.leave p w.hub.fresh).box? w.hub.fresh <;> rfl
    · rw [Hub.waiting_updateBox_ne _ hd, Hub.waiting_leave]
      exact hreg

namespace World

/-- **What comes into a mailbox**: the frames that were forwarded to it, and no others. -/
theorem undergo_waiting {d : ConnId} {x : Incident}
    (hx : ∀ i t l, x = .turn i t → w.links[i]? = some l → l.conn ≠ some d) :
    (w.undergo x).1.hub.waiting d = w.hub.waiting d ++ (w.newFor d x).map (·.frame) := by
  cases hk : w.call? x with
  | some k => exact waiting_of_call hk d
  | none =>
    rw [newFor_of_none hk, List.map_nil, List.append_nil]
    cases x with
    | act a =>
      obtain ha | ⟨dial, p, l, h, es, rfl, hW, hw, -⟩ := w.act_cases a
      · exact ha.waiting d
      · rw [undergo, hw]
        exact hW.waiting d
    | arrive j a =>
      simp only [undergo]
      split <;> rfl
    | turn j t =>
      obtain hu | ⟨l, l', h, es, hl, hu, hT⟩ := w.undergo_turn j t
      · rw [hu]
      · have hl' : (w.undergo (.turn j t)).1.links[j]? = some l' := by
          rw [hu]
          exact links_put_self hl h
        rw [hu]
        exact hT.waiting (hx j t l rfl hl) fun f hf => inbound_of_call hl hl' hk hf
    | report | pass => rfl

end World

end Switchboard.Relay
