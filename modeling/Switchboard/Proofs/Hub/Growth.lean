import Switchboard.Hub.Basic

/-!
# What the operations of a hub leave alone

Every operation keeps the policy and each connection's mailbox, with its peer and its capacity; a
close signal stays raised, and a reading end stays closed (`Later`).  All of them but delivering
and receiving also keep what waits in every mailbox that is not thrown away (`Still`).

    h.Later h' → h.IsOf c p → h'.IsOf c p
    h.Still h' → h'.gone c = false → h'.waiting c = h.waiting c
-/

namespace Switchboard

/-! ## Mailboxes -/

namespace Mailbox

/-- What time does to a mailbox, whatever happens. -/
structure Later (m m' : Mailbox) : Prop where
  peer : m'.peer = m.peer
  capacity : m'.capacity = m.capacity
  closing : m.closing = true → m'.closing = true
  outlet : m.outlet ≠ .open → m'.outlet ≠ .open
  gone : m.outlet = .gone → m'.outlet = .gone
  fits : m.frames.length ≤ m.capacity → m'.frames.length ≤ m'.capacity

theorem Later.refl (m : Mailbox) : m.Later m := ⟨rfl, rfl, id, id, id, id⟩

theorem Later.trans {m m' m'' : Mailbox} (h : m.Later m') (h' : m'.Later m'') : m.Later m'' where
  peer := h'.peer.trans h.peer
  capacity := h'.capacity.trans h.capacity
  closing := h'.closing ∘ h.closing
  outlet := h'.outlet ∘ h.outlet
  gone := h'.gone ∘ h.gone
  fits := h'.fits ∘ h.fits

theorem later_close (m : Mailbox) : m.Later m.close :=
  ⟨rfl, rfl, fun _ => rfl, id, id, id⟩

theorem later_shut (m : Mailbox) : m.Later m.shut := by
  refine ⟨rfl, rfl, id, fun _ => ?_, fun h => ?_, id⟩
  · unfold shut
    cases m.outlet <;> simp
  · simp [shut, h]

theorem later_discard (m : Mailbox) : m.Later m.discard :=
  ⟨rfl, rfl, id, fun _ => by simp [discard], fun _ => rfl, fun _ => Nat.zero_le _⟩

theorem later_take (m : Mailbox) (most : Option Nat) : m.Later (m.take most).2 := by
  refine ⟨rfl, rfl, id, id, id, fun h => ?_⟩
  have hl : (m.take most).2.frames.length ≤ m.frames.length := by simp [take]
  exact Nat.le_trans hl h

theorem later_append (m : Mailbox) (f : Frame) (h : m.refusal? = none) :
    m.Later { m with frames := m.frames ++ [f] } := by
  have hr := (refusal?_eq_none_iff m).1 h
  refine ⟨rfl, rfl, id, id, id, fun _ => ?_⟩
  simp only [List.length_append, List.length_singleton]
  omega

end Mailbox

namespace Hub

/-! ## Views -/

/-- The connection `c` was set up for the peer `p`. -/
def IsOf (h : Hub) (c : ConnId) (p : PeerId) : Prop := ∃ m, h.box? c = some m ∧ m.peer = p

/-- The frames that wait for a connection. -/
def waiting (h : Hub) (c : ConnId) : List Frame := ((h.box? c).map (·.frames)).getD []

/-- Whether the reading end of a connection was thrown away. -/
def gone (h : Hub) (c : ConnId) : Bool := (h.box? c).any (·.outlet = .gone)

/-- Every entry of the table is a connection of the peer it is entered for. -/
def Filed (h : Hub) : Prop := ∀ p c, h.lookup p = some c → h.IsOf c p

/-- No mailbox holds more frames than it may. -/
def Fits (h : Hub) : Prop := ∀ c m, h.box? c = some m → m.frames.length ≤ m.capacity

theorem IsOf.unique {h : Hub} {c : ConnId} {p q : PeerId} (hp : h.IsOf c p) (hq : h.IsOf c q) :
    p = q := by
  obtain ⟨m, hm, rfl⟩ := hp
  obtain ⟨n, hn, rfl⟩ := hq
  rw [hm] at hn
  rw [Option.some.inj hn]

theorem box?_lt {h : Hub} {c : ConnId} {m : Mailbox} (hm : h.box? c = some m) : c < h.fresh :=
  (List.getElem?_eq_some_iff.1 hm).1

theorem box?_fresh (h : Hub) : h.box? h.fresh = none := List.getElem?_eq_none (Nat.le_refl _)

theorem IsOf.lt {h : Hub} {c : ConnId} {p : PeerId} (hp : h.IsOf c p) : c < h.fresh := by
  obtain ⟨m, hm, -⟩ := hp
  exact box?_lt hm

theorem waiting_of_box? {h : Hub} {c : ConnId} {m : Mailbox} (hm : h.box? c = some m) :
    h.waiting c = m.frames := by
  simp [waiting, hm]

theorem gone_of_box? {h : Hub} {c : ConnId} {m : Mailbox} (hm : h.box? c = some m) :
    h.gone c = decide (m.outlet = .gone) := by
  simp [gone, hm]

theorem isClosing_of_box? {h : Hub} {c : ConnId} {m : Mailbox} (hm : h.box? c = some m) :
    h.isClosing c = m.closing := by
  simp [isClosing, hm]

/-! ## Mailboxes after each operation -/

theorem box?_updateBox (h : Hub) (c d : ConnId) (f : Mailbox → Mailbox) :
    (h.updateBox c f).box? d = if c = d then (h.box? d).map f else h.box? d := by
  unfold updateBox box?
  rw [List.getElem?_modify]
  by_cases hc : c = d
  · simp [hc]
  · simp [hc]

theorem box?_openBox (h : Hub) (p : PeerId) (n : Nat) (c : ConnId) :
    (h.openBox p n).box? c = if c = h.fresh then some (.new p n) else h.box? c := by
  unfold openBox box? fresh
  rw [List.getElem?_append]
  rcases Nat.lt_trichotomy c h.boxes.length with hc | hc | hc
  · rw [if_pos hc, if_neg (Nat.ne_of_lt hc)]
  · simp [hc]
  · have hn : (h.boxes ++ [Mailbox.new p n])[c]? = none := List.getElem?_eq_none (by
      rw [List.length_append]; exact hc)
    rw [List.getElem?_append] at hn
    rw [hn, if_neg (Nat.ne_of_gt hc), List.getElem?_eq_none (Nat.le_of_lt hc)]

theorem peer_box?_requestClose (h : Hub) (c d : ConnId) :
    ((h.requestClose c).box? d).map (·.peer) = (h.box? d).map (·.peer) := by
  rw [requestClose, box?_updateBox]
  split
  · rw [Option.map_map]
    rfl
  · rfl

theorem isClosing_openBox (h : Hub) (p : PeerId) (n : Nat) (c : ConnId) :
    (h.openBox p n).isClosing c = h.isClosing c := by
  rw [isClosing, isClosing, box?_openBox]
  split
  · next hc =>
    subst hc
    rw [box?_fresh]
    rfl
  · rfl

theorem isClosing_requestClose {h : Hub} {c : ConnId} {m : Mailbox} (hm : h.box? c = some m)
    (d : ConnId) : (h.requestClose c).isClosing d = true ↔ d = c ∨ h.isClosing d = true := by
  rw [isClosing, isClosing, requestClose, box?_updateBox]
  by_cases hc : c = d
  · subst hc
    simp [hm, Mailbox.close]
  · rw [if_neg hc]
    exact ⟨.inr, fun hd => hd.resolve_left (Ne.symm hc)⟩

@[simp] theorem lookup_updateBox (h : Hub) (c : ConnId) (f : Mailbox → Mailbox) (p : PeerId) :
    (h.updateBox c f).lookup p = h.lookup p := rfl

@[simp] theorem lookup_tally (h : Hub) (t : Tally) (p : PeerId) :
    (h.tally t).lookup p = h.lookup p := rfl

@[simp] theorem lookup_requestClose (h : Hub) (c : ConnId) (p : PeerId) :
    (h.requestClose c).lookup p = h.lookup p := rfl

/-! ## Operations that follow each other -/

/-- What time does to a hub, whatever happens. -/
structure Later (h h' : Hub) : Prop where
  policy : h'.policy = h.policy
  box : ∀ c m, h.box? c = some m → ∃ m', h'.box? c = some m' ∧ m.Later m'
  fits : h.Fits → h'.Fits

/-- Nothing that waits is touched, but that a whole mailbox may be thrown away. -/
structure Still (h h' : Hub) : Prop extends Later h h' where
  waiting : ∀ c, h'.gone c = false → h'.waiting c = h.waiting c

theorem Later.refl (h : Hub) : h.Later h := ⟨rfl, fun _ m hm => ⟨m, hm, .refl m⟩, id⟩

theorem Later.trans {h h' h'' : Hub} (a : h.Later h') (b : h'.Later h'') : h.Later h'' where
  policy := b.policy.trans a.policy
  box c m hm := by
    obtain ⟨m', hm', l⟩ := a.box c m hm
    obtain ⟨m'', hm'', l'⟩ := b.box c m' hm'
    exact ⟨m'', hm'', l.trans l'⟩
  fits := b.fits ∘ a.fits

theorem Later.isOf {h h' : Hub} (a : h.Later h') {c : ConnId} {p : PeerId} (hc : h.IsOf c p) :
    h'.IsOf c p := by
  obtain ⟨m, hm, rfl⟩ := hc
  obtain ⟨m', hm', l⟩ := a.box c m hm
  exact ⟨m', hm', l.peer⟩

theorem Later.isClosing {h h' : Hub} (a : h.Later h') {c : ConnId} (hc : h.isClosing c = true) :
    h'.isClosing c = true := by
  unfold Hub.isClosing at hc
  rw [Option.any_eq_true] at hc
  obtain ⟨m, hm, hcl⟩ := hc
  obtain ⟨m', hm', l⟩ := a.box c m hm
  rw [isClosing_of_box? hm']
  exact l.closing hcl

theorem Later.gone {h h' : Hub} (a : h.Later h') {c : ConnId} (hc : h'.gone c = false) :
    h.gone c = false := by
  cases hm : h.box? c with
  | none => simp [Hub.gone, hm]
  | some m =>
    obtain ⟨m', hm', l⟩ := a.box c m hm
    rw [gone_of_box? hm', decide_eq_false_iff_not] at hc
    rw [gone_of_box? hm, decide_eq_false_iff_not]
    exact fun hg => hc (l.gone hg)

theorem Still.refl (h : Hub) : h.Still h := ⟨.refl h, fun _ _ => rfl⟩

theorem Still.trans {h h' h'' : Hub} (a : h.Still h') (b : h'.Still h'') : h.Still h'' where
  toLater := a.toLater.trans b.toLater
  waiting c hg := (b.waiting c hg).trans (a.waiting c (b.toLater.gone hg))

theorem later_updateBox (h : Hub) (c : ConnId) (f : Mailbox → Mailbox)
    (hf : ∀ m, h.box? c = some m → m.Later (f m)) : h.Later (h.updateBox c f) where
  policy := rfl
  box d m hm := by
    rw [box?_updateBox, hm]
    split
    · next hc => subst hc; exact ⟨f m, rfl, hf m hm⟩
    · exact ⟨m, rfl, .refl m⟩
  fits hfit d m hm := by
    rw [box?_updateBox] at hm
    split at hm
    · next hc =>
      subst hc
      obtain ⟨n, hn, rfl⟩ := Option.map_eq_some_iff.1 hm
      exact (hf n hn).fits (hfit c n hn)
    · exact hfit d m hm

theorem still_updateBox (h : Hub) (c : ConnId) (f : Mailbox → Mailbox)
    (hf : ∀ m, h.box? c = some m → m.Later (f m))
    (hw : ∀ m, h.box? c = some m → (f m).outlet ≠ .gone → (f m).frames = m.frames) :
    h.Still (h.updateBox c f) where
  toLater := later_updateBox h c f hf
  waiting d hg := by
    cases hm : h.box? d with
    | none => simp [Hub.waiting, box?_updateBox, hm]
    | some m =>
      rw [waiting_of_box? hm]
      by_cases hc : c = d
      · subst hc
        have hb : (h.updateBox c f).box? c = some (f m) := by
          rw [box?_updateBox, if_pos rfl, hm]; rfl
        rw [gone_of_box? hb, decide_eq_false_iff_not] at hg
        rw [waiting_of_box? hb, hw m hm hg]
      · exact waiting_of_box? (by rw [box?_updateBox, if_neg hc, hm])

/-- Operations on the table, the counters and the stop flag. -/
theorem still_of_boxes {h h' : Hub} (hp : h'.policy = h.policy) (hb : h'.boxes = h.boxes) :
    h.Still h' := by
  have hbox : ∀ c, h'.box? c = h.box? c := fun c => by rw [box?, hb, box?]
  refine ⟨⟨hp, fun c m hm => ⟨m, (hbox c).trans hm, .refl m⟩, fun hf c m hm => ?_⟩, fun c _ => ?_⟩
  · exact hf c m ((hbox c).symm.trans hm)
  · rw [Hub.waiting, hbox, Hub.waiting]

theorem still_openBox (h : Hub) (p : PeerId) (n : Nat) : h.Still (h.openBox p n) where
  policy := rfl
  box c m hm := by
    refine ⟨m, ?_, .refl m⟩
    rw [box?_openBox, if_neg (Nat.ne_of_lt (box?_lt hm)), hm]
  fits hf c m hm := by
    rw [box?_openBox] at hm
    split at hm
    · rw [← Option.some.inj hm]; exact Nat.zero_le n
    · exact hf c m hm
  waiting c _ := by
    rw [Hub.waiting, box?_openBox]
    split
    · next hc => subst hc; rw [Hub.waiting, box?_fresh]; rfl
    · rfl

theorem still_requestClose (h : Hub) (c : ConnId) : h.Still (h.requestClose c) :=
  still_updateBox h c _ (fun m _ => m.later_close) fun _ _ _ => rfl

theorem still_leave (h : Hub) (p : PeerId) (c : ConnId) : h.Still (h.leave p c) := by
  unfold leave
  split
  · exact still_of_boxes rfl rfl
  · exact .refl h

/-- What entering a connection can come to. -/
theorem enter_cases (h : Hub) (p : PeerId) (c : ConnId) :
    (h.lookup p = none ∧ h.enter p c = ({ h with table := h.table.insert p c }, .ok none)) ∨
    (∃ old, h.lookup p = some old ∧ h.policy.duplicates = .rejectNew ∧
      h.enter p c = (h, .error ⟨p⟩)) ∨
    (∃ old, h.lookup p = some old ∧ h.policy.duplicates = .evictExisting ∧
      h.enter p c = ({ h with table := h.table.insert p c }.requestClose old, .ok (some old))) := by
  unfold enter
  cases hl : h.lookup p with
  | none => exact .inl ⟨rfl, rfl⟩
  | some old =>
    cases hd : h.policy.duplicates with
    | rejectNew => exact .inr (.inl ⟨old, rfl, rfl, rfl⟩)
    | evictExisting => exact .inr (.inr ⟨old, rfl, rfl, rfl⟩)

theorem still_enter (h : Hub) (p : PeerId) (c : ConnId) : h.Still (h.enter p c).1 := by
  obtain ⟨-, he⟩ | ⟨old, -, -, he⟩ | ⟨old, -, -, he⟩ := h.enter_cases p c <;> rw [he]
  · exact still_of_boxes rfl rfl
  · exact .refl h
  · have ht : h.Still { h with table := h.table.insert p c } := still_of_boxes rfl rfl
    exact ht.trans (still_requestClose _ old)

/-- What the hub is like after `c` was entered for `p`. -/
structure Entered (h : Hub) (p : PeerId) (c : ConnId) (h' : Hub) : Prop where
  still : h.Still h'
  lookup : ∀ q, h'.lookup q = if q = p then some c else h.lookup q
  evicted : ∀ old q, h.lookup p = some old → h.IsOf old q → h'.isClosing old = true
  free : h.policy.duplicates = .rejectNew → h.lookup p = none

theorem enter_entered (h : Hub) (p : PeerId) (c : ConnId) :
    (∃ h', h.enter p c = (h', .ok (h.lookup p)) ∧ h.Entered p c h') ∨
    (∃ old, h.lookup p = some old ∧ h.policy.duplicates = .rejectNew ∧
      h.enter p c = (h, .error ⟨p⟩)) := by
  have hs := h.still_enter p c
  obtain ⟨hl, he⟩ | hr | ⟨old, hl, hd, he⟩ := h.enter_cases p c
  · rw [he] at hs
    refine .inl ⟨_, by rw [he, hl], hs, fun q => Peers.find?_insert _ _ _ _, fun old q ho => ?_,
      fun _ => hl⟩
    rw [hl] at ho
    cases ho
  · exact .inr hr
  · rw [he] at hs
    refine .inl ⟨_, by rw [he, hl], hs, fun q => ?_, fun old' q ho hq => ?_, fun hn => ?_⟩
    · rw [lookup_requestClose]
      exact Peers.find?_insert _ _ _ _
    · rw [hl] at ho
      obtain rfl := Option.some.inj ho
      obtain ⟨m, hm, -⟩ := hq
      have hb : ({ h with table := h.table.insert p c }.requestClose old).box? old =
          some m.close := by
        rw [requestClose, box?_updateBox, if_pos rfl]
        exact congrArg (Option.map Mailbox.close) hm
      rw [isClosing_of_box? hb]
      rfl
    · rw [hd] at hn
      cases hn

/-- A registration opens a mailbox and enters its connection, or is refused. -/
theorem register_entered (h : Hub) (p : PeerId) (n : Nat) :
    (∃ h', h.register p n = (h', .ok ⟨h.fresh, h.lookup p⟩) ∧ (h.openBox p n).Entered p h.fresh h') ∨
    (∃ old, h.lookup p = some old ∧ h.policy.duplicates = .rejectNew ∧
      h.register p n = (h.tally .rejection, .error ⟨p⟩)) := by
  unfold register
  obtain ⟨h', he, hen⟩ | ⟨old, hl, hd, he⟩ := (h.openBox p n).enter_entered p h.fresh
  · rw [he]
    left
    have tallied : ∀ k : Hub, k.policy = h'.policy → k.boxes = h'.boxes → k.table = h'.table →
        (h.openBox p n).Entered p h.fresh k := by
      intro k hp hb ht
      have hs : h'.Still k := still_of_boxes hp hb
      refine ⟨hen.still.trans hs, fun q => ?_, fun old q ho hq => ?_, hen.free⟩
      · rw [Hub.lookup, ht]
        exact hen.lookup q
      · exact hs.toLater.isClosing (hen.evicted old q ho hq)
    refine ⟨_, rfl, ?_⟩
    split
    · exact tallied _ rfl rfl rfl
    · exact tallied _ rfl rfl rfl
  · rw [he]
    exact .inr ⟨old, hl, hd, rfl⟩

/-- An accepted registration enters the connection of the mailbox that it opens. -/
theorem entered_of_register {h h' : Hub} {p : PeerId} {n : Nat} {done : Registered}
    (hr : h.register p n = (h', .ok done)) :
    done.conn = h.fresh ∧ (h.openBox p n).Entered p done.conn h' := by
  obtain ⟨h₁, he, hen⟩ | ⟨old, -, -, he⟩ := h.register_entered p n <;> rw [hr] at he
  · obtain ⟨rfl, hd⟩ := Prod.mk.inj he
    obtain rfl := Except.ok.inj hd
    exact ⟨rfl, hen⟩
  · cases (Prod.mk.inj he).2

/-- A refused registration is counted. -/
theorem refused_of_register {h h' : Hub} {p : PeerId} {n : Nat} {t : Taken}
    (hr : h.register p n = (h', .error t)) : h' = h.tally .rejection := by
  obtain ⟨h₁, he, -⟩ | ⟨old, -, -, he⟩ := h.register_entered p n <;> rw [hr] at he
  · cases (Prod.mk.inj he).2
  · exact (Prod.mk.inj he).1

/-! ## Operations on what waits -/

/-- What delivering can come to: the frame goes behind the others, or nothing happens. -/
theorem deliver_cases (h : Hub) (c : ConnId) (f : Frame) :
    (∃ m, h.box? c = some m ∧ m.refusal? = none ∧
      h.deliver c f = (h.updateBox c fun _ => { m with frames := m.frames ++ [f] }, .ok ())) ∨
    (∃ r, (∀ m, h.box? c = some m → m.refusal? = some r) ∧ h.deliver c f = (h, .error r)) := by
  cases hm : h.box? c with
  | none =>
    refine .inr ⟨.closed, fun m hn => ?_, by simp only [deliver, hm]⟩
    cases hn
  | some m =>
    cases hr : m.refusal? with
    | none => exact .inl ⟨m, rfl, hr, by simp only [deliver, hm, Mailbox.offer, hr]⟩
    | some r =>
      refine .inr ⟨r, fun n hn => ?_, by simp only [deliver, hm, Mailbox.offer, hr]⟩
      rw [← Option.some.inj hn, hr]

theorem later_append (h : Hub) (c : ConnId) (m : Mailbox) (f : Frame) (hm : h.box? c = some m)
    (hr : m.refusal? = none) :
    h.Later (h.updateBox c fun _ => { m with frames := m.frames ++ [f] }) := by
  refine later_updateBox h c _ fun n hn => ?_
  obtain rfl := Option.some.inj (hm.symm.trans hn)
  exact m.later_append f hr

theorem later_deliver (h : Hub) (c : ConnId) (f : Frame) : h.Later (h.deliver c f).1 := by
  obtain ⟨m, hm, hr, hd⟩ | ⟨r, -, hd⟩ := h.deliver_cases c f
  · rw [hd]
    exact h.later_append c m f hm hr
  · rw [hd]
    exact .refl h

theorem waiting_append (h : Hub) (c d : ConnId) (m : Mailbox) (f : Frame) (hm : h.box? c = some m) :
    (h.updateBox c fun _ => { m with frames := m.frames ++ [f] }).waiting d =
      if c = d then h.waiting d ++ [f] else h.waiting d := by
  rw [waiting, box?_updateBox]
  split
  · next hc =>
    subst hc
    rw [hm, waiting_of_box? hm]
    rfl
  · rfl

theorem later_receive (h : Hub) (c : ConnId) (most : Option Nat) :
    h.Later (h.receive c most).2 := by
  unfold receive
  cases hm : h.box? c with
  | none => exact .refl h
  | some m =>
    refine later_updateBox h c _ fun n hn => ?_
    obtain rfl := Option.some.inj (hm.symm.trans hn)
    exact m.later_take most

/-- Without a limit, all that waits is taken. -/
theorem receive_none (h : Hub) (c : ConnId) : (h.receive c none).1 = h.waiting c := by
  unfold receive waiting
  cases h.box? c with
  | none => rfl
  | some m => exact List.take_length

/-- What is taken out was in front; the other connections keep what they have. -/
theorem waiting_receive (h : Hub) (c d : ConnId) (most : Option Nat) :
    h.waiting d = (if c = d then (h.receive c most).1 else []) ++ (h.receive c most).2.waiting d := by
  unfold receive
  cases hm : h.box? c with
  | none => simp
  | some m =>
    simp only
    rw [waiting, waiting, box?_updateBox]
    split
    · next hc =>
      subst hc
      rw [hm]
      exact (m.take_append most).symm
    · rfl

/-- A frame is accepted if it is an envelope in the name of the peer that it came from. -/
theorem accept_eq_ok_iff (bound : PeerId) (f : Frame) (e : Envelope) :
    accept bound f = .ok e ↔ Envelope.ofFrame f = .ok e ∧ e.sender = bound := by
  unfold accept
  cases hf : Envelope.ofFrame f with
  | error v => simp
  | ok e' =>
    simp only
    cases hv : e'.verify bound with
    | ok u =>
      have hs := (e'.verify_eq_ok_iff bound).1 hv
      simp only [Except.ok.injEq]
      exact ⟨fun h => ⟨h, h ▸ hs⟩, fun h => h.1⟩
    | error v =>
      have hn : e'.sender ≠ bound := by
        intro hs
        rw [(e'.verify_eq_ok_iff bound).2 hs] at hv
        cases hv
      simp only [Except.ok.injEq, reduceCtorEq, false_iff]
      rintro ⟨rfl, hs⟩
      exact hn hs

/-- A frame that may be sent is routed as it is handed over, and received before that. -/
theorem route_of_accept {h : Hub} {bound : PeerId} {f : Frame} {e : Envelope}
    (ha : accept bound f = .ok e) :
    h.route bound f = (((h.tally .received).forward e.recipient f).1,
      .ok ((h.tally .received).forward e.recipient f).2) := by
  unfold route
  rw [ha]

theorem route_of_violation {h : Hub} {bound : PeerId} {f : Frame} {v : Violation}
    (ha : accept bound f = .error v) :
    h.route bound f = ((h.tally .received).tally .violation, .error v) := by
  unfold route
  rw [ha]

/-- What routing can come to: a sound envelope reaches the connection that is entered for its
recipient, or nothing but the counters has changed. -/
theorem route_cases (h : Hub) (bound : PeerId) (f : Frame) :
    (∃ e c m, accept bound f = .ok e ∧ h.lookup e.recipient = some c ∧ h.box? c = some m ∧
      m.refusal? = none ∧
      h.route bound f =
        (((h.tally .received).updateBox c fun _ =>
          { m with frames := m.frames ++ [f] }).tally .forwarded, .ok (.forwarded e.recipient))) ∨
    (∃ k r, h.route bound f = ({ h with counters := k }, r) ∧ ∀ dest, r ≠ .ok (.forwarded dest)) := by
  unfold route
  cases ha : accept bound f with
  | error v => exact .inr ⟨_, _, rfl, fun dest => by simp⟩
  | ok e =>
    simp only
    unfold forward
    rw [lookup_tally]
    cases hl : h.lookup e.recipient with
    | none => exact .inr ⟨_, _, rfl, fun dest => by simp⟩
    | some c =>
      simp only
      obtain ⟨m, hm, hr, hd⟩ | ⟨r, -, hd⟩ := (h.tally .received).deliver_cases c f
      · rw [hd]
        exact .inl ⟨e, c, m, rfl, hl, hm, hr, rfl⟩
      · rw [hd]
        cases r with
        | full => exact .inr ⟨_, _, rfl, fun dest => by simp⟩
        | closed => exact .inr ⟨_, _, rfl, fun dest => by simp⟩

theorem still_tally (h : Hub) (t : Tally) : h.Still (h.tally t) := still_of_boxes rfl rfl

theorem later_route (h : Hub) (bound : PeerId) (f : Frame) : h.Later (h.route bound f).1 := by
  obtain ⟨e, c, m, -, -, hm, hr, he⟩ | ⟨k, r, he, -⟩ := h.route_cases bound f <;> rw [he]
  · have ha := later_append (h.tally .received) c m f hm hr
    exact ((still_tally h .received).toLater.trans ha).trans (still_tally _ .forwarded).toLater
  · have hk : h.Still { h with counters := k } := still_of_boxes rfl rfl
    exact hk.toLater

theorem lookup_route (h : Hub) (bound p : PeerId) (f : Frame) :
    (h.route bound f).1.lookup p = h.lookup p := by
  obtain ⟨e, c, m, -, -, -, -, he⟩ | ⟨k, r, he, -⟩ := h.route_cases bound f <;> rw [he] <;> rfl

theorem lookup_deliver (h : Hub) (c : ConnId) (f : Frame) (p : PeerId) :
    (h.deliver c f).1.lookup p = h.lookup p := by
  obtain ⟨m, -, -, hd⟩ | ⟨r, -, hd⟩ := h.deliver_cases c f
  · rw [hd]
    rfl
  · rw [hd]

theorem lookup_receive (h : Hub) (c : ConnId) (most : Option Nat) (p : PeerId) :
    (h.receive c most).2.lookup p = h.lookup p := by
  unfold receive
  split <;> rfl

/-! ## Entries and their owners -/

theorem isOf_openBox (h : Hub) (p : PeerId) (n : Nat) : (h.openBox p n).IsOf h.fresh p :=
  ⟨.new p n, by rw [box?_openBox, if_pos rfl], rfl⟩

theorem Later.filed {h h' : Hub} (a : h.Later h') (hf : h.Filed)
    (ht : ∀ p c, h'.lookup p = some c → h.lookup p = some c) : h'.Filed :=
  fun p c hl => a.isOf (hf p c (ht p c hl))

theorem Entered.filed {h h' : Hub} {p : PeerId} {c : ConnId} (he : h.Entered p c h')
    (hf : h.Filed) (hc : h.IsOf c p) : h'.Filed := by
  intro q d hl
  rw [he.lookup] at hl
  split at hl
  · next hq =>
    rw [hq, ← Option.some.inj hl]
    exact he.still.toLater.isOf hc
  · exact he.still.toLater.isOf (hf q d hl)

theorem lookup_of_lookup_leave {h : Hub} {p q : PeerId} {c d : ConnId}
    (hl : (h.leave p c).lookup q = some d) : h.lookup q = some d := by
  rw [lookup_leave] at hl
  split at hl
  · cases hl
  · exact hl

theorem lookup_of_lookup_unregister {h : Hub} {p q : PeerId} {d : ConnId}
    (hl : (h.unregister p).lookup q = some d) : h.lookup q = some d := by
  rw [lookup_unregister] at hl
  split at hl
  · cases hl
  · exact hl

end Hub

end Switchboard
