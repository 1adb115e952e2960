import Switchboard.Proofs.Relay.Lockstep
import Switchboard.Proofs.Relay.Standing
import Switchboard.Proofs.Relay.Teardown

/-!
# A violation and a close frame

Two worlds that are the same, but that the client of one link has sent a violation in the one and a
close frame in the other (`Beside`).  Until the link hears it they do the same; when it does, its
service ends in both, and from then on its turns concern nobody else.

    Twin z w v → Twin z (w.undergo x).1 (v.undergo x).1
-/

namespace Switchboard.Relay

/-! ## Specification -/

/-- A frame that comes to a link, and the close frame that could have come in its place. -/
structure Offence where
  link : Nat
  conn : Option ConnId
  frame : Frame
  instead : Option CloseFrame

/-- The transport takes both frames, as it does if the one is to be found a violation and the other to
be heard as a close frame; or it takes neither, or the clock can still measure a silence.  A frame
that is taken when it cannot breaks the service off, one that is not taken ends it. -/
def World.TakesAlike (w : World) (f g : Frame) : Prop :=
  (Link.transportFault? w.hub.policy.maxMessageSize f).isSome =
      (Link.transportFault? w.hub.policy.maxMessageSize g).isSome ∨
    w.idleTooLong = false

/-- Is it reported that a connection has ended, another one than `c`? -/
def endsOther (c : Option ConnId) (e : Event) : Bool :=
  isRelease e && !c.any fun d => e.fields.contains (Hub.connectionField "connection_id" d)

/-- The close frame has come in place of the other one. -/
def Offence.Swapped (z : Offence) (xs ys : List Arrival) : Prop :=
  ∃ front back, xs = front ++ .frame z.frame :: back ∧ ys = front ++ .frame (.close z.instead) :: back

/-- Two links to the same client, which is in the same state but for what it was sent. -/
structure SameClient (l k : Link) : Prop where
  name : k.name = l.name
  address : k.address = l.address
  peer : k.peer = l.peer
  conn : k.conn = l.conn
  present : k.client.present = l.client.present
  reading : k.client.reading = l.client.reading

/-- The link of the offender in both worlds: the frame is still to be heard, or neither is served
any more. -/
inductive Estranged (z : Offence) : Option ConnId → Link → Link → Prop
  | pending {l : Link} {ys : List Arrival} {v : Violation} (hf : z.frame.isData = true)
      (hv : Hub.accept l.peer z.frame = .error v) (hs : z.Swapped l.inbound ys) :
      Estranged z none l (l.past ys)
  | parted {d : ConnId} {l k : Link} (hc : l.conn = some d) (hs : SameClient l k)
      (hl : l.isServed = false) (hk : k.isServed = false) : Estranged z (some d) l k

/-- Two worlds between which nothing but the link of the offender makes a difference. -/
structure Beside (z : Offence) (c : Option ConnId) (w v : World) : Prop where
  hub : Hub.Alike c w.hub v.hub
  now : v.now = w.now
  site : v.site = w.site
  reporters : v.reporters = w.reporters
  offender : ∃ l k, w.links[z.link]? = some l ∧ l.conn = z.conn ∧
    v.links = w.links.set z.link k ∧ Estranged z c l k

/-- Two worlds in one of which a violation has come in place of a close frame. -/
structure Twin (z : Offence) (w v : World) : Prop where
  beside : ∃ c, Beside z c w v
  standing : w.Standing

/-- What happens in both leaves twins behind, and the same connections of others have ended. -/
structure Parallel (z : Offence) (a b : Happening) : Prop where
  twin : Twin z a.1 b.1
  ends : b.2.filter (endsOther z.conn) = a.2.filter (endsOther z.conn)

variable {z : Offence} {c : Option ConnId} {w v : World} {l k l' k' : Link} {d : ConnId}
variable {h h' : Hub} {es : List Event}

/-! ## The link of the offender -/

theorem filter_endsOther (c : Option ConnId) (es : List Event) :
    es.filter (endsOther c) = (es.filter isRelease).filter (endsOther c) := by
  rw [List.filter_filter]
  refine List.filter_congr fun e _ => ?_
  rw [endsOther, Bool.and_right_comm, Bool.and_self]

theorem endsOther_nil (c : Option ConnId) (hr : es.filter isRelease = []) :
    es.filter (endsOther c) = [] := by rw [filter_endsOther, hr, List.filter_nil]

theorem endsOther_own {p : PeerId} {r : CloseReason}
    (hr : es.filter isRelease = [Hub.releaseEvent p d r]) : es.filter (endsOther (some d)) = [] := by
  have hown : endsOther (some d) (Hub.releaseEvent p d r) = false := by
    simp [endsOther, Hub.releaseEvent]
  rw [filter_endsOther, hr, List.filter_cons, if_neg (by simp [hown]), List.filter_nil]

theorem SameClient.refl (l : Link) : SameClient l l := ⟨rfl, rfl, rfl, rfl, rfl, rfl⟩

theorem SameClient.symm (a : SameClient l k) : SameClient k l :=
  ⟨a.name.symm, a.address.symm, a.peer.symm, a.conn.symm, a.present.symm, a.reading.symm⟩

theorem SameClient.trans (a : SameClient l k) (b : SameClient k k') : SameClient l k' :=
  ⟨b.name.trans a.name, b.address.trans a.address, b.peer.trans a.peer, b.conn.trans a.conn,
    b.present.trans a.present, b.reading.trans a.reading⟩

theorem Offence.Swapped.append {xs ys : List Arrival} (a : z.Swapped xs ys) (zs : List Arrival) :
    z.Swapped (xs ++ zs) (ys ++ zs) := by
  obtain ⟨front, back, rfl, rfl⟩ := a
  exact ⟨front, back ++ zs, by simp, by simp⟩

theorem Estranged.client (a : Estranged z c l k) : SameClient l k := by
  cases a with
  | pending => exact ⟨rfl, rfl, rfl, rfl, rfl, rfl⟩
  | parted _ hs => exact hs

theorem Estranged.served (a : Estranged z c l k) : k.isServed = l.isServed := by
  cases a with
  | pending => rfl
  | parted _ _ hl hk => rw [hl, hk]

/-- What changes the client, or what can be heard of it, leaves the links as estranged as they
were. -/
theorem Estranged.of_outside (a : Estranged z c l k) (hl : Outside l l') (hk : Outside k k')
    (hs : SameClient l' k') (hi : ∀ ys, k = l.past ys → ∃ zs, k' = l'.past (ys ++ zs) ∧
      l'.inbound = l.inbound ++ zs) : Estranged z c l' k' := by
  cases a with
  | @pending _ ys v hf hv hswap =>
    obtain ⟨zs, rfl, hin⟩ := hi ys rfl
    refine .pending hf (hl.peer ▸ hv) ?_
    rw [hin]
    exact hswap.append zs
  | parted hc _ hsl hsk =>
    refine .parted (hl.conn.trans hc) hs ?_ ?_
    · rwa [Link.isServed, hl.phase]
    · rwa [Link.isServed, hk.phase]

/-- A link that is not served any more works on nothing but its own mailbox. -/
theorem Turned.of_parted (a : Turned w l l' h' es) (hs : l.isServed = false)
    (hc : l.conn = some d) :
    SameClient l l' ∧ l'.isServed = false ∧
      (h' = w.hub ∨ h' = w.hub.updateBox d Mailbox.discard) ∧ es.filter isRelease = [] := by
  have served : ∀ {P : Prop} {writer}, l.phase = .serving writer → P := fun hp => by
    rw [Link.isServed_of_serving hp] at hs
    cases hs
  cases a with
  | ended hp | crashed hp | woke hp | answered hp | routed hp => exact served hp
  | ready hp | jammed hp | handed hp | failed hp => exact served hp
  | paid => exact ⟨⟨rfl, rfl, rfl, rfl, rfl, rfl⟩, rfl, .inl rfl, rfl⟩
  | @parted r owed giveUp before hp hb =>
    refine ⟨⟨rfl, rfl, rfl, rfl, rfl, rfl⟩, rfl, .inr (by rw [hc]), ?_⟩
    rw [filter_release hb.quiet]
    exact (quiet_finalEvent l r).filter.2
  | drained | noticed => exact ⟨⟨rfl, rfl, rfl, rfl, rfl, rfl⟩, hs, .inl rfl, rfl⟩

/-! ## Turns of the others -/

theorem rel_weaken {α : Type} {R S : α → α → Prop} {x y : Option α} (hr : Option.Rel R x y)
    (hs : ∀ a b, x = some a → y = some b → R a b → S a b) : Option.Rel S x y := by
  cases hr with
  | some h => exact .some (hs _ _ rfl rfl h)
  | none => exact .none

theorem undergo_of_turn {j : Nat} {t : Turn} {r : Happening} (ht : w.turn j t = some r) :
    w.undergo (.turn j t) = r := by rw [World.undergo, ht, Option.getD_some]

theorem undergo_of_no_turn {j : Nat} {t : Turn} (ht : w.turn j t = none) :
    w.undergo (.turn j t) = (w, []) := by rw [World.undergo, ht, Option.getD_none]

theorem World.Standing.turn (hw : w.Standing) {j : Nat} {t : Turn} {r : Happening}
    (ht : w.turn j t = some r) : r.1.Standing := undergo_of_turn ht ▸ hw.undergo (.turn j t)

/-- A connection that is not served is in nobody's place. -/
theorem World.Standing.unlisted (hw : w.Standing) {o : Nat} (hl : w.links[o]? = some l)
    (hc : l.conn = some d) (hs : l.isServed = false) (p : PeerId) :
    w.hub.lookup p ≠ some d := by
  intro hp
  obtain ⟨i, m, writer, hm, hcm, -, hpm⟩ := hw.listed p d hp
  obtain rfl := hw.own i o m l d hm hl hcm hc
  obtain rfl := Option.some.inj (hm.symm.trans hl)
  rw [Link.isServed_of_serving hpm] at hs
  cases hs

theorem Beside.abreast (a : Beside z c w v) : Abreast c w v := ⟨a.hub, a.now⟩

theorem Beside.others (a : Beside z c w v) {j : Nat} (hj : j ≠ z.link) :
    v.links[j]? = w.links[j]? := by
  obtain ⟨l, k, -, -, hv, -⟩ := a.offender
  rw [hv, List.getElem?_set_ne (Ne.symm hj)]

/-- The connection that makes a difference is the offender's. -/
theorem Beside.foreign (a : Beside z c w v) (hw : w.Standing) {j : Nat} (hj : j ≠ z.link)
    (hl : w.links[j]? = some l) (hc : l.conn = some d) : c ≠ some d := by
  rintro rfl
  obtain ⟨m, k, hm, -, -, hs⟩ := a.offender
  cases hs with
  | parted hcm => exact hj (hw.own j z.link l m d hl hm hc hcm)

theorem Beside.turn_other (a : Beside z c w v) (hw : w.Standing) {j : Nat} (hj : j ≠ z.link)
    (t : Turn) : Option.Rel (Parallel z) (w.turn j t) (v.turn j t) := by
  have hv := a.others hj
  cases hl : w.links[j]? with
  | none =>
    rw [hl] at hv
    simp only [World.turn, hl, hv]
    exact .none
  | some l =>
    rw [hl] at hv
    have heard : HeardAlike Eq l.inbound l.inbound := by
      cases l.inbound with
      | nil => exact .inl ⟨rfl, rfl⟩
      | cons x rest => exact .inr ⟨x, rest, rest, rfl, rfl, rfl⟩
    have same : v.links[j]? = some (l.past l.inbound) := hv
    refine rel_weaken (a.abreast.turn (I := Eq) hl same rfl
      (fun d hc => a.foreign hw hj hl hc) (fun _ => rfl) fun _ => heard) fun r s hr hs hm => ?_
    refine ⟨⟨⟨c, ?_⟩, hw.turn hr⟩, ?_⟩
    · cases hm with
      | @intro l' ys h k es hh hi =>
        subst hi
        obtain ⟨m, k₀, hm, hc, hlinks, hstranged⟩ := a.offender
        refine ⟨hh, a.now, a.site, a.reporters, m, k₀, ?_, hc, ?_, hstranged⟩
        · exact (World.links_put_ne l' h hj).trans hm
        · show v.links.set j l' = (w.links.set j l').set z.link k₀
          rw [hlinks, List.set_comm _ _ (Ne.symm hj)]
    · cases hm
      rfl

/-! ## Turns of the offender -/

/-- Of what has come to a link, this is the last that it hears. -/
def Final (bound : PeerId) (f : Frame) : Prop :=
  (∃ cf, f = .close cf) ∨ f.isData = true ∧ ∃ v, Hub.accept bound f = .error v

/-- The service of a served link that has such a frame before it ends with its next reading turn,
unless it breaks off. -/
theorem read_ends {i : Nat} {writer : Writer} {f : Frame} {rest : List Arrival}
    (hp : l.phase = .serving writer) (hc : l.conn = some d)
    (hi : l.inbound = .frame f :: rest) (hf : Final l.peer f)
    (hn : ¬ (Gets w l d f rest ∧ w.idleTooLong = true)) :
    ∃ r owed l₀ h₀ before, Ending w l d r owed l₀ h₀ before ∧
      w.read i l = some (w.put i { l₀ with phase := .closing r owed (w.now + closeTimeout) }
        ((h₀.release l.peer d).requestClose d),
        before ++ [Stage.established.moveEvent l.peer .closing, Hub.releaseEvent l.peer d r]) := by
  rw [read_serving hp hc, hi]
  by_cases hs : w.hub.isClosing d = true
  · rw [if_pos hs]
    exact ⟨_, _, _, _, _, .told hs rfl, congrArg some (World.finish_eq _ _ hp hc rfl)⟩
  rw [if_neg hs]
  rw [Bool.not_eq_true] at hs
  by_cases hlate : l.deadline ≤ w.now
  · rw [if_pos hlate, World.finish_eq _ _ hp hc rfl]
    exact ⟨_, _, _, _, _, .silent hs hlate, rfl⟩
  rw [if_neg hlate]
  have hh : Hears w l d (.frame f) rest := ⟨hs, Nat.not_le.1 hlate, hi⟩
  dsimp only
  cases ht : Link.transportFault? w.hub.policy.maxMessageSize f with
  | some detail =>
    dsimp only
    rw [World.fail_eq (l := l) (k := l.past rest) _ _ hp hc rfl]
    exact ⟨_, _, _, _, _, .misfit hh ht, rfl⟩
  | none =>
    have htimed : w.idleTooLong = false := by
      rw [← Bool.not_eq_true]
      exact fun hlong => hn ⟨⟨hh, ht⟩, hlong⟩
    dsimp only
    rw [htimed, if_neg Bool.false_ne_true]
    obtain ⟨cf, rfl⟩ | ⟨hdata, v, hv⟩ := hf
    · exact ⟨_, _, _, _, _, .left ⟨⟨hh, ht⟩, htimed⟩, congrArg some
        (World.finish_eq (l := l) (k := w.awake l rest) _ _ hp hc rfl)⟩
    · have hanswer := ((Hub.Alike.refl w.hub).offence hv).1
      rcases hr : w.hub.route l.peer f with ⟨h, answer⟩
      rw [hr] at hanswer
      obtain rfl : answer = .error v := hanswer
      have hend := World.finish_eq (w := { w with hub := h }) (i := i) (l := l)
        (k := w.awake l rest) (.violation v) (World.owedFor (.violation v)) hp hc rfl
      refine ⟨_, _, _, _, _, .violated ⟨⟨hh, ht⟩, htimed⟩ hdata hr, congrArg some ?_⟩
      cases f with
      | text | binary =>
        have hpeer : (w.awake l rest).peer = l.peer := rfl
        simp only [World.take, hpeer, hr, hend]
        rfl
      | ping | pong | close => cases hdata

/-- Nothing but two counters tells that the service of a link has ended for a violation. -/
theorem Ending.alike {r : CloseReason} {owed : Option Frame} (a : Ending w l d r owed l' h' es) :
    Hub.Alike none w.hub h' := by
  cases a with
  | @violated f rest v h hh hf hr =>
    have hv : Hub.accept l.peer f = .error v := by
      unfold Hub.route at hr
      split at hr
      · next v' hv =>
        obtain rfl := Except.error.inj (Prod.mk.inj hr).2
        exact hv
      · cases (Prod.mk.inj hr).2
    have hafter := ((Hub.Alike.refl w.hub).offence hv).2
    rw [hr] at hafter
    exact hafter.symm
  | told | silent | finished | fault | misfit | vanished | left | mute => exact .refl w.hub

theorem Ending.client {r : CloseReason} {owed : Option Frame} (a : Ending w l d r owed l' h' es)
    (ph : Phase) : SameClient l { l' with phase := ph } := by
  obtain ⟨rest, deadline, rfl, -⟩ := a.link
  exact ⟨rfl, rfl, rfl, rfl, rfl, rfl⟩

theorem read_crashes {i : Nat} {writer : Writer} {f : Frame} {rest : List Arrival}
    (hp : l.phase = .serving writer) (hc : l.conn = some d) (hh : Gets w l d f rest)
    (hi : w.idleTooLong = true) :
    w.read i l = some (w.put i { l.past rest with
        phase := .lost .established
        wire := l.leftover (w.hub.receive d none).1 }
      ((w.hub.leave l.peer d).updateBox d Mailbox.discard),
      if l.failsOn (w.hub.receive d none).1 then [l.writeEvent] else []) := by
  rw [read_serving hp hc, if_neg (by rw [hh.calm]; exact Bool.false_ne_true),
    if_neg (Nat.not_le.2 hh.early), hh.next]
  simp only [hh.sound, hi, if_true, World.crash_eq hp]

/-- Both links of the offender have left their service, and their connection is in nobody's place
from then on. -/
theorem Beside.part (a : Beside z none w v) (hl : w.links[z.link]? = some l)
    (hk : v.links = w.links.set z.link k) {m n : Link} (hz : m.conn = z.conn) (hc : m.conn = some d)
    (hw : (w.put z.link m h).Standing) (hs : SameClient m n) (hm : m.isServed = false)
    (hn : n.isServed = false) (hh : Hub.Alike none h h') {es' : List Event}
    (hes : es.filter (endsOther z.conn) = []) (hes' : es'.filter (endsOther z.conn) = []) :
    Parallel z (w.put z.link m h, es) (v.put z.link n h', es') := by
  have hself : (w.put z.link m h).links[z.link]? = some m := World.links_put_self hl h
  refine ⟨⟨⟨some d, ?_⟩, hw⟩, hes'.trans hes.symm⟩
  refine ⟨hh.part (hw.known z.link _ d hself hc).lt (hw.unlisted hself hc hm), a.now, a.site,
    a.reporters, _, _, hself, hz, ?_, .parted hc hs hm hn⟩
  show v.links.set z.link _ = (w.links.set z.link _).set z.link _
  rw [hk, List.set_set, List.set_set]

/-- Once no clock can measure a silence, the transport takes both frames or neither. -/
theorem World.TakesAlike.sound_iff {f g : Frame} (a : w.TakesAlike f g) (hi : w.idleTooLong = true) :
    Link.transportFault? w.hub.policy.maxMessageSize f = none ↔
      Link.transportFault? w.hub.policy.maxMessageSize g = none := by
  obtain hsame | htimed := a
  · rw [← Option.not_isSome_iff_eq_none, ← Option.not_isSome_iff_eq_none, hsame]
  · cases htimed.symm.trans hi

/-- The frame makes the service break off in both worlds, or in neither. -/
theorem Beside.crashes_iff (a : Beside z none w v) {f g : Frame} {rest : List Arrival}
    (hi : l.inbound = .frame f :: rest) (halike : w.TakesAlike f g) :
    (Gets w l d f rest ∧ w.idleTooLong = true) ↔
      (Gets v (l.past (.frame g :: rest)) d g rest ∧ v.idleTooLong = true) := by
  have hclosing := a.hub.isClosing (Option.some_ne_none d).symm
  have hlong := a.abreast.idleTooLong
  constructor
  · rintro ⟨hh, hlate⟩
    have hsound := (halike.sound_iff hlate).1 hh.sound
    exact ⟨⟨⟨hclosing.trans hh.calm, a.now ▸ hh.early, rfl⟩, a.hub.policy ▸ hsound⟩,
      hlong.trans hlate⟩
  · rintro ⟨hh, hlate⟩
    rw [hlong] at hlate
    have hsound := hh.sound
    rw [a.hub.policy, ← halike.sound_iff hlate] at hsound
    exact ⟨⟨⟨hclosing.symm.trans hh.calm, a.now ▸ hh.early, hi⟩, hsound⟩, hlate⟩

section Heard

variable {writer : Writer} {f g : Frame} {rest : List Arrival}

/-- The frame makes both services break off. -/
theorem Beside.both_crash (a : Beside z none w v) (hw : w.Standing)
    (hl : w.links[z.link]? = some l)
    (hk : v.links = w.links.set z.link (l.past (.frame g :: rest))) (hz : l.conn = z.conn)
    (hc : l.conn = some d) (hp : l.phase = .serving writer)
    (hh : Gets w l d f rest ∧ w.idleTooLong = true)
    (hh' : Gets v (l.past (.frame g :: rest)) d g rest ∧ v.idleTooLong = true) :
    ∃ r s, w.read z.link l = some r ∧ v.read z.link (l.past (.frame g :: rest)) = some s ∧
      Parallel z r s := by
  have hread := read_crashes (i := z.link) hp hc hh.1 hh.2
  have hread' := read_crashes (w := v) (i := z.link) (l := l.past (.frame g :: rest)) hp hc hh'.1
    hh'.2
  have quiet : ∀ {b : Bool} {m : Link},
      (if b then [m.writeEvent] else []).filter (endsOther z.conn) = [] := by
    intro b m
    cases b <;> rfl
  have hturn : w.turn z.link .read = w.read z.link l := by simp only [World.turn, hl]
  have hwaiting : (v.hub.receive d none).1 = (w.hub.receive d none).1 :=
    (a.hub.receive (Option.some_ne_none d).symm none).1
  have hhubs := (a.hub.leave l.peer d).updateBox d Mailbox.discard
  refine ⟨_, _, hread, hread', ?_⟩
  rw [hwaiting]
  exact a.part hl hk (m := { l.past rest with
      phase := .lost .established
      wire := l.leftover (w.hub.receive d none).1 }) hz hc (hw.turn (hturn.trans hread)) (.refl _) rfl
    rfl hhubs (quiet (m := l)) (quiet (m := l))

/-- The frame makes both services end. -/
theorem Beside.both_end (a : Beside z none w v) (hw : w.Standing) (hl : w.links[z.link]? = some l)
    (hk : v.links = w.links.set z.link (l.past (.frame g :: rest))) (hz : l.conn = z.conn)
    (hc : l.conn = some d) (hp : l.phase = .serving writer) (hi : l.inbound = .frame f :: rest)
    (hf : Final l.peer f) (hg : Final l.peer g)
    (hh : ¬ (Gets w l d f rest ∧ w.idleTooLong = true))
    (hh' : ¬ (Gets v (l.past (.frame g :: rest)) d g rest ∧ v.idleTooLong = true)) :
    ∃ r s, w.read z.link l = some r ∧ v.read z.link (l.past (.frame g :: rest)) = some s ∧
      Parallel z r s := by
  obtain ⟨r, owed, l₀, h₀, before, he, hread⟩ := read_ends (w := w) (i := z.link) hp hc hi hf hh
  obtain ⟨r', owed', k₀, k₁, before', he', hread'⟩ :=
    read_ends (w := v) (i := z.link) (l := l.past (.frame g :: rest)) hp hc rfl hg hh'
  have hturn : w.turn z.link .read = w.read z.link l := by simp only [World.turn, hl]
  have hpast : SameClient l (l.past (.frame g :: rest)) := ⟨rfl, rfl, rfl, rfl, rfl, rfl⟩
  have hclient := (he.client (.closing r owed (w.now + closeTimeout))).symm.trans
    (hpast.trans (he'.client (.closing r' owed' (v.now + closeTimeout))))
  have hconn := (he.client (.closing r owed (w.now + closeTimeout))).conn.trans hc
  have hhubs := (((he.alike.symm.trans a.hub).trans he'.alike).release l.peer d).requestClose d
  have hzd : z.conn = some d := hz.symm.trans hc
  refine ⟨_, _, hread, hread', ?_⟩
  refine a.part hl hk (hconn.trans hzd.symm) hconn (hw.turn (hturn.trans hread)) hclient rfl rfl
    hhubs ?_ ?_
  · rw [hzd, endsOther_own (filter_release he.quiet _ _ _ _)]
  · rw [hzd, endsOther_own (filter_release he'.quiet _ _ _ _)]

/-- The frame is heard: both links end, or both break off. -/
theorem Beside.parts (a : Beside z none w v) (hw : w.Standing) (hl : w.links[z.link]? = some l)
    (hk : v.links = w.links.set z.link (l.past (.frame g :: rest))) (hz : l.conn = z.conn)
    (hp : l.phase = .serving writer) (hi : l.inbound = .frame f :: rest) (hf : Final l.peer f)
    (hg : Final l.peer g) (halike : w.TakesAlike f g) :
    Option.Rel (Parallel z) (w.turn z.link .read) (v.turn z.link .read) := by
  obtain ⟨d, hc⟩ := hw.taken z.link l writer hl hp
  have hvk : v.links[z.link]? = some (l.past (.frame g :: rest)) := by
    rw [hk, List.getElem?_set_self (List.getElem?_eq_some_iff.1 hl).1]
  have hboth : ∃ r s, w.read z.link l = some r ∧
      v.read z.link (l.past (.frame g :: rest)) = some s ∧ Parallel z r s := by
    by_cases hx : Gets w l d f rest ∧ w.idleTooLong = true
    · exact a.both_crash hw hl hk hz hc hp hx ((a.crashes_iff hi halike).1 hx)
    · exact a.both_end hw hl hk hz hc hp hi hf hg hx fun hx' => hx ((a.crashes_iff hi halike).2 hx')
  obtain ⟨r, s, hr, hs, hparallel⟩ := hboth
  simp only [World.turn, hl, hvk, hr, hs]
  exact .some hparallel

end Heard

/-- As long as the offending frame is not heard, the offender's link does the same in both worlds;
when it is, both links leave their service. -/
theorem Beside.turn_pending (a : Beside z none w v) (hw : w.Standing)
    (halike : w.TakesAlike z.frame (.close z.instead)) (t : Turn) :
    Option.Rel (Parallel z) (w.turn z.link t) (v.turn z.link t) := by
  obtain ⟨l, k, hl, hz, hk, hs⟩ := a.offender
  cases hs with
  | @pending _ ys x hf hv hswap =>
    have hvk : v.links[z.link]? = some (l.past ys) := by
      rw [hk, List.getElem?_set_self (List.getElem?_eq_some_iff.1 hl).1]
    have same : (t = .read → HeardAlike z.Swapped l.inbound ys) →
        Option.Rel (Parallel z) (w.turn z.link t) (v.turn z.link t) := by
      intro hh
      refine rel_weaken (a.abreast.turn hl hvk hswap (fun _ _ => nofun) hswap.append hh)
        fun r s hr _ hm => ?_
      cases hm with
      | @intro l' ys' h k' es halike hi =>
        obtain ⟨m, m', h', hm, hput, hT⟩ := World.turn_cases hr
        obtain rfl := Option.some.inj (hl.symm.trans hm)
        have hself : (w.put z.link l' h).links[z.link]? = some l' := World.links_put_self hl h
        rw [hput, World.links_put_self hl] at hself
        obtain rfl := Option.some.inj hself
        refine ⟨⟨⟨none, halike, a.now, a.site, a.reporters, m', _, World.links_put_self hl h,
          hT.conn.trans hz, ?_, .pending hf (hT.peer ▸ hv) hi⟩, hw.turn hr⟩, rfl⟩
        show v.links.set z.link _ = (w.links.set z.link _).set z.link _
        rw [hk, List.set_set, List.set_set]
    by_cases ht : t = .read
    · subst ht
      obtain ⟨front, back, hi, rfl⟩ := hswap
      cases front with
      | nil =>
        cases hp : l.phase with
        | serving writer =>
          exact a.parts hw hl hk hz hp hi (.inr ⟨hf, x, hv⟩) (.inl ⟨z.instead, rfl⟩) halike
        | closing | gone | lost =>
          have hpk : (l.past ([] ++ .frame (.close z.instead) :: back)).phase = l.phase := rfl
          simp only [World.turn, hl, hvk, World.read, hpk, hp]
          exact .none
      | cons y front => exact same fun _ => .inr ⟨y, _, _, hi, rfl, front, back, rfl, rfl⟩
    · exact same fun h => absurd h ht

/-- Once both links have left their service, neither world is the one of the violation. -/
theorem Beside.symm (a : Beside z (some d) w v) : Beside z (some d) v w := by
  obtain ⟨l, k, hl, hz, hk, hs⟩ := a.offender
  cases hs with
  | parted hc hs hsl hsk =>
    obtain ⟨hlt, hget⟩ := List.getElem?_eq_some_iff.1 hl
    refine ⟨a.hub.symm, a.now.symm, a.site.symm, a.reporters.symm, k, l, ?_, hs.conn.trans hz, ?_,
      .parted (hs.conn.trans hc) hs.symm hsk hsl⟩
    · rw [hk, List.getElem?_set_self hlt]
    · rw [hk, List.set_set, ← hget, List.set_getElem_self]

/-- Once it has ended, a turn of the offender's link in either world changes nothing else. -/
theorem Beside.turn_left (a : Beside z (some d) w v) {t : Turn} {r : Happening}
    (ht : w.turn z.link t = some r) :
    Beside z (some d) r.1 v ∧ r.2.filter (endsOther z.conn) = [] := by
  obtain ⟨l, k, hl, hz, hk, hs⟩ := a.offender
  cases hs with
  | parted hc hs hsl hsk =>
    obtain ⟨w', es⟩ := r
    obtain ⟨m, l', h', hm, rfl, hT⟩ := World.turn_cases ht
    obtain rfl := Option.some.inj (hl.symm.trans hm)
    obtain ⟨hclient, hstage, hhub, hreleases⟩ := hT.of_parted hsl hc
    refine ⟨⟨?_, a.now, a.site, a.reporters, l', k, World.links_put_self hl h', hT.conn.trans hz,
      ?_, .parted (hT.conn.trans hc) (hclient.symm.trans hs) hstage hsk⟩,
      endsOther_nil z.conn hreleases⟩
    · obtain rfl | rfl := hhub
      · exact a.hub
      · exact a.hub.left Mailbox.discard
    · show v.links = (w.links.set z.link l').set z.link k
      rw [hk, List.set_set]

theorem Beside.turn_right (a : Beside z (some d) w v) {t : Turn} {r : Happening}
    (ht : v.turn z.link t = some r) :
    Beside z (some d) w r.1 ∧ r.2.filter (endsOther z.conn) = [] := by
  obtain ⟨hafter, hends⟩ := a.symm.turn_left ht
  exact ⟨hafter.symm, hends⟩

/-- **A turn in both worlds**: it is there in both, and does the same for everybody else, or it is
one of the offender's link that has ended. -/
theorem Twin.turn (a : Twin z w v) (halike : w.TakesAlike z.frame (.close z.instead)) (j : Nat)
    (t : Turn) :
    Option.Rel (Parallel z) (w.turn j t) (v.turn j t) ∨
      j = z.link ∧ ∃ d, Beside z (some d) w v := by
  obtain ⟨c, hb⟩ := a.beside
  by_cases hj : j = z.link
  · subst hj
    cases c with
    | none => exact .inl (hb.turn_pending a.standing halike t)
    | some d => exact .inr ⟨rfl, d, hb⟩
  · exact .inl (hb.turn_other a.standing hj t)

/-! ## Actions -/

theorem Beside.update (a : Beside z c w v) (name : String) {F : Link → Link}
    (ho : ∀ l, Outside l (F l)) (hs : ∀ l k, SameClient l k → SameClient (F l) (F k))
    (hi : ∀ l ys, ∃ zs, F (l.past ys) = (F l).past (ys ++ zs) ∧
      (F l).inbound = l.inbound ++ zs) :
    Beside z c (w.update name F) (v.update name F) := by
  obtain ⟨l, k, hl, hz, hk, hestranged⟩ := a.offender
  have hclient := hestranged.client
  refine ⟨a.hub, a.now, a.site, a.reporters, if l.name = name then F l else l,
    if k.name = name then F k else k, ?_, ?_, ?_, ?_⟩
  · rw [World.update, List.getElem?_map, hl]
    rfl
  · split
    · exact (ho l).conn.trans hz
    · exact hz
  · rw [World.update, World.update, hk, List.map_set]
  · rw [hclient.name]
    split
    · refine hestranged.of_outside (ho l) (ho k) (hs l k hclient) ?_
      rintro ys rfl
      exact hi l ys
    · exact hestranged

/-- Links of which one is exchanged for one that is found where it was. -/
theorem find?_set {p : Link → Bool} {R : Link → Link → Prop} {ls : List Link} {o : Nat}
    (hl : ls[o]? = some l) (hp : p k = p l) (hself : ∀ x, R x x) (hr : R l k) :
    Option.Rel R (ls.find? p) ((ls.set o k).find? p) := by
  have same : ∀ x : Option Link, Option.Rel R x x := fun x => by
    cases x with
    | none => exact .none
    | some x => exact .some (hself x)
  induction ls generalizing o with
  | nil => cases hl
  | cons x ls ih =>
    cases o with
    | zero =>
      obtain rfl := Option.some.inj hl
      rw [List.set_cons_zero, List.find?_cons, List.find?_cons, hp]
      cases p x with
      | true => exact .some hr
      | false => exact same _
    | succ o =>
      rw [List.set_cons_succ, List.find?_cons, List.find?_cons]
      cases p x with
      | true => exact .some (hself x)
      | false => exact ih hl

/-- What is done to the client of a name, as far as it goes by no more than whether the client is
there and is served. -/
theorem Beside.onClient (a : Beside z c w v) (name : String) {F G : Link → Result}
    (h : ∀ l k, k.client.present = l.client.present →
      k.isServed = l.isServed →
      Beside z c (F l).world (G k).world ∧ (G k).events = (F l).events) :
    Beside z c (w.onClient name F).world (v.onClient name G).world ∧
      (v.onClient name G).events = (w.onClient name F).events := by
  obtain ⟨l, k, hl, -, hk, hestranged⟩ := a.offender
  have hfound := find?_set (p := fun l => l.name == name)
    (R := fun l k => k.client.present = l.client.present ∧ k.isServed = l.isServed) hl
    (by rw [hestranged.client.name]) (fun _ => ⟨rfl, rfl⟩)
    ⟨hestranged.client.present, hestranged.served⟩
  rw [← hk] at hfound
  unfold World.onClient
  generalize w.links.find? (fun l => l.name == name) = x at hfound ⊢
  generalize v.links.find? (fun l => l.name == name) = y at hfound ⊢
  cases hfound with
  | some hr => exact h _ _ hr.1 hr.2
  | none => exact ⟨a, rfl⟩

theorem Beside.with (a : Beside z c w v) (hh : Hub.Alike c h h') :
    Beside z c { w with hub := h } { v with hub := h' } :=
  ⟨hh, a.now, a.site, a.reporters, a.offender⟩

/-- Both worlds get the same link. -/
theorem Beside.append (a : Beside z c w v) (hh : Hub.Alike c h h') (m : Link) :
    Beside z c { w with hub := h, links := w.links ++ [m] }
      { v with hub := h', links := v.links ++ [m] } := by
  obtain ⟨l, k, hl, hz, hk, hs⟩ := a.offender
  have hlt := (List.getElem?_eq_some_iff.1 hl).1
  refine ⟨hh, a.now, a.site, a.reporters, l, k, ?_, hz, ?_, hs⟩
  · rw [List.getElem?_append_left hlt, hl]
  · rw [hk, List.set_append_left _ _ hlt]

theorem Beside.forget (a : Beside z c w v) (name : String) :
    Beside z c (w.forget name) (v.forget name) := by
  refine a.update name (fun l => outside_client l { l.client with present := false } "" rfl rfl)
    (fun l k hs => ⟨rfl, hs.address, hs.peer, hs.conn, rfl, hs.reading⟩) fun l ys => ⟨[], ?_, ?_⟩
  · rw [List.append_nil]
    rfl
  · exact (List.append_nil _).symm

theorem Beside.welcome (a : Beside z c w v) (b : Dial) (p : PeerId) :
    Beside z c (w.welcome b p).1 (v.welcome b p).1 ∧ (v.welcome b p).2 = (w.welcome b p).2 := by
  have hforget := a.forget b.name
  obtain ⟨hanswer, hafter⟩ :=
    hforget.hub.register p (w.forget b.name).hub.policy.queueCapacity
  -- the link that begins is the same in both worlds
  have hrefused : ∀ t, World.linkOf b p none (.closing (.rejected t) (World.owedFor (.rejected t))
      ((v.forget b.name).now + closeTimeout)) = World.linkOf b p none (.closing (.rejected t)
        (World.owedFor (.rejected t)) ((w.forget b.name).now + closeTimeout)) := fun t => by
    rw [hforget.now]
  have htimes : (v.forget b.name).now + (v.forget b.name).idleLimit =
      (w.forget b.name).now + (w.forget b.name).idleLimit ∧
      (v.forget b.name).now + (v.forget b.name).pingPeriod =
        (w.forget b.name).now + (w.forget b.name).pingPeriod := by
    rw [hforget.now, hforget.abreast.idleLimit, hforget.abreast.pingPeriod]
    exact ⟨rfl, rfl⟩
  have hqueue : (v.forget b.name).queueTooLong = (w.forget b.name).queueTooLong := by
    rw [World.queueTooLong, hforget.hub.policy, World.queueTooLong]
  unfold World.welcome
  dsimp only
  rw [hqueue]
  cases (w.forget b.name).queueTooLong with
  | true => exact ⟨hforget.append hforget.hub _, rfl⟩
  | false =>
  rw [if_neg Bool.false_ne_true, if_neg Bool.false_ne_true, hforget.hub.policy]
  rcases hrw : (w.forget b.name).hub.register p (w.forget b.name).hub.policy.queueCapacity
    with ⟨h₁, r⟩
  rcases hrv : (v.forget b.name).hub.register p (w.forget b.name).hub.policy.queueCapacity
    with ⟨h₂, r'⟩
  rw [hrw, hrv] at hanswer hafter
  obtain rfl : r' = r := hanswer
  cases r' with
  | error t =>
    dsimp only
    rw [hrefused]
    exact ⟨hforget.append hafter _, rfl⟩
  | ok done =>
    dsimp only
    rw [htimes.1, htimes.2, hforget.abreast.idleTooLong]
    cases (w.forget b.name).idleTooLong with
    | true =>
      exact ⟨hforget.append ((hafter.leave p done.conn).updateBox done.conn Mailbox.discard) _, rfl⟩
    | false => exact ⟨hforget.append hafter _, rfl⟩

/-- What is reported of a request does not depend on the hub. -/
theorem answer_events (h k : Hub) (site : Http.Site) (r : Http.Request) :
    (Http.answer k site r).2 = (Http.answer h site r).2 := by
  unfold Http.answer
  split <;> rfl

theorem Beside.connect (a : Beside z c w v) (b : Dial) :
    Beside z c (w.connect b).world (v.connect b).world ∧
      (v.connect b).events = (w.connect b).events := by
  unfold World.connect
  cases Http.pathOf ("ws://relay" ++ b.path) with
  | none => exact ⟨a, rfl⟩
  | some path =>
    have refused : ∀ r : Http.Request,
        (Http.answer v.hub v.site r).2 = (Http.answer w.hub w.site r).2 := fun r => by
      rw [a.site, answer_events w.hub v.hub]
    cases hr : Http.Route.ofPath path with
    | socket segment =>
      dsimp only
      rw [hr]
      dsimp only
      cases Http.peerOf segment with
      | error e => exact ⟨a, rfl⟩
      | ok p =>
        obtain ⟨hafter, hevents⟩ := a.welcome b p
        cases hb : b.broken with
        | true => exact ⟨a, rfl⟩
        | false => exact ⟨hafter, congrArg (_ :: ·) hevents⟩
    | health | metrics | other =>
      dsimp only
      rw [hr]
      exact ⟨a, refused _⟩

theorem Beside.reports (a : Beside z c w v) :
    Beside z c w.reports.1 v.reports.1 ∧ v.reports.2 = w.reports.2 := by
  have hreport : v.report = w.report := by
    funext r
    rw [World.report, a.now, a.hub.stopping, World.reportPeriod, a.hub.policy, a.hub.statusEvent,
      World.report, World.reportPeriod]
  unfold World.reports
  rw [hreport, a.reporters]
  exact ⟨⟨a.hub, a.now, a.site, rfl, a.offender⟩, rfl⟩

theorem Beside.act (a : Beside z c w v) (x : Action) :
    Beside z c (w.act x).world (v.act x).world ∧ (v.act x).events = (w.act x).events := by
  -- of clients that are there, and of links that are served, there are as many in both worlds
  have client : ∀ (name : String) {F : Link → Link}, (∀ l, Outside l (F l)) →
      (∀ l k, SameClient l k → SameClient (F l) (F k)) →
      (∀ l ys, F (l.past ys) = (F l).past ys ∧ (F l).inbound = l.inbound) →
      Beside z c (w.update name F) (v.update name F) := by
    intro name F ho hs hi
    refine a.update name ho hs fun l ys => ⟨[], ?_, ?_⟩
    · rw [List.append_nil]
      exact (hi l ys).1
    · rw [List.append_nil]
      exact (hi l ys).2
  have reading : ∀ (name : String) (b : Bool),
      Beside z c (w.setReading name b).world (v.setReading name b).world ∧
        (v.setReading name b).events = (w.setReading name b).events := by
    intro name b
    refine a.onClient name fun l k hp _ => ⟨?_, rfl⟩
    dsimp only
    rw [hp]
    split
    · exact client name (fun l => outside_client l { l.client with reading := b } l.name rfl rfl)
        (fun l k hs => ⟨hs.name, hs.address, hs.peer, hs.conn, hs.present, rfl⟩)
        fun l ys => ⟨rfl, rfl⟩
    · exact a
  cases x with
  | connect b => exact a.connect b
  | send name f =>
    simp only [World.act, World.send]
    refine a.onClient name fun l k hp hs => ⟨?_, rfl⟩
    dsimp only
    rw [hp, hs]
    split
    · exact a.update name (fun l => outside_hear l (.frame f))
        (fun l k hs => ⟨hs.name, hs.address, hs.peer, hs.conn, hs.present, hs.reading⟩)
        fun l ys => ⟨[.frame f], rfl, rfl⟩
    · exact a
  | silence name => exact reading name false
  | resume name => exact reading name true
  | drop name =>
    refine a.onClient name fun l k _ _ => ⟨?_, rfl⟩
    exact client name
      (fun l => outside_client l { l.client with present := false } l.name rfl rfl)
      (fun l k hs => ⟨hs.name, hs.address, hs.peer, hs.conn, rfl, hs.reading⟩)
      fun l ys => ⟨rfl, rfl⟩
  | breakWrites name =>
    refine a.onClient name fun l k _ _ => ⟨?_, rfl⟩
    exact client name outside_broken
      (fun l k hs => ⟨hs.name, hs.address, hs.peer, hs.conn, hs.present, hs.reading⟩)
      fun l ys => ⟨rfl, rfl⟩
  | request method target headers =>
    simp only [World.act, World.request]
    cases Http.Request.of? method target headers with
    | none => exact ⟨a, rfl⟩
    | some r =>
      refine ⟨a, ?_⟩
      dsimp only
      rw [a.site]
      exact answer_events w.hub v.hub w.site r
  | status => exact ⟨a, congrArg (fun e => [e]) a.hub.statusEvent⟩
  | shutdown => exact ⟨a.with a.hub.shutdown, rfl⟩
  | interrupt => exact ⟨a.with a.hub.shutdown, rfl⟩
  | startStatus =>
    have begun : Beside z c { w with reporters := w.reporters ++ [⟨w.now, true⟩] }
        { v with reporters := v.reporters ++ [⟨v.now, true⟩] } := by
      refine ⟨a.hub, a.now, a.site, ?_, a.offender⟩
      dsimp only
      rw [a.reporters, a.now]
    exact begun.reports
  | evict p =>
    simp only [World.act]
    rw [a.hub.lookup]
    cases w.hub.lookup p with
    | none => exact ⟨a, rfl⟩
    | some d => exact ⟨a.with (a.hub.requestClose d), rfl⟩
  | unregister p => exact ⟨a.with (a.hub.unregister p), rfl⟩
  | wait | health | statusRunning => exact ⟨a, rfl⟩

/-! ## Whatever happens -/

theorem Beside.arrive (a : Beside z c w v) (j : Nat) (x : Arrival) :
    Beside z c (w.undergo (.arrive j x)).1 (v.undergo (.arrive j x)).1 := by
  obtain ⟨l, k, hl, hz, hk, hs⟩ := a.offender
  by_cases hj : j = z.link
  · subst hj
    have hvk : v.links[z.link]? = some k := by
      rw [hk, List.getElem?_set_self (List.getElem?_eq_some_iff.1 hl).1]
    simp only [World.undergo, hl, hvk]
    refine ⟨a.hub, a.now, a.site, a.reporters, l.hear x, k.hear x,
      World.links_put_self hl w.hub, hz, ?_, ?_⟩
    · show v.links.set z.link _ = (w.links.set z.link _).set z.link _
      rw [hk, List.set_set, List.set_set]
    · have hclient := hs.client
      refine hs.of_outside (outside_hear l x) (outside_hear k x)
        ⟨hclient.name, hclient.address, hclient.peer, hclient.conn, hclient.present,
          hclient.reading⟩ ?_
      rintro ys rfl
      exact ⟨[x], rfl, rfl⟩
  · have hv := a.others hj
    cases hm : w.links[j]? with
    | none =>
      simp only [World.undergo, hv, hm]
      exact a
    | some m =>
      simp only [World.undergo, hv, hm]
      refine ⟨a.hub, a.now, a.site, a.reporters, l, k,
        (World.links_put_ne (m.hear x) w.hub hj).trans hl, hz, ?_, hs⟩
      show v.links.set j _ = (w.links.set j _).set z.link k
      rw [hk, List.set_comm _ _ (Ne.symm hj)]

theorem Beside.pass (a : Beside z c w v) (t : Nat) :
    Beside z c { w with now := t } { v with now := t } :=
  ⟨a.hub, rfl, a.site, a.reporters, a.offender⟩

/-- **Whatever happens in both worlds leaves them twins.** -/
theorem Twin.undergo (a : Twin z w v) (halike : w.TakesAlike z.frame (.close z.instead))
    (x : Incident) : Twin z (w.undergo x).1 (v.undergo x).1 := by
  refine ⟨?_, a.standing.undergo x⟩
  obtain ⟨c, hb⟩ := a.beside
  cases x with
  | act x => exact ⟨c, (hb.act x).1⟩
  | arrive j x => exact ⟨c, hb.arrive j x⟩
  | report => exact ⟨c, hb.reports.1⟩
  | pass ms =>
    have hp := hb.pass (w.now + ms)
    rw [World.undergo, World.undergo, hb.now]
    exact ⟨c, hp⟩
  | turn j t =>
    obtain hr | ⟨rfl, d, hb⟩ := a.turn halike j t
    · rw [World.undergo, World.undergo]
      generalize w.turn j t = x at hr ⊢
      generalize v.turn j t = y at hr ⊢
      cases hr with
      | some hr => exact hr.twin.beside
      | none => exact ⟨c, hb⟩
    · refine ⟨some d, ?_⟩
      have hleft : Beside z (some d) (w.undergo (.turn z.link t)).1 v := by
        cases ht : w.turn z.link t with
        | none => rwa [undergo_of_no_turn ht]
        | some r =>
          rw [undergo_of_turn ht]
          exact (hb.turn_left ht).1
      cases ht : v.turn z.link t with
      | none => rwa [undergo_of_no_turn ht]
      | some r =>
        rw [undergo_of_turn ht]
        exact (hleft.turn_right ht).1

theorem World.TakesAlike.of_later {f g : Frame} {u : World} (a : u.TakesAlike f g)
    (hp : u.hub.policy = w.hub.policy) (hn : w.now ≤ u.now) : w.TakesAlike f g :=
  a.imp (hp ▸ id) fun htimed => World.timed_of_later hp hn htimed

theorem Twin.after (a : Twin z w v) (xs : List Incident)
    (halike : (w.after xs).TakesAlike z.frame (.close z.instead)) :
    Twin z (w.after xs) (v.after xs) := by
  induction xs using List.reverseRecOn with
  | nil => exact a
  | append_singleton xs x ih =>
    rw [World.after_snoc] at halike
    have hbefore := halike.of_later ((w.after xs).undergo_work x).later.policy
      ((w.after xs).now_le_undergo x)
    rw [World.after_snoc, World.after_snoc]
    exact (ih hbefore).undergo hbefore x

end Switchboard.Relay
