import Switchboard.Json.Tree
import Switchboard.Proofs.Hub.Directory
import Switchboard.Proofs.Hub.Tallies
import Switchboard.Proofs.Relay.Handover

/-!
# What the counters tell of a relay at rest

Each socket that was upgraded is one line of a roll: was it accepted, and is it served?  An incident
adds a line, ends the service of one, or leaves the roll alone, and the counters of connections go
with it (`Booked`).  So they count the lines (`Counted`), at rest or not; it takes rest for the table
to list all who are served, since one who was taken over is served until it takes its turn.

    accepted = accepted lines, rejected = the others, active = served lines, closed = accepted - active
    at rest: entered ↔ served
-/

namespace Switchboard

/-! ## Specification -/

/-- The document that is given out for `/metrics`. -/
def Hub.metrics (h : Hub) : Json.Value :=
  .object [
    ("relay", h.counters.toValue),
    ("peers", .object [
      ("count", .number (.integer h.online.length)),
      ("peerIds", .array (h.online.map fun p => .number (.integer p)))])]

/-- A document shows a number below a path. -/
def Shows (doc : Json.Value) (path : List String) (n : Int) : Prop :=
  doc.at? path = some (.number (.integer n))

namespace Relay

def Answer.isUpgraded : Answer → Bool
  | .upgraded => true
  | _ => false

namespace World

/-- Is a socket upgraded by an incident? -/
def upgrades (w : World) : Incident → Bool
  | .act a => (w.act a).answer.isUpgraded
  | _ => false

/-- The number of sockets that are upgraded in a run. -/
def upgraded (w : World) (xs : List Incident) : Nat :=
  (w.trace xs).countP fun s => s.1.upgrades s.2

/-- No task of a connection has anything left to do; a client may still have something to read. -/
def Idle (w : World) : Prop :=
  ∀ i < w.links.length, ∀ t ∈ [Turn.read, .write, .close], (w.turn i t).isNone = true

instance (w : World) : Decidable w.Idle :=
  inferInstanceAs (Decidable (∀ i < w.links.length, ∀ t ∈ _, (w.turn i t).isNone = true))

/-- The links of established connections. -/
def served (w : World) : List Link := w.links.filter Link.isServed

/-- A document tells of the connections of a relay, of which there were `handled` in all, what there
is to tell. -/
structure Consistent (w : World) (handled : Nat) (doc : Json.Value) : Prop where
  count : Shows doc ["peers", "count"] w.served.length
  active : Shows doc ["relay", "connectionsActive"] w.served.length
  closed : ∃ accepted closed : Int, Shows doc ["relay", "connectionsAccepted"] accepted ∧
    Shows doc ["relay", "connectionsClosed"] closed ∧ accepted - closed = w.served.length
  ids : ∃ ps : List PeerId, ps.Pairwise (· < ·) ∧ (∀ p, p ∈ ps ↔ ∃ l ∈ w.served, l.peer = p) ∧
    doc.at? ["peers", "peerIds"] = some (.array (ps.map fun p => .number (.integer p)))
  handled : ∃ accepted rejected : Int, Shows doc ["relay", "connectionsAccepted"] accepted ∧
    Shows doc ["relay", "connectionsRejected"] rejected ∧ accepted + rejected = handled

end World

end Relay

/-! ## The counters of connections -/

namespace Counters

/-- The counters that go with the coming and going of connections. -/
def census (c : Counters) : UInt64 × UInt64 × UInt64 × UInt64 :=
  (c.accepted, c.active, c.rejected, c.closed)

theorem census_count_congr {c c' : Counters} (h : c.census = c'.census) (t : Tally) :
    (c.count t).census = (c'.count t).census := by
  simp only [census, Prod.mk.injEq] at h ⊢
  obtain ⟨ha, hg, hr, hc⟩ := h
  cases t <;> simp only [count, ha, hg, hr, hc, and_self]

end Counters

theorem Hub.census_route (h : Hub) (bound : PeerId) (f : Frame) :
    (h.route bound f).1.counters.census = h.counters.census := by
  have quiet : ∀ r, (h.counters.countAll (routeTallies r)).census = h.counters.census := by
    intro r
    cases r with
    | error v => rfl
    | ok o => cases o <;> rfl
  rw [counters_route]
  exact quiet _

theorem Hub.census_register {h h' : Hub} {p : PeerId} {n : Nat} {done : Registered}
    (hr : h.register p n = (h', .ok done)) :
    h'.counters.census = (h.counters.count .connection).census := by
  have hc := h.counters_register p n
  rw [hr] at hc
  rw [hc]
  simp only [registerTallies]
  split
  · have hevicted : (h.counters.count .eviction).census = h.counters.census := rfl
    exact Counters.census_count_congr hevicted .connection
  · rfl

namespace Relay

/-! ## The roll -/

/-- The line of a link: was it accepted, and is it served? -/
def Link.entry (l : Link) : Bool × Bool := (l.conn.isSome, l.isServed)

def World.roll (w : World) : List (Bool × Bool) := w.links.map Link.entry

/-- The counters count the lines of a roll. -/
structure Counted (roll : List (Bool × Bool)) (c : Counters) : Prop where
  accepted : c.accepted.toNat = roll.countP (·.1)
  rejected : c.rejected.toNat = roll.countP (!·.1)
  active : c.active.toNat = roll.countP (·.2)
  closed : c.closed.toNat + roll.countP (·.2) = roll.countP (·.1)

/-- What an incident does to a roll and to the counters. -/
inductive Booked (roll : List (Bool × Bool)) (c : Counters) : List (Bool × Bool) → Counters → Prop
  | same {c' : Counters} (hc : c'.census = c.census) : Booked roll c roll c'
  | refused {c' : Counters} (hc : c'.census = (c.count .rejection).census) :
      Booked roll c (roll ++ [(false, false)]) c'
  | begun {c' : Counters} (hc : c'.census = (c.count .connection).census) :
      Booked roll c (roll ++ [(true, true)]) c'
  | ended {i : Nat} {c' : Counters} (hi : roll[i]? = some (true, true))
      (hc : c'.census = (c.count .disconnection).census) :
      Booked roll c (roll.set i (true, false)) c'

variable {roll roll' : List (Bool × Bool)} {c c' : Counters}

theorem Counted.congr (a : Counted roll c) (h : c'.census = c.census) : Counted roll c' := by
  simp only [Counters.census, Prod.mk.injEq] at h
  obtain ⟨ha, hg, hr, hc⟩ := h
  exact ⟨ha ▸ a.accepted, hr ▸ a.rejected, hg ▸ a.active, hc ▸ a.closed⟩

theorem Counted.refused (a : Counted roll c) (hb : roll.length + 1 < Bounds.word64) :
    Counted (roll ++ [(false, false)]) (c.count .rejection) := by
  have hle := roll.countP_le_length (p := (!·.1))
  have hr : (c.rejected + 1).toNat = c.rejected.toNat + 1 :=
    Counters.toNat_add_one (by rw [a.rejected]; omega)
  constructor <;>
    simp only [Counters.count, List.countP_append, List.countP_singleton, Bool.false_eq_true,
      Bool.not_false, if_true, if_false, Nat.add_zero]
  · exact a.accepted
  · rw [hr, a.rejected]
  · exact a.active
  · exact a.closed

theorem Counted.begun (a : Counted roll c) (hb : roll.length + 1 < Bounds.word64) :
    Counted (roll ++ [(true, true)]) (c.count .connection) := by
  have hle := roll.countP_le_length (p := (·.1))
  have hle' := roll.countP_le_length (p := (·.2))
  have ha : (c.accepted + 1).toNat = c.accepted.toNat + 1 :=
    Counters.toNat_add_one (by rw [a.accepted]; omega)
  have hg := c.toNat_active_connection (by rw [a.active]; omega)
  have hclosed := a.closed
  constructor <;>
    simp only [List.countP_append, List.countP_singleton, Bool.not_true, Bool.false_eq_true,
      if_true, if_false, Nat.add_zero]
  · exact ha.trans (by rw [a.accepted])
  · exact a.rejected
  · exact hg.trans (by rw [a.active])
  · simp only [Counters.count]
    omega

theorem Counted.ended (a : Counted roll c) (hb : roll.length < Bounds.word64) {i : Nat}
    (hi : roll[i]? = some (true, true)) :
    Counted (roll.set i (true, false)) (c.count .disconnection) := by
  obtain ⟨hlt, hat⟩ := List.getElem?_eq_some_iff.1 hi
  have hserved : 0 < roll.countP (·.2) :=
    List.countP_pos_iff.2 ⟨_, List.mem_of_getElem? hi, rfl⟩
  have haccepted : 0 < roll.countP (·.1) :=
    List.countP_pos_iff.2 ⟨_, List.mem_of_getElem? hi, rfl⟩
  have hle := roll.countP_le_length (p := (·.1))
  have hclosed := a.closed
  have hc : (c.closed + 1).toNat = c.closed.toNat + 1 := Counters.toNat_add_one (by omega)
  have hg := c.toNat_active_disconnection
  constructor <;>
    simp only [List.countP_set hlt, hat, Bool.not_true, Bool.false_eq_true, if_true, if_false,
      Nat.add_zero, Nat.sub_zero]
  · exact a.accepted.trans (by omega)
  · exact a.rejected
  · rw [hg, a.active]
  · simp only [Counters.count]
    omega

/-- Whatever happens, the lines are counted, as long as there are not too many. -/
theorem Counted.booked (a : Counted roll c) (h : Booked roll c roll' c')
    (hb : roll'.length < Bounds.word64) : Counted roll' c' := by
  cases h with
  | same hc => exact a.congr hc
  | refused hc =>
    rw [List.length_append] at hb
    exact (a.refused hb).congr hc
  | begun hc =>
    rw [List.length_append] at hb
    exact (a.begun hb).congr hc
  | ended hi hc =>
    rw [List.length_set] at hb
    exact (a.ended hb hi).congr hc

/-! ## What an incident books -/

variable {w w' : World} {l l' : Link} {h : Hub} {es : List Event} {x : Incident}

theorem set_of_getElem? {i : Nat} {e : Bool × Bool} (h : roll[i]? = some e) :
    roll.set i e = roll := by
  obtain ⟨hlt, rfl⟩ := List.getElem?_eq_some_iff.1 h
  exact List.set_getElem_self hlt

theorem entry_of_phase (hc : l'.conn = l.conn) (hp : l'.phase = l.phase) : l'.entry = l.entry := by
  rw [Link.entry, Link.entry, hc, Link.isServed, hp]
  rfl

theorem entry_served {writer : Writer} {d : ConnId} (hc : l.conn = some d)
    (hp : l.phase = .serving writer) : l.entry = (true, true) := by
  rw [Link.entry, hc, Link.isServed_of_serving hp]
  rfl

theorem Ending.census {d : ConnId} {r : CloseReason} {owed : Option Frame}
    (a : Ending w l d r owed l' h es) : h.counters.census = w.hub.counters.census := by
  cases a with
  | @violated f rest v h hh hf hr =>
    have hc := w.hub.census_route l.peer f
    rwa [hr] at hc
  | told | silent | finished | fault | misfit | vanished | left | mute => rfl

theorem Given.counters {d : ConnId} {f : Frame} (a : Given w l d f l' h es) :
    h.counters = w.hub.counters := by
  cases a with
  | queued hr =>
    have hc := w.hub.counters_receive d (some 1)
    rwa [hr] at hc
  | ping => rfl

/-- While a silence can be measured, a turn ends the service of the link, and that is counted, or it
changes nothing of this. -/
theorem Turned.entry (a : Turned w l l' h es) (hi : w.idleTooLong = false) :
    l'.entry = l.entry ∧ h.counters.census = w.hub.counters.census ∨
      l.entry = (true, true) ∧ l'.entry = (true, false) ∧
        h.counters.census = (w.hub.counters.count .disconnection).census := by
  have hconn := a.conn
  have served : ∀ {d : ConnId} {before after : Writer}, l.conn = some d →
      l.phase = .serving before → l'.phase = .serving after → l'.entry = l.entry :=
    fun hc hp hp' => by rw [entry_served hc hp, entry_served (hconn.trans hc) hp']
  cases a with
  | @ended d writer r owed l₀ h₀ before hp hc he =>
    refine .inr ⟨entry_served hc hp, ?_, ?_⟩
    · rw [Link.entry, hconn, hc]
      rfl
    · rw [Hub.counters_requestClose, Hub.counters_release]
      exact Counters.census_count_congr he.census .disconnection
  | crashed _ _ _ hlong =>
    rw [hi] at hlong
    cases hlong
  | woke | answered | drained | noticed => exact .inl ⟨entry_of_phase rfl rfl, rfl⟩
  | @routed d writer f rest o h hp hc hh hf hr =>
    refine .inl ⟨entry_of_phase rfl rfl, ?_⟩
    have hcensus := w.hub.census_route l.peer f
    rwa [hr] at hcensus
  | ready hp hc | jammed hp hc => exact .inl ⟨served hc hp rfl, rfl⟩
  | handed hp hc _ hg => exact .inl ⟨served hc hp rfl, by rw [hg.counters]⟩
  | failed hp hc _ hg =>
    exact .inl ⟨served hc hp rfl, by rw [Hub.counters_requestClose, hg.counters]⟩
  | paid hp => exact .inl ⟨by simp only [Link.entry, Link.isServed, hp], rfl⟩
  | parted hp =>
    refine .inl ⟨by simp only [Link.entry, Link.isServed, hp], ?_⟩
    split <;> rfl

/-- A link that comes is refused, or it is served, if there can be a queue for it and the silence that
it may keep can be measured. -/
theorem Welcomed.booked {d : Dial} {p : PeerId} (a : Welcomed w d p l h es)
    (hq : w.queueTooLong = false) (hi : w.idleTooLong = false) (roll : List (Bool × Bool)) :
    Booked roll w.hub.counters (roll ++ [l.entry]) h.counters := by
  cases a with
  | unqueued hq' =>
    rw [hq] at hq'
    cases hq'
  | refused hr =>
    rw [Hub.refused_of_register hr]
    exact .refused rfl
  | served hr _ hl =>
    subst hl
    exact .begun (Hub.census_register hr)
  | undone _ hi' =>
    rw [hi] at hi'
    cases hi'

namespace World

theorem roll_congr (hcount : w'.links.length = w.links.length)
    (hlink : ∀ (i : Nat) (l : Link), w.links[i]? = some l →
      ∃ l', w'.links[i]? = some l' ∧ Outside l l') : w'.roll = w.roll := by
  refine List.ext_getElem? fun i => ?_
  simp only [roll, List.getElem?_map]
  cases hl : w.links[i]? with
  | none => rw [List.getElem?_eq_none (hcount ▸ List.getElem?_eq_none_iff.1 hl)]
  | some l =>
    obtain ⟨l', hl', ho⟩ := hlink i l hl
    rw [hl', Option.map_some, Option.map_some, entry_of_phase ho.conn ho.phase]

theorem counters_of_act (w : World) {a : Action} (hc : ∀ d, a ≠ .connect d) :
    (w.act a).world.hub.counters = w.hub.counters := by
  by_cases hu : ∃ q, a = .unregister q
  · obtain ⟨q, rfl⟩ := hu
    rfl
  · obtain he | ⟨e, he⟩ | he := w.hub_of_act hc fun q hq => hu ⟨q, hq⟩ <;> rw [he] <;> rfl

/-- **What an incident books.** -/
theorem undergo_booked (w : World) (x : Incident) (hq : w.queueTooLong = false)
    (hi : w.idleTooLong = false) :
    Booked w.roll w.hub.counters (w.undergo x).1.roll (w.undergo x).1.hub.counters := by
  cases x with
  | act a =>
    by_cases hconnect : ∃ d, a = .connect d
    · obtain ⟨d, rfl⟩ := hconnect
      obtain he | ⟨p, l, h, es, hW, he, -⟩ := w.connect_cases d
      · rw [undergo, act, he]
        exact .same rfl
      · have hforget : (w.forget d.name).roll = w.roll :=
          roll_congr (w.aside_forget d.name).count (w.aside_forget d.name).link
        have hroll : (w.undergo (.act (.connect d))).1.roll = w.roll ++ [l.entry] := by
          rw [undergo, act, he, ← hforget]
          exact List.map_append
        rw [hroll, undergo, act, he]
        exact hW.booked hq hi w.roll
    · have hne : ∀ d, a ≠ .connect d := fun d hd => hconnect ⟨d, hd⟩
      have hroll : (w.undergo (.act a)).1.roll = w.roll := by
        obtain ha | ⟨d, -, -, -, -, hd, -⟩ := w.act_cases a
        · exact roll_congr ha.count ha.link
        · exact absurd hd (hne d)
      rw [hroll]
      exact .same (congrArg Counters.census (w.counters_of_act hne))
  | arrive i y =>
    have hroll : (w.undergo (.arrive i y)).1.roll = w.roll := by
      simp only [undergo]
      cases hl : w.links[i]? with
      | none => rfl
      | some l =>
        simp only [roll, setLink, List.map_set]
        exact set_of_getElem? (by rw [List.getElem?_map, hl]; rfl)
    rw [hroll]
    refine .same ?_
    simp only [undergo]
    split <;> rfl
  | turn i t =>
    obtain he | ⟨l, l', h, es, hl, he, hT⟩ := w.undergo_turn i t
    · rw [he]
      exact .same rfl
    · have hat : w.roll[i]? = some l.entry := by rw [roll, List.getElem?_map, hl]; rfl
      have hroll : (w.undergo (.turn i t)).1.roll = w.roll.set i l'.entry := by
        rw [he, put, setLink, roll, List.map_set]
        rfl
      have hhub : (w.undergo (.turn i t)).1.hub = h := by rw [he]; rfl
      rw [hroll, hhub]
      obtain ⟨hentry, hc⟩ | ⟨hentry, hentry', hc⟩ := hT.entry hi
      · rw [hentry, set_of_getElem? hat]
        exact .same hc
      · rw [hentry']
        exact .ended (hat.trans (congrArg some hentry)) hc
  | report => exact .same rfl
  | pass => exact .same rfl

/-! ## Sockets that were upgraded -/

theorem length_connect (w : World) (d : Dial) :
    (w.connect d).world.links.length =
      w.links.length + (w.connect d).answer.isUpgraded.toNat := by
  unfold connect
  cases Http.pathOf ("ws://relay" ++ d.path) with
  | none => rfl
  | some path =>
    have refused : ∀ a : Http.Answer,
        (if d.broken then Answer.noHandshake else .notUpgraded a).isUpgraded = false := by
      intro a
      cases d.broken <;> rfl
    cases hr : Http.Route.ofPath path with
    | socket segment =>
      dsimp only
      rw [hr]
      dsimp only
      cases Http.peerOf segment with
      | error a => simp only [refused, Bool.toNat_false, Nat.add_zero]
      | ok p =>
        cases hb : d.broken with
        | true => rfl
        | false =>
          obtain ⟨l, h, es, he, -⟩ := w.welcome_cases d p
          have hcount : (w.forget d.name).links.length = w.links.length :=
            (w.aside_forget d.name).count
          simp only [Bool.false_eq_true, if_false, he, List.length_append, hcount,
            Answer.isUpgraded, Bool.toNat_true, List.length_singleton]
    | health | metrics | other =>
      dsimp only
      rw [hr]
      simp only [refused, Bool.toNat_false, Nat.add_zero]

theorem isUpgraded_onClient (w : World) (name : String) {f : Link → Result}
    (hf : ∀ l, (f l).answer.isUpgraded = false) :
    (w.onClient name f).answer.isUpgraded = false := by
  unfold onClient
  split
  · exact hf _
  · rfl

/-- Only a client that connects is answered with an upgrade. -/
theorem isUpgraded_act (w : World) {a : Action} (hc : ∀ d, a ≠ .connect d) :
    (w.act a).answer.isUpgraded = false := by
  cases a with
  | connect d => exact absurd rfl (hc d)
  | send | silence | resume | drop | breakWrites =>
    exact w.isUpgraded_onClient _ fun _ => rfl
  | request =>
    simp only [act, request]
    split <;> rfl
  | statusRunning =>
    simp only [act]
    split <;> rfl
  | evict =>
    simp only [act]
    split <;> rfl
  | wait | status | health | shutdown | startStatus | unregister | interrupt => rfl

/-- A socket that is upgraded is a link more, and nothing else is. -/
theorem length_undergo (w : World) (x : Incident) :
    (w.undergo x).1.links.length = w.links.length + (w.upgrades x).toNat := by
  cases x with
  | act a =>
    by_cases hconnect : ∃ d, a = .connect d
    · obtain ⟨d, rfl⟩ := hconnect
      exact w.length_connect d
    · have hne : ∀ d, a ≠ .connect d := fun d hd => hconnect ⟨d, hd⟩
      rw [upgrades, w.isUpgraded_act hne]
      obtain ha | ⟨d, -, -, -, -, hd, -⟩ := w.act_cases a
      · exact ha.count
      · exact absurd hd (hne d)
  | arrive i y =>
    simp only [undergo]
    split
    · exact List.length_set
    · rfl
  | turn i t =>
    obtain he | ⟨l, l', h, es, -, he, -⟩ := w.undergo_turn i t <;> rw [he]
    · rfl
    · exact List.length_set
  | report => rfl
  | pass => rfl

theorem upgraded_snoc (w : World) (xs : List Incident) (x : Incident) :
    w.upgraded (xs ++ [x]) = w.upgraded xs + ((w.after xs).upgrades x).toNat := by
  rw [upgraded, trace_append, List.countP_append]
  cases hx : (w.after xs).upgrades x <;> simp [upgraded, trace, hx]

variable {t : Nat}

theorem length_after (p : Policy) (site : Http.Site) (xs : List Incident) :
    ((start p site t).after xs).links.length = (start p site t).upgraded xs := by
  induction xs using List.reverseRecOn with
  | nil => rfl
  | append_singleton xs x ih => rw [after_snoc, upgraded_snoc, length_undergo, ih]

/-! ## Runs -/

variable {p : Policy} {site : Http.Site} {xs : List Incident}

theorem length_roll (w : World) : w.roll.length = w.links.length := List.length_map _

/-- The counters of a run count the sockets, however many turns are still to be taken. -/
theorem counted_after (site : Http.Site) (hq : p.queueCapacity < Bounds.eighth64)
    (hi : ((start p site t).after xs).idleTooLong = false)
    (hn : (start p site t).upgraded xs < Bounds.word64) :
    Counted ((start p site t).after xs).roll ((start p site t).after xs).hub.counters := by
  induction xs using List.reverseRecOn with
  | nil => exact ⟨rfl, rfl, rfl, rfl⟩
  | append_singleton xs x ih =>
    have hqueue : ((start p site t).after xs).queueTooLong = false := by
      rw [queueTooLong, policy_after]
      exact decide_eq_false (Nat.not_le.2 hq)
    rw [after_snoc] at hi
    have htimed := timed_of_undergo hi
    have hbefore : (start p site t).upgraded xs < Bounds.word64 := by
      rw [upgraded_snoc] at hn
      omega
    have hbooked := ((start p site t).after xs).undergo_booked x hqueue htimed
    rw [← after_snoc] at hbooked
    refine (ih htimed hbefore).booked hbooked ?_
    rw [length_roll, length_after]
    exact hn

/-! ## The table at rest -/

theorem mem_served {l : Link} : l ∈ w.served ↔
    ∃ (i : Nat) (writer : Writer), w.links[i]? = some l ∧ l.phase = .serving writer := by
  rw [served, List.mem_filter, List.mem_iff_getElem?]
  constructor
  · rintro ⟨⟨i, hl⟩, hs⟩
    obtain ⟨writer, hp⟩ := l.isServed_iff.1 hs
    exact ⟨i, writer, hl, hp⟩
  · rintro ⟨i, writer, hl, hp⟩
    exact ⟨⟨i, hl⟩, Link.isServed_of_serving hp⟩

/-- At rest who is served is entered: nobody is left who was taken over. -/
theorem Idle.entered (hw : ((start p site t).after xs).Idle) (hu : ∀ q, .act (.unregister q) ∉ xs)
    {i : Nat} {l : Link} {writer : Writer} {c : ConnId}
    (hl : ((start p site t).after xs).links[i]? = some l) (hp : l.phase = .serving writer)
    (hc : l.conn = some c) : ((start p site t).after xs).hub.lookup l.peer = some c := by
  refine (entered_or_evicted hu hl hp hc).resolve_right fun hevicted => ?_
  have hread : ((start p site t).after xs).read i l = none := by
    have ht := hw i (List.getElem?_eq_some_iff.1 hl).1 .read List.mem_cons_self
    rw [Option.isNone_iff_eq_none] at ht
    simpa only [turn, hl] using ht
  obtain ⟨hcalm, -⟩ := (read_eq_none_iff hp hc).1 hread
  rw [isClosing_of_evicted hevicted hl hc] at hcalm
  cases hcalm

theorem Idle.mem_online_iff (hw : ((start p site t).after xs).Idle)
    (hu : ∀ q, .act (.unregister q) ∉ xs) (q : PeerId) :
    q ∈ ((start p site t).after xs).hub.online ↔
      ∃ l ∈ ((start p site t).after xs).served, l.peer = q := by
  have hstanding : ((start p site t).after xs).Standing := standing_after p site xs
  rw [Hub.online, Peers.mem_ids_iff]
  constructor
  · intro hsome
    obtain ⟨c, hc⟩ := Option.isSome_iff_exists.1 hsome
    obtain ⟨i, l, writer, hl, -, hq, hp⟩ := hstanding.listed q c hc
    exact ⟨l, mem_served.2 ⟨i, writer, hl, hp⟩, hq⟩
  · rintro ⟨l, hmem, rfl⟩
    obtain ⟨i, writer, hl, hp⟩ := mem_served.1 hmem
    obtain ⟨c, hc⟩ := hstanding.taken i l writer hl hp
    exact Option.isSome_iff_exists.2 ⟨c, hw.entered hu hl hp hc⟩

/-- At rest no two links are served for one identifier. -/
theorem Idle.nodup_served (hw : ((start p site t).after xs).Idle)
    (hu : ∀ q, .act (.unregister q) ∉ xs) :
    (((start p site t).after xs).served.map (·.peer)).Nodup := by
  have hstanding : ((start p site t).after xs).Standing := standing_after p site xs
  have served : ∀ {i : Nat} {l : Link}, ((start p site t).after xs).links[i]? = some l →
      l.isServed = true → ∃ c, l.conn = some c ∧
        ((start p site t).after xs).hub.lookup l.peer = some c := by
    intro i l hl hs
    obtain ⟨j, writer, -, hp⟩ :=
      mem_served.1 (List.mem_filter.2 ⟨List.mem_of_getElem? hl, hs⟩)
    obtain ⟨c, hc⟩ := hstanding.taken i l writer hl hp
    exact ⟨c, hc, hw.entered hu hl hp hc⟩
  rw [List.nodup_iff_pairwise_ne, List.pairwise_map, World.served, List.pairwise_filter,
    List.pairwise_iff_getElem]
  intro i j hi hj hij hsi hsj hpeer
  have hli := List.getElem?_eq_getElem hi
  have hlj := List.getElem?_eq_getElem hj
  obtain ⟨c, hc, hentry⟩ := served hli hsi
  obtain ⟨d, hd, hentry'⟩ := served hlj hsj
  rw [hpeer, hentry'] at hentry
  obtain rfl := Option.some.inj hentry
  exact absurd (hstanding.own i j _ _ d hli hlj hc hd) (Nat.ne_of_lt hij)

theorem Idle.length_online (hw : ((start p site t).after xs).Idle)
    (hu : ∀ q, .act (.unregister q) ∉ xs) :
    ((start p site t).after xs).hub.online.length = ((start p site t).after xs).served.length := by
  have hnodup : ((start p site t).after xs).hub.online.Nodup :=
    (Peers.ids_rising _).imp fun hab => Int.ne_of_lt hab
  have hperm := (List.perm_ext_iff_of_nodup hnodup (hw.nodup_served hu)).2 fun q => by
    rw [hw.mem_online_iff hu, List.mem_map]
  exact hperm.length_eq.trans (List.length_map _)

/-! ## Top theorem -/

theorem request_metrics (w : World) (headers : List (String × String)) :
    (w.request "GET" "/metrics" headers).answer = .answered
      (.full 200 "application/json" (Text.bytes (Json.compact w.hub.metrics))) := by
  have hr : Http.Request.of? "GET" "/metrics" headers = some ⟨"GET", "/metrics", headers⟩ := by
    have ht : Http.isToken (Text.bytes "GET") = true := by decide +kernel
    have hp : Http.pathOf "/metrics" = some "/metrics" := by decide +kernel
    rw [Http.Request.of?, ht, hp]
    rfl
  rw [request, hr]
  rfl

theorem countP_served (w : World) : w.roll.countP (·.2) = w.served.length := by
  rw [roll, List.countP_map, served, List.countP_eq_length_filter]
  rfl

theorem countP_roll (w : World) :
    w.roll.countP (·.1) + w.roll.countP (!·.1) = w.links.length := by
  rw [← length_roll, w.roll.length_eq_countP_add_countP (·.1)]
  simp only [Bool.not_eq_true, Bool.decide_eq_false]

/-- **The counters tell of a relay at rest what there is.**  Whatever the policy and whenever the
relay began, as long as queues can be set up, the clock can measure a silence, fewer than 2^64 sockets
were upgraded and nobody was unregistered by hand: in every state in which no task has anything left
to do, `/metrics` is answered with a document that is consistent with the connections. -/
theorem metrics_consistent (p : Policy) (site : Http.Site) (t : Nat) (xs : List Incident)
    (headers : List (String × String)) (hq : p.queueCapacity < Bounds.eighth64)
    (hd : ((start p site t).after xs).now / 1000 + (p.pingInterval + p.pingTimeout) <
      Bounds.half64)
    (hn : (start p site t).upgraded xs < Bounds.word64) (hu : ∀ q, .act (.unregister q) ∉ xs)
    (hw : ((start p site t).after xs).Idle) :
    ∃ doc, (((start p site t).after xs).request "GET" "/metrics" headers).answer =
        .answered (.full 200 "application/json" (Text.bytes (Json.compact doc))) ∧
      ((start p site t).after xs).Consistent ((start p site t).upgraded xs) doc := by
  refine ⟨((start p site t).after xs).hub.metrics, request_metrics _ headers, ?_⟩
  have htimed : ((start p site t).after xs).idleTooLong = false := by
    rw [idleTooLong, policy_after]
    exact decide_eq_false (Nat.not_le.2 hd)
  have hcounted := counted_after site hq htimed hn
  have hactive := hcounted.active
  have hclosed := hcounted.closed
  have hall := ((start p site t).after xs).countP_roll
  rw [countP_served] at hactive hclosed
  rw [← hcounted.accepted, ← hcounted.rejected, length_after] at hall
  constructor
  · rw [← hw.length_online hu]
    rfl
  · rw [← hactive]
    rfl
  · refine ⟨_, _, rfl, rfl, ?_⟩
    rw [← hcounted.accepted] at hclosed
    omega
  · exact ⟨_, Peers.ids_rising _, hw.mem_online_iff hu, rfl⟩
  · exact ⟨_, _, rfl, rfl, by exact_mod_cast hall⟩

/-- Two clients have come for one identifier, one for another that has gone again, and all turns
were taken. -/
def come : List Incident :=
  takenOver ++ [.act (.connect { seventh "other" with path := "/websocket/-3" }),
    .act (.drop "other"), .turn 2 .read, .turn 2 .close]

theorem metrics_consistent_come :
    let w := start (Policy.ofSettings { duplicatePolicy := .evictExisting }) none 86400000
    (w.after come).Idle ∧ (w.after come).served.map (·.peer) = [7] ∧ w.upgraded come = 3 ∧
      ∃ doc, ((w.after come).request "GET" "/metrics" []).answer =
          .answered (.full 200 "application/json" (Text.bytes (Json.compact doc))) ∧
        (w.after come).Consistent (w.upgraded come) doc := by
  intro w
  have hidle : (w.after come).Idle := by decide +kernel
  have hthree : w.upgraded come = 3 := by decide +kernel
  have hserved : (w.after come).served.map (·.peer) = [7] := by decide +kernel
  have htime : (w.after come).now = 86400000 := by decide +kernel
  refine ⟨hidle, hserved, hthree,
    metrics_consistent _ none _ come [] (by decide) ?_ ?_ ?_ hidle⟩
  · rw [htime]
    decide
  · rw [hthree]
    decide
  · intro q hq
    simp [come, takenOver] at hq

/-- At ping durations that no clock can measure the gauge is left up by a connection that is gone. -/
theorem not_consistent_unmeasurable :
    let w := start unmeasurable none
    let xs := [Incident.act (.connect (seventh "only"))]
    unmeasurable.idleLimit? = some 9223372036854775808 ∧ w.upgraded xs = 1 ∧ (w.after xs).Idle ∧
      (w.after xs).served.length = 0 ∧
      Shows (w.after xs).hub.metrics ["relay", "connectionsActive"] 1 ∧
      ((w.after xs).request "GET" "/metrics" []).answer = .answered (.full 200 "application/json"
        (Text.bytes (Json.compact (w.after xs).hub.metrics))) ∧
      ¬ (w.after xs).Consistent (w.upgraded xs) (w.after xs).hub.metrics := by
  intro w xs
  have hserved : (w.after xs).served.length = 0 := by decide +kernel
  have hactive : (w.after xs).hub.counters.active.toNat = 1 := by decide +kernel
  have hshown : Shows (w.after xs).hub.metrics ["relay", "connectionsActive"] 1 :=
    congrArg (fun n : Nat => some (Json.Value.number (.integer n))) hactive
  refine ⟨by decide, by decide +kernel, by decide +kernel, hserved, hshown, request_metrics _ [],
    fun h => ?_⟩
  have htold := h.active
  rw [hserved, Shows, hshown] at htold
  cases htold

end World

end Relay

end Switchboard
