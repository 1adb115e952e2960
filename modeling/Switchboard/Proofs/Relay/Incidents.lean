import Switchboard.Proofs.Relay.Turns
import Switchboard.Relay.Action

/-!
# Whatever happens, in whatever order

A relay to which anything may happen next (`Incident`): somebody does something, something comes
from a client, a link takes a turn, a report is made, or time passes.  A link changes by its own
turns (`Turned`) or from the outside, which gives it something to hear and no more (`Outside`); it
begins with a client that is welcomed (`Welcomed`).

    w.links[i]? = some l → (w.undergo x).1.links[i]? = some l' with Turned … l l' or Outside l l'
    w.hub.Work (w.after xs).hub
-/

namespace Switchboard.Relay

inductive Incident where
  | act (a : Action)
  | arrive (i : Nat) (x : Arrival)
  | turn (i : Nat) (t : Turn)
  | report
  | pass (ms : Nat)
  deriving Repr

namespace World

def undergo (w : World) : Incident → Happening
  | .act a => ((w.act a).world, (w.act a).events)
  | .arrive i x =>
    match w.links[i]? with
    | some l => (w.setLink i (l.hear x), [])
    | none => (w, [])
  | .turn i t => (w.turn i t).getD (w, [])
  | .report => w.reports
  | .pass ms => ({ w with now := w.now + ms }, [])

def after (w : World) (xs : List Incident) : World := xs.foldl (fun w x => (w.undergo x).1) w

end World

/-! ## All that an incident can do -/

/-- What a link may be like after something that is no turn of it. -/
structure Outside (l l' : Link) : Prop where
  address : l'.address = l.address
  peer : l'.peer = l.peer
  conn : l'.conn = l.conn
  phase : l'.phase = l.phase
  deadline : l'.deadline = l.deadline
  nextPing : l'.nextPing = l.nextPing
  wire : ∃ broken, l'.wire = { l.wire with broken := broken }
  broken : l.wire.broken = true → l'.wire.broken = true
  inbox : l'.client.inbox = l.client.inbox
  ended : l'.client.ended = l.client.ended
  inbound : l'.inbound = l.inbound ∨ ∃ x, l'.inbound = l.inbound ++ [x]

/-- How a socket for the peer `p` begins: without a queue that it could be served from, refused,
served, or undone at once for a silence that no clock can measure. -/
inductive Welcomed (w : World) (d : Dial) (p : PeerId) : Link → Hub → List Event → Prop
  | unqueued (hq : w.queueTooLong = true) :
      Welcomed w d p (World.linkOf d p none (.lost .connecting)) w.hub []
  | refused {t : Taken} {h : Hub}
      (hr : w.hub.register p w.hub.policy.queueCapacity = (h, .error t))
      (hq : w.queueTooLong = false) :
      Welcomed w d p
        (World.linkOf d p none (.closing (.rejected t) (World.owedFor (.rejected t))
          (w.now + closeTimeout))) h
        (Hub.registerEvents p (.error t) ++ [Stage.connecting.moveEvent p .closing])
  | served {done : Registered} {h : Hub} {l : Link}
      (hr : w.hub.register p w.hub.policy.queueCapacity = (h, .ok done))
      (hi : w.idleTooLong = false)
      (hl : l = { World.linkOf d p (some done.conn) (.serving .idle) with
        deadline := w.now + w.idleLimit, nextPing := w.now + w.pingPeriod })
      (hq : w.queueTooLong = false) :
      Welcomed w d p l h
        (Hub.registerEvents p (.ok done) ++
          [Stage.connecting.moveEvent p .established, l.welcomeEvent done.conn])
  | undone {done : Registered} {h : Hub} {l : Link}
      (hr : w.hub.register p w.hub.policy.queueCapacity = (h, .ok done))
      (hi : w.idleTooLong = true)
      (hl : l = { World.linkOf d p (some done.conn) (.lost .established) with
        deadline := w.now + w.idleLimit, nextPing := w.now + w.pingPeriod })
      (hq : w.queueTooLong = false) :
      Welcomed w d p l ((h.leave p done.conn).updateBox done.conn Mailbox.discard)
        (Hub.registerEvents p (.ok done) ++
          [Stage.connecting.moveEvent p .established, l.welcomeEvent done.conn])

/-! ## The outside -/

variable {w : World} {i : Nat} {l l' : Link}

theorem Outside.refl (l : Link) : Outside l l :=
  ⟨rfl, rfl, rfl, rfl, rfl, rfl, ⟨l.wire.broken, rfl⟩, id, rfl, rfl, .inl rfl⟩

theorem Outside.frames (a : Outside l l') : l'.wire.frames = l.wire.frames := by
  obtain ⟨broken, hw⟩ := a.wire
  rw [hw]

theorem outside_hear (l : Link) (x : Arrival) : Outside l (l.hear x) :=
  ⟨rfl, rfl, rfl, rfl, rfl, rfl, ⟨l.wire.broken, rfl⟩, id, rfl, rfl, .inr ⟨x, rfl⟩⟩

theorem outside_client (l : Link) (client : Client) (name : String)
    (hi : client.inbox = l.client.inbox) (he : client.ended = l.client.ended) :
    Outside l { l with client := client, name := name } :=
  ⟨rfl, rfl, rfl, rfl, rfl, rfl, ⟨l.wire.broken, rfl⟩, id, hi, he, .inl rfl⟩

theorem outside_broken (l : Link) : Outside l { l with wire := { l.wire with broken := true } } :=
  ⟨rfl, rfl, rfl, rfl, rfl, rfl, ⟨true, rfl⟩, fun _ => rfl, rfl, rfl, .inl rfl⟩

namespace World

/-- The world after something that was no turn and brought no link. -/
structure Aside (w w' : World) : Prop where
  link : ∀ (i : Nat) (l : Link), w.links[i]? = some l → ∃ l', w'.links[i]? = some l' ∧ Outside l l'
  count : w'.links.length = w.links.length
  work : w.hub.Work w'.hub
  waiting : ∀ c, w'.hub.waiting c = w.hub.waiting c
  entries : ∀ p c, w'.hub.lookup p = some c → w.hub.lookup p = some c
  now : w'.now = w.now

theorem aside_of_links {w w' : World} (hl : w'.links = w.links) (hw : w.hub.Work w'.hub)
    (hs : ∀ c, w'.hub.waiting c = w.hub.waiting c)
    (he : ∀ p c, w'.hub.lookup p = some c → w.hub.lookup p = some c)
    (hn : w'.now = w.now) : w.Aside w' :=
  ⟨fun i l h => ⟨l, by rw [hl, h], .refl l⟩, by rw [hl], hw, hs, he, hn⟩

theorem Aside.refl (w : World) : w.Aside w :=
  aside_of_links rfl .refl (fun _ => rfl) (fun _ _ => id) rfl

theorem Aside.of_ite {w w' : World} {b : Bool} (h : w.Aside w') :
    w.Aside (if b then w' else w) := by
  cases b
  · exact .refl w
  · exact h

theorem aside_update (w : World) (name : String) {f : Link → Link} (hf : ∀ l, Outside l (f l)) :
    w.Aside (w.update name f) where
  link i l hl := by
    refine ⟨if l.name = name then f l else l, ?_, ?_⟩
    · rw [update, List.getElem?_map, hl]
      rfl
    · split
      · exact hf l
      · exact .refl l
  count := List.length_map _
  work := .refl
  waiting _ := rfl
  entries _ _ := id
  now := rfl

theorem aside_forget (w : World) (name : String) : w.Aside (w.forget name) :=
  w.aside_update name fun l => outside_client l { l.client with present := false } "" rfl rfl

theorem aside_onClient (w : World) (name : String) {f : Link → Result}
    (hf : ∀ l, w.Aside (f l).world) : w.Aside (w.onClient name f).world := by
  unfold onClient
  split
  · exact hf _
  · exact .refl w

theorem aside_setReading (w : World) (name : String) (reading : Bool) :
    w.Aside (w.setReading name reading).world := by
  refine w.aside_onClient name fun _ => .of_ite ?_
  exact w.aside_update name fun l =>
    outside_client l { l.client with reading := reading } l.name rfl rfl

theorem welcome_cases (w : World) (d : Dial) (p : PeerId) :
    ∃ l h es, w.welcome d p =
        ({ w with hub := h, links := (w.forget d.name).links ++ [l] }, es) ∧
      Welcomed w d p l h es := by
  have hhub : (w.forget d.name).hub = w.hub := rfl
  have hqueue : (w.forget d.name).queueTooLong = w.queueTooLong := rfl
  have hlong : (w.forget d.name).idleTooLong = w.idleTooLong := rfl
  cases hq : w.queueTooLong with
  | true =>
    simp only [welcome, hqueue, hq, if_true]
    exact ⟨_, _, _, rfl, .unqueued hq⟩
  | false =>
    rcases hr : w.hub.register p w.hub.policy.queueCapacity with ⟨h, t | done⟩
    · simp only [welcome, hqueue, hq, Bool.false_eq_true, if_false, hhub, hr]
      exact ⟨_, _, _, rfl, .refused hr hq⟩
    · simp only [welcome, hqueue, hq, Bool.false_eq_true, if_false, hhub, hr, hlong]
      cases hi : w.idleTooLong with
      | true => exact ⟨_, _, _, rfl, .undone hr hi rfl hq⟩
      | false => exact ⟨_, _, _, rfl, .served hr hi rfl hq⟩

/-- To connect leads to a socket that is welcomed, or changes nothing. -/
theorem connect_cases (w : World) (d : Dial) :
    (w.connect d).world = w ∨
      ∃ p l h es, Welcomed w d p l h es ∧
        (w.connect d).world = { w with hub := h, links := (w.forget d.name).links ++ [l] } ∧
        (w.connect d).events = Link.upgradeEvent p d.address :: es := by
  unfold connect
  cases Http.pathOf ("ws://relay" ++ d.path) with
  | none => exact .inl rfl
  | some path =>
    cases hr : Http.Route.ofPath path with
    | socket segment =>
      dsimp only
      rw [hr]
      dsimp only
      cases Http.peerOf segment with
      | error a => exact .inl rfl
      | ok p =>
        cases hb : d.broken with
        | true => exact .inl rfl
        | false =>
          obtain ⟨l, h, es, he, hw⟩ := w.welcome_cases d p
          right
          simp only [Bool.false_eq_true, if_false, he]
          exact ⟨p, l, h, es, hw, rfl, rfl⟩
    | _ =>
      left
      simp only [hr]

end World

theorem Welcomed.work {d : Dial} {p : PeerId} {h : Hub} {es : List Event}
    (a : Welcomed w d p l h es) : w.hub.Work h := by
  have hreg := Hub.Work.register p w.hub.policy.queueCapacity (.refl (h := w.hub))
  cases a with
  | unqueued => exact .refl
  | refused hr | served hr => rwa [hr] at hreg
  | undone hr =>
    rw [hr] at hreg
    exact (hreg.leave p _).discard _

theorem Welcomed.frames {d : Dial} {p : PeerId} {h : Hub} {es : List Event}
    (a : Welcomed w d p l h es) :
    l.wire.frames = [] := by
  cases a with
  | unqueued | refused => rfl
  | served _ _ hl | undone _ _ hl => rw [hl]; rfl

namespace World

/-- An action is done aside, or it brings a link. -/
theorem act_cases (w : World) (a : Action) :
    w.Aside (w.act a).world ∨
      ∃ d p l h es, a = .connect d ∧ Welcomed w d p l h es ∧
        (w.act a).world = { w with hub := h, links := (w.forget d.name).links ++ [l] } ∧
        (w.act a).events = Link.upgradeEvent p d.address :: es := by
  cases a with
  | connect d =>
    obtain he | ⟨p, l, h, es, hw, he, hes⟩ := w.connect_cases d
    · left
      rw [act, he]
      exact .refl w
    · exact .inr ⟨d, p, l, h, es, rfl, hw, he, hes⟩
  | send name f =>
    refine .inl (w.aside_onClient name fun _ => .of_ite ?_)
    exact w.aside_update name fun l => outside_hear l (.frame f)
  | silence name => exact .inl (w.aside_setReading name false)
  | resume name => exact .inl (w.aside_setReading name true)
  | drop name =>
    refine .inl (w.aside_onClient name fun _ => ?_)
    exact w.aside_update name fun l =>
      outside_client l { l.client with present := false } l.name rfl rfl
  | breakWrites name =>
    refine .inl (w.aside_onClient name fun _ => ?_)
    exact w.aside_update name fun l => outside_broken l
  | request method target headers =>
    left
    simp only [act, request]
    split <;> exact .refl w
  | startStatus => exact .inl (aside_of_links rfl .refl (fun _ => rfl) (fun _ _ => id) rfl)
  | evict p =>
    left
    simp only [act]
    split
    · exact aside_of_links rfl (.requestClose _ .refl) (Hub.waiting_requestClose _ _)
        (fun _ _ => id) rfl
    · exact .refl w
  | unregister p =>
    exact .inl (aside_of_links rfl (.unregister p .refl) (fun _ => rfl)
      (fun _ _ => Hub.lookup_of_lookup_unregister) rfl)
  | shutdown | interrupt =>
    exact .inl (aside_of_links rfl (.shutdown .refl) (fun _ => rfl) (fun _ _ => id) rfl)
  | wait | status | health | statusRunning => exact .inl (.refl w)

/-- Apart from connecting and unregistering, all that an action does to the hub is to raise one close
signal, or the stop flag. -/
theorem hub_of_act (w : World) {a : Action} (hc : ∀ d, a ≠ .connect d)
    (hu : ∀ q, a ≠ .unregister q) :
    (w.act a).world.hub = w.hub ∨ (∃ c, (w.act a).world.hub = w.hub.requestClose c) ∨
      (w.act a).world.hub = w.hub.shutdown := by
  have onClient : ∀ {name : String} {f : Link → Result}, (∀ l, (f l).world.hub = w.hub) →
      (w.onClient name f).world.hub = w.hub := by
    intro name f hf
    unfold World.onClient
    split
    · exact hf _
    · rfl
  have given : ∀ {b : Bool} {name : String} {f : Link → Link},
      (if b then w.update name f else w).hub = w.hub := by
    intro b name f
    cases b <;> rfl
  cases a with
  | connect d => exact absurd rfl (hc d)
  | unregister q => exact absurd rfl (hu q)
  | send | silence | resume => exact .inl (onClient fun _ => given)
  | drop | breakWrites => exact .inl (onClient fun _ => rfl)
  | request =>
    left
    simp only [act, request]
    split <;> rfl
  | evict p =>
    simp only [act]
    split
    · exact .inr (.inl ⟨_, rfl⟩)
    · exact .inl rfl
  | shutdown | interrupt => exact .inr (.inr rfl)
  | wait | status | health | startStatus | statusRunning => exact .inl rfl

/-! ## One link -/

/-- Is an incident a turn of a link, or its beginning? -/
def concerns (w : World) (i : Nat) (x : Incident) : Bool :=
  match x with
  | .turn j _ => j == i
  | .act (.connect _) => i == w.links.length && decide (i < (w.undergo x).1.links.length)
  | _ => false

/-- What a link tells of an incident. -/
def told (w : World) (i : Nat) (x : Incident) : List Event :=
  if w.concerns i x then (w.undergo x).2 else []

/-- The frames on their way to the client of a link. -/
def underWay (w : World) (i : Nat) : List Frame := ((w.links[i]?).map (·.wire.frames)).getD []

/-- The frames that an incident puts on their way, behind the others. -/
def wrote (w : World) (i : Nat) (x : Incident) : List Frame :=
  ((w.undergo x).1.underWay i).drop (w.underWay i).length

theorem links_put_self {w : World} {i : Nat} {l l' : Link} (hl : w.links[i]? = some l) (h : Hub) :
    (w.put i l' h).links[i]? = some l' := by
  rw [put, setLink, List.getElem?_set_self (List.getElem?_eq_some_iff.1 hl).1]

theorem links_put_ne {w : World} {i j : Nat} (l' : Link) (h : Hub) (hij : i ≠ j) :
    (w.put i l' h).links[j]? = w.links[j]? := by
  rw [put, setLink, List.getElem?_set_ne hij]

/-- A turn is taken by one link; it does nothing if there is nothing to do. -/
theorem undergo_turn (w : World) (i : Nat) (t : Turn) :
    w.undergo (.turn i t) = (w, []) ∨
      ∃ l l' h es, w.links[i]? = some l ∧ w.undergo (.turn i t) = (w.put i l' h, es) ∧
        Turned w l l' h es := by
  cases ht : w.turn i t with
  | none => exact .inl (by rw [undergo, ht]; rfl)
  | some r =>
    obtain ⟨w', es⟩ := r
    obtain ⟨l, l', h, hl, rfl, hT⟩ := turn_cases ht
    exact .inr ⟨l, l', h, es, hl, by rw [undergo, ht]; rfl, hT⟩

/-- **All that happens to a link.**  It takes a turn of its own, or the outside touches it. -/
theorem undergo_link {w : World} {i : Nat} {l : Link} (hl : w.links[i]? = some l) (x : Incident) :
    ∃ l', (w.undergo x).1.links[i]? = some l' ∧
      ((∃ t, x = .turn i t ∧ (w.undergo x).1 = w.put i l' (w.undergo x).1.hub ∧
          Turned w l l' (w.undergo x).1.hub (w.told i x)) ∨
        Outside l l' ∧ w.told i x = []) := by
  have hlt : i < w.links.length := (List.getElem?_eq_some_iff.1 hl).1
  cases x with
  | act a =>
    have quiet : w.told i (.act a) = [] := by
      cases a with
      | connect d =>
        have hne : (i == w.links.length) = false := beq_false_of_ne (Nat.ne_of_lt hlt)
        simp [told, concerns, hne]
      | _ => rfl
    obtain ha | ⟨d, p, l₁, h, es, -, -, hw, -⟩ := w.act_cases a
    · obtain ⟨l', hl', ho⟩ := ha.link i l hl
      exact ⟨l', hl', .inr ⟨ho, quiet⟩⟩
    · obtain ⟨l', hl', ho⟩ := (w.aside_forget d.name).link i l hl
      refine ⟨l', ?_, .inr ⟨ho, quiet⟩⟩
      rw [undergo, hw, List.getElem?_append_left (List.getElem?_eq_some_iff.1 hl').1, hl']
  | arrive j a =>
    have quiet : w.told i (.arrive j a) = [] := rfl
    simp only [undergo, quiet]
    cases hj : w.links[j]? with
    | none => exact ⟨l, hl, .inr ⟨.refl l, trivial⟩⟩
    | some k =>
      by_cases hij : j = i
      · subst hij
        obtain rfl := Option.some.inj (hl.symm.trans hj)
        exact ⟨l.hear a, links_put_self hl w.hub, .inr ⟨outside_hear l a, trivial⟩⟩
      · exact ⟨l, (links_put_ne (k.hear a) w.hub hij).trans hl, .inr ⟨.refl l, trivial⟩⟩
  | turn j t =>
    obtain hn | ⟨k, k', h, es, hk, hu, hT⟩ := w.undergo_turn j t
    · exact ⟨l, by rw [hn, hl], .inr ⟨.refl l, by simp [told, hn]⟩⟩
    · simp only [told, concerns, hu]
      by_cases hij : j = i
      · subst hij
        obtain rfl := Option.some.inj (hl.symm.trans hk)
        rw [beq_self_eq_true, if_pos rfl]
        exact ⟨k', links_put_self hl h, .inl ⟨t, rfl, rfl, hT⟩⟩
      · rw [beq_false_of_ne hij]
        exact ⟨l, (links_put_ne k' h hij).trans hl, .inr ⟨.refl l, rfl⟩⟩
  | report | pass => exact ⟨l, hl, .inr ⟨.refl l, rfl⟩⟩

/-- **All that brings a link.**  A client connects, and is welcomed. -/
theorem undergo_new {w : World} {i : Nat} {l : Link} {x : Incident} (hn : w.links[i]? = none)
    (hl : (w.undergo x).1.links[i]? = some l) :
    i = w.links.length ∧ (w.undergo x).1.links.length = w.links.length + 1 ∧
      (w.undergo x).1.now = w.now ∧ ∃ d p es,
        x = .act (.connect d) ∧ Welcomed w d p l (w.undergo x).1.hub es ∧
        w.told i x = Link.upgradeEvent p d.address :: es := by
  have hge : w.links.length ≤ i := List.getElem?_eq_none_iff.1 hn
  have hlt : i < (w.undergo x).1.links.length := (List.getElem?_eq_some_iff.1 hl).1
  have short : (w.undergo x).1.links.length ≠ w.links.length :=
    fun he => absurd (he ▸ hlt) (Nat.not_lt.2 hge)
  cases x with
  | act a =>
    obtain ha | ⟨d, p, l₁, h, es, rfl, hW, hw, hes⟩ := w.act_cases a
    · exact absurd ha.count short
    · have hcount : (w.forget d.name).links.length = w.links.length := (w.aside_forget d.name).count
      have hlen : (w.undergo (.act (.connect d))).1.links.length = w.links.length + 1 := by
        rw [undergo, hw, List.length_append, hcount]
        rfl
      obtain rfl : i = w.links.length := by omega
      obtain rfl : l₁ = l := by
        rw [undergo, hw, List.getElem?_append_right (Nat.le_of_eq hcount), hcount, Nat.sub_self]
          at hl
        exact Option.some.inj hl
      refine ⟨rfl, hlen, by rw [undergo, hw], d, p, es, rfl, ?_, ?_⟩
      · rw [undergo, hw]
        exact hW
      · have hc : w.concerns w.links.length (.act (.connect d)) = true := by
          rw [concerns, beq_self_eq_true, Bool.true_and, decide_eq_true_iff]
          exact hlt
        rw [told, if_pos hc, undergo, hes]
  | arrive j a =>
    refine absurd ?_ short
    simp only [undergo]
    split
    · exact List.length_set
    · rfl
  | turn j t =>
    obtain hu | ⟨k, k', h, es, hk, hu, hT⟩ := w.undergo_turn j t <;> rw [hu] at short
    · exact absurd rfl short
    · exact absurd List.length_set short
  | report | pass => exact absurd rfl short

theorem undergo_work (w : World) (x : Incident) : w.hub.Work (w.undergo x).1.hub := by
  cases x with
  | act a =>
    obtain ha | ⟨d, p, l₁, h, es, rfl, hW, hw, hes⟩ := w.act_cases a
    · exact ha.work
    · rw [undergo, hw]
      exact hW.work
  | arrive j a =>
    simp only [undergo]
    split <;> exact .refl
  | turn j t =>
    obtain hu | ⟨k, k', h, es, hk, hu, hT⟩ := w.undergo_turn j t <;> rw [hu]
    · exact .refl
    · exact hT.work
  | report | pass => exact .refl

/-- Nothing but the passing of time changes what time it is. -/
theorem undergo_now (w : World) (x : Incident) :
    (w.undergo x).1.now = w.now ∨ ∃ ms, x = .pass ms := by
  cases x with
  | act a =>
    left
    obtain ha | ⟨d, p, l, h, es, -, -, hw, -⟩ := w.act_cases a
    · exact ha.now
    · rw [undergo, hw]
  | arrive j a =>
    left
    simp only [undergo]
    split <;> rfl
  | turn j t =>
    left
    obtain hu | ⟨k, k', h, es, -, hu, -⟩ := w.undergo_turn j t <;> rw [hu]
    rfl
  | report => exact .inl rfl
  | pass ms => exact .inr ⟨ms, rfl⟩

/-! ## Runs -/

/-- What happens in a run, each with the world it happens to. -/
def trace (w : World) : List Incident → List (World × Incident)
  | [] => []
  | x :: xs => (w, x) :: trace (w.undergo x).1 xs

/-- All that a link tells in a run. -/
def log (w : World) (i : Nat) (xs : List Incident) : List Event :=
  (w.trace xs).flatMap fun s => s.1.told i s.2

/-- All frames that were put on their way to the client of a link. -/
def sent (w : World) (i : Nat) (xs : List Incident) : List Frame :=
  (w.trace xs).flatMap fun s => s.1.wrote i s.2

theorem after_append (w : World) (xs ys : List Incident) :
    w.after (xs ++ ys) = (w.after xs).after ys := List.foldl_append

theorem after_snoc (w : World) (xs : List Incident) (x : Incident) :
    w.after (xs ++ [x]) = ((w.after xs).undergo x).1 := w.after_append xs [x]

theorem trace_append (w : World) (xs ys : List Incident) :
    w.trace (xs ++ ys) = w.trace xs ++ (w.after xs).trace ys := by
  induction xs generalizing w with
  | nil => rfl
  | cons x xs ih => exact congrArg ((w, x) :: ·) (ih _)

theorem log_snoc (w : World) (i : Nat) (xs : List Incident) (x : Incident) :
    w.log i (xs ++ [x]) = w.log i xs ++ (w.after xs).told i x := by
  simp [log, trace_append, trace]

theorem sent_snoc (w : World) (i : Nat) (xs : List Incident) (x : Incident) :
    w.sent i (xs ++ [x]) = w.sent i xs ++ (w.after xs).wrote i x := by
  simp [sent, trace_append, trace]

theorem now_le_undergo (w : World) (x : Incident) : w.now ≤ (w.undergo x).1.now := by
  obtain hnow | ⟨ms, rfl⟩ := w.undergo_now x
  · exact Nat.le_of_eq hnow.symm
  · exact Nat.le_add_right _ _

theorem work_after (w : World) (xs : List Incident) : w.hub.Work (w.after xs).hub := by
  induction xs generalizing w with
  | nil => exact .refl
  | cons x xs ih => exact (w.undergo_work x).trans (ih _)

theorem now_le_after (w : World) (xs : List Incident) : w.now ≤ (w.after xs).now := by
  induction xs generalizing w with
  | nil => exact Nat.le_refl _
  | cons x xs ih => exact Nat.le_trans (w.now_le_undergo x) (ih _)

/-- A clock that is not too late for a silence was not so before. -/
theorem timed_of_later {u : World} (hp : u.hub.policy = w.hub.policy) (hn : w.now ≤ u.now)
    (h : u.idleTooLong = false) : w.idleTooLong = false := by
  have hsecs : w.now / 1000 ≤ u.now / 1000 := Nat.div_le_div_right hn
  rw [idleTooLong, hp, decide_eq_false_iff_not] at h
  rw [idleTooLong, decide_eq_false_iff_not]
  omega

theorem timed_of_after {xs : List Incident} (h : (w.after xs).idleTooLong = false) :
    w.idleTooLong = false :=
  timed_of_later (w.work_after xs).later.policy (w.now_le_after xs) h

theorem timed_of_undergo {x : Incident} (h : (w.undergo x).1.idleTooLong = false) :
    w.idleTooLong = false :=
  timed_of_later (w.undergo_work x).later.policy (w.now_le_undergo x) h

end World

end Switchboard.Relay
