import Switchboard.Proofs.Relay.Concord
import Switchboard.Proofs.Relay.Offence

/-!
# Violations are contained

Two runs that are the same, but that one client sends a violation in the one and a close frame in
the other, are the same to everybody else (`SameBut`): in whatever order the turns are taken, and in
the running relay, which takes them in its own order and does not wait for the same moments in both.

    w.after (xs ++ .arrive o (.frame f) :: ys), w.after (xs ++ .arrive o (.frame (.close cf)) :: ys)
    run w (.send name f :: bs), run w (.send name (.close cf) :: bs)
-/

namespace Switchboard.Relay

/-! ## Specification -/

namespace World

/-- The two worlds differ in the link `o` and its mailbox at most, and in how many frames came and
how many of them were violations. -/
structure SameBut (o : Nat) (w v : World) : Prop where
  now : v.now = w.now
  policy : v.hub.policy = w.hub.policy
  table : v.hub.table = w.hub.table
  stopping : v.hub.stopping = w.hub.stopping
  fresh : v.hub.fresh = w.hub.fresh
  counters : v.hub.counters.pardoned = w.hub.counters.pardoned
  site : v.site = w.site
  reporters : v.reporters = w.reporters
  count : v.links.length = w.links.length
  others : ∀ j, j ≠ o → v.links[j]? = w.links[j]?
  mailboxes : ∀ (j : Nat) (l : Link) (d : ConnId), j ≠ o → w.links[j]? = some l →
    l.conn = some d → v.hub.box? d = w.hub.box? d
  client : ∀ l, w.links[o]? = some l → ∃ k, v.links[o]? = some k ∧ SameClient l k
  isOpen : v.isOpen o = w.isOpen o

/-- All that is reported in a run of the relay. -/
def reported (w : World) : List Action → List Event
  | [] => []
  | a :: as => (w.step a).events ++ reported (w.step a).world as

end World

variable {z : Offence} {c : Option ConnId} {w v : World}

/-! ## Twins -/

theorem World.SameBut.refl (o : Nat) (w : World) : w.SameBut o w :=
  ⟨rfl, rfl, rfl, rfl, rfl, rfl, rfl, rfl, rfl, fun _ _ => rfl, fun _ _ _ _ _ _ => rfl,
    fun l hl => ⟨l, hl, .refl l⟩, rfl⟩

theorem Twin.sameBut (a : Twin z w v) : w.SameBut z.link v := by
  obtain ⟨c, hb⟩ := a.beside
  obtain ⟨l, k, hl, -, hk, hs⟩ := hb.offender
  have hvk : v.links[z.link]? = some k := by
    rw [hk, List.getElem?_set_self (List.getElem?_eq_some_iff.1 hl).1]
  refine ⟨hb.now, hb.hub.policy, hb.hub.table, hb.hub.stopping, hb.hub.fresh, hb.hub.counters,
    hb.site, hb.reporters, by rw [hk, List.length_set], fun j hj => hb.others hj,
    fun j m d hj hm hc => hb.hub.boxes d (hb.foreign a.standing hj hm hc), fun m hm => ?_, ?_⟩
  · obtain rfl := Option.some.inj (hl.symm.trans hm)
    exact ⟨k, hvk, hs.client⟩
  · rw [World.isOpen_eq hl, World.isOpen_eq hvk, hs.served]

theorem World.TakesAlike.of_turn {f g : Frame} {i : Nat} {t : Turn} {r : Happening}
    (a : w.TakesAlike f g) (ht : w.turn i t = some r) : r.1.TakesAlike f g := by
  obtain ⟨w', es⟩ := r
  obtain ⟨l, l', h', -, hr, hT⟩ := World.turn_cases ht
  dsimp only
  rw [hr]
  exact a.of_later hT.work.later.policy.symm (Nat.le_refl _)

theorem World.TakesAlike.of_run {f g : Frame} {as : List Action}
    (a : (World.run w as).TakesAlike f g) (hw : w.Calm) : w.TakesAlike f g := by
  obtain ⟨hleads, -⟩ := World.leads_run as hw.pings hw.rest
  exact a.of_later hleads.policy hleads.now_le

/-- What happens next, after what happened before. -/
theorem Parallel.followed {a b a' b' : Happening} (h : Parallel z a b)
    (h' : Parallel z a' b') : Parallel z (a'.1, a.2 ++ a'.2) (b'.1, b.2 ++ b'.2) := by
  refine ⟨h'.twin, ?_⟩
  rw [List.filter_append, List.filter_append, h.ends, h'.ends]

/-- Which turns come first in two worlds: they do the same, or one is of no concern to others. -/
inductive Onward (z : Offence) (w v : World) : Option Happening → Option Happening → Prop
  | rest : Onward z w v none none
  | both {r s : Happening} (h : Parallel z r s) : Onward z w v (some r) (some s)
  | left {r : Happening} {y : Option Happening} (h : Parallel z r (v, [])) :
      Onward z w v (some r) y
  | right {x : Option Happening} {s : Happening} (h : Parallel z (w, []) s) :
      Onward z w v x (some s)

theorem Twin.onward (a : Twin z w v) (halike : w.TakesAlike z.frame (.close z.instead)) (j : Nat)
    (t : Turn) : Onward z w v (w.turn j t) (v.turn j t) := by
  obtain hr | ⟨rfl, d, hb⟩ := a.turn halike j t
  · generalize w.turn j t = x at hr ⊢
    generalize v.turn j t = y at hr ⊢
    cases hr with
    | some h => exact .both h
    | none => exact .rest
  · cases hw : w.turn z.link t with
    | some r =>
      obtain ⟨hb', hends⟩ := hb.turn_left hw
      exact .left ⟨⟨⟨_, hb'⟩, a.standing.turn hw⟩, hends.symm⟩
    | none =>
      cases hv : v.turn z.link t with
      | some s =>
        obtain ⟨hb', hends⟩ := hb.turn_right hv
        exact .right ⟨⟨⟨_, hb'⟩, a.standing⟩, hends⟩
      | none => exact .rest

theorem onward_findSome {α : Type} {F G : α → Option Happening}
    (h : ∀ x, Onward z w v (F x) (G x)) (xs : List α) :
    Onward z w v (xs.findSome? F) (xs.findSome? G) := by
  induction xs with
  | nil => exact .rest
  | cons x xs ih =>
    rw [List.findSome?_cons, List.findSome?_cons]
    have hx := h x
    generalize F x = r at hx ⊢
    generalize G x = s at hx ⊢
    cases hx with
    | rest => exact ih
    | both h => exact .both h
    | left h => exact .left h
    | right h => exact .right h

theorem Twin.firstTurn (a : Twin z w v) (halike : w.TakesAlike z.frame (.close z.instead)) :
    Onward z w v w.firstTurn v.firstTurn := by
  have hcount : v.links.length = w.links.length := a.sameBut.count
  unfold World.firstTurn
  rw [hcount]
  exact onward_findSome (fun i => onward_findSome (fun t => a.onward halike i t) _) _

theorem settleWithin_of_rest {n : Nat} (h : w.firstTurn = none) :
    World.settleWithin n w = (w, []) := by
  cases n with
  | zero => rfl
  | succ n => rw [World.settleWithin, h]

theorem settleWithin_of_turn {n : Nat} {r : Happening} (h : w.firstTurn = some r) :
    World.settleWithin (n + 1) w =
      ((World.settleWithin n r.1).1, r.2 ++ (World.settleWithin n r.1).2) := by
  rw [World.settleWithin, h]

/-- Twins that come to rest are twins. -/
theorem Twin.settleWithin {n m : Nat} (a : Twin z w v)
    (halike : w.TakesAlike z.frame (.close z.instead)) (hperiod : lateness < w.pingPeriod)
    (hn : w.load ≤ n) (hm : v.load ≤ m) :
    Parallel z (World.settleWithin n w) (World.settleWithin m v) := by
  have hperiod' : lateness < v.pingPeriod := by
    obtain ⟨c, hb⟩ := a.beside
    rwa [hb.abreast.pingPeriod]
  -- a turn takes something off the load, so there is one more that may be taken
  have fewer : ∀ {u : World} {r : Happening} {k : Nat}, u.firstTurn = some r →
      lateness < u.pingPeriod → u.load ≤ k →
      ∃ k', k = k' + 1 ∧ r.1.load ≤ k' ∧ lateness < r.1.pingPeriod := by
    rintro u ⟨u', es⟩ k hf hp hk
    obtain ⟨i, t, ht⟩ := World.exists_of_firstTurn hf
    obtain ⟨hlt, -, hpp⟩ := World.load_turn ht hp
    have hless : u'.load < k := Nat.lt_of_lt_of_le hlt hk
    exact ⟨k - 1, by omega, Nat.le_sub_one_of_lt hless, Nat.lt_of_lt_of_eq hp hpp.symm⟩
  induction hk : n + m using Nat.strong_induction_on generalizing n m w v with
  | _ k ih =>
    have hfirst := a.firstTurn halike
    have still : ∀ {r : Happening}, w.firstTurn = some r →
        r.1.TakesAlike z.frame (.close z.instead) := fun hf => by
      obtain ⟨i, t, ht⟩ := World.exists_of_firstTurn hf
      exact halike.of_turn ht
    generalize hw : w.firstTurn = x at hfirst
    generalize hv : v.firstTurn = y at hfirst
    cases hfirst with
    | rest =>
      rw [settleWithin_of_rest hw, settleWithin_of_rest hv]
      exact ⟨a, rfl⟩
    | @both r s h =>
      obtain ⟨n, rfl, hn, hp⟩ := fewer hw hperiod hn
      obtain ⟨m, rfl, hm, hp'⟩ := fewer hv hperiod' hm
      rw [settleWithin_of_turn hw, settleWithin_of_turn hv]
      exact h.followed (ih (n + m) (by omega) h.twin (still hw) hp hn hm hp' rfl)
    | @left r y h =>
      obtain ⟨n, rfl, hn, hp⟩ := fewer hw hperiod hn
      rw [settleWithin_of_turn hw]
      exact h.followed (ih (n + m) (by omega) h.twin (still hw) hp hn hm hperiod' rfl)
    | @right x s h =>
      obtain ⟨m, rfl, hm, hp'⟩ := fewer hv hperiod' hm
      rw [settleWithin_of_turn hv]
      exact h.followed (ih (n + m) (by omega) h.twin halike hperiod hn hm hp' rfl)

theorem Twin.settle (a : Twin z w v) (halike : w.TakesAlike z.frame (.close z.instead))
    (hperiod : lateness < w.pingPeriod) : Parallel z w.settle v.settle :=
  a.settleWithin halike hperiod (Nat.le_refl _) (Nat.le_refl _)

/-! ## The passing of time -/

theorem Twin.pass (a : Twin z w v) (t : Nat) : Twin z { w with now := t } { v with now := t } := by
  obtain ⟨c, hb⟩ := a.beside
  have hs := a.standing
  exact ⟨⟨c, hb.pass t⟩, hs.taken, hs.known, hs.own, hs.listed, hs.stopped⟩

theorem Twin.reports (a : Twin z w v) : Parallel z w.reports v.reports := by
  obtain ⟨c, hb⟩ := a.beside
  obtain ⟨hafter, hevents⟩ := hb.reports
  exact ⟨⟨⟨c, hafter⟩, a.standing.undergo .report⟩, congrArg _ hevents⟩

/-- Twins that let time pass are twins, as long as the two frames are taken alike. -/
theorem parallel_concord {u : World} (halike : u.TakesAlike z.frame (.close z.instead)) :
    Concord (fun a b => Parallel z a b ∧ u.hub.policy = a.1.hub.policy) u.now where
  now h := h.1.twin.sameBut.now
  pass h t := ⟨⟨h.1.twin.pass t, rfl⟩, h.2⟩
  followed h h' := ⟨h.1.followed h'.1, h'.2⟩
  reports h := ⟨h.1.twin.reports, h.2⟩
  settle {a _} h hperiod hlast :=
    ⟨h.1.twin.settle (halike.of_later h.2 hlast) hperiod,
      h.2.trans (World.settleWithin_aside a.1.load a.1).2.2.symm⟩

/-! ## The running relay -/

/-- Two actions that take the same time, and are of one effect to others. -/
theorem Parallel.step {x y : Action} (h : Parallel z (w.undergo (.act x)) (v.undergo (.act y)))
    (hw : w.Calm) (hv : v.Calm) (hlast : World.duration y = World.duration x)
    (halike : (w.step x).world.TakesAlike z.frame (.close z.instead)) :
    Twin z (w.step x).world (v.step y).world ∧
      (v.step y).events.filter (endsOther z.conn) = (w.step x).events.filter (endsOther z.conn) := by
  have hpolicy : (w.step x).world.hub.policy = (w.undergo (.act x)).1.hub.policy :=
    (w.leads_step x hw.pings).1.policy.trans (w.undergo_work (.act x)).later.policy.symm
  obtain ⟨⟨htwin, hends⟩, -⟩ := (parallel_concord halike).follow ⟨h, hpolicy⟩ (hw.act x) (hv.act y)
    (World.duration x) (Nat.le_of_eq (hw.now_step x).symm)
  rw [w.step_eq, v.step_eq, hlast]
  dsimp only
  exact ⟨htwin, hends⟩

/-- **A step of the running relay leaves twins.** -/
theorem Twin.step (a : Twin z w v) (hw : w.Calm) (hv : v.Calm) (x : Action)
    (halike : (w.step x).world.TakesAlike z.frame (.close z.instead)) :
    Twin z (w.step x).world (v.step x).world ∧
      (v.step x).events.filter (endsOther z.conn) = (w.step x).events.filter (endsOther z.conn) := by
  obtain ⟨c, hb⟩ := a.beside
  obtain ⟨hafter, hevents⟩ := hb.act x
  have hact : Parallel z (w.undergo (.act x)) (v.undergo (.act x)) :=
    ⟨⟨⟨c, hafter⟩, a.standing.undergo (.act x)⟩, congrArg _ hevents⟩
  exact hact.step hw hv rfl halike

theorem Twin.run (a : Twin z w v) (hw : w.Calm) (hv : v.Calm) (xs : List Action)
    (halike : (World.run w xs).TakesAlike z.frame (.close z.instead)) :
    Twin z (World.run w xs) (World.run v xs) ∧
      (v.reported xs).filter (endsOther z.conn) = (w.reported xs).filter (endsOther z.conn) := by
  induction xs generalizing w v with
  | nil => exact ⟨a, rfl⟩
  | cons x xs ih =>
    rw [World.run_cons] at halike
    obtain ⟨hnext, hfirst⟩ := a.step hw hv x (halike.of_run (hw.step x))
    obtain ⟨htwin, hends⟩ := ih hnext (hw.step x) (hv.step x) halike
    rw [World.run_cons, World.run_cons]
    refine ⟨htwin, ?_⟩
    rw [World.reported, World.reported, List.filter_append, List.filter_append, hends, hfirst]

/-! ## Names -/

/-- A turn leaves a client its name. -/
theorem Turned.name {l l' : Link} {h' : Hub} {es : List Event} (a : Turned w l l' h' es) :
    l'.name = l.name := by
  cases a with
  | ended hp hc he => obtain ⟨_, _, rfl, -⟩ := he.link; rfl
  | handed hp hc hs hg => obtain ⟨_, rfl⟩ := hg.link; rfl
  | failed hp hc hs hg => obtain ⟨_, rfl⟩ := hg.link; rfl
  | _ => rfl

namespace World

variable {o : Nat} {l : Link} {name : String}

def names (w : World) : List String := w.links.map (·.name)

/-- No two clients have a name in common; those that have made room for another have none. -/
def Distinct (w : World) : Prop :=
  ∀ (i j : Nat) (n : String), w.names[i]? = some n → w.names[j]? = some n → n ≠ "" → i = j

theorem Distinct.of_names {w' : World} (a : w.Distinct) (hn : w'.names = w.names) : w'.Distinct := by
  rw [Distinct, hn]
  exact a

theorem names_setLink {l' : Link} (hl : w.links[o]? = some l) (hn : l'.name = l.name) :
    (w.setLink o l').names = w.names := by
  rw [names, setLink, List.map_set, hn]
  obtain ⟨hlt, rfl⟩ := List.getElem?_eq_some_iff.1 hl
  refine List.ext_getElem? fun j => ?_
  by_cases hj : o = j
  · subst hj
    rw [List.getElem?_set_self (by rwa [List.length_map]), names, List.getElem?_map, hl]
    rfl
  · rw [List.getElem?_set_ne hj, names]

theorem names_update (w : World) (name : String) {F : Link → Link} (hF : ∀ l, (F l).name = l.name) :
    (w.update name F).names = w.names := by
  rw [names, update, List.map_map, names]
  refine List.map_congr_left fun l _ => ?_
  show (if l.name = name then F l else l).name = l.name
  split
  · exact hF l
  · rfl

theorem names_of_act (w : World) {a : Action} (h : ∀ d, a ≠ .connect d) :
    (w.act a).world.names = w.names := by
  have onClient : ∀ {name : String} {f : Link → Result}, (∀ l, (f l).world.names = w.names) →
      (w.onClient name f).world.names = w.names := by
    intro name f hf
    unfold World.onClient
    split
    · exact hf _
    · rfl
  have given : ∀ {b : Bool} {name : String} {F : Link → Link}, (∀ l, (F l).name = l.name) →
      (if b then w.update name F else w).names = w.names := by
    intro b name F hF
    cases b
    · rfl
    · exact w.names_update name hF
  cases a with
  | connect d => exact absurd rfl (h d)
  | send | silence | resume => exact onClient fun _ => given fun _ => rfl
  | drop | breakWrites => exact onClient fun _ => w.names_update _ fun _ => rfl
  | request =>
    simp only [act, request]
    split <;> rfl
  | evict p =>
    simp only [act]
    split <;> rfl
  | wait | status | health | shutdown | startStatus | statusRunning | unregister | interrupt => rfl

/-- Who comes takes the name from whoever has it. -/
theorem Distinct.connect (a : w.Distinct) (d : Dial) : (w.connect d).world.Distinct := by
  obtain he | ⟨p, k, h, es, hW, he, -⟩ := w.connect_cases d
  · rwa [he]
  have hk : k.name = d.name := by
    cases hW with
    | unqueued | refused => rfl
    | served _ _ hl | undone _ _ hl => rw [hl]; rfl
  have hnames : (w.connect d).world.names =
      (w.names.map fun n => if n = d.name then "" else n) ++ [d.name] := by
    rw [he, names, List.map_append, names, List.map_map, forget, update, List.map_map]
    congr 1
    · refine List.map_congr_left fun l _ => ?_
      show (if l.name = d.name then { leave l with name := "" } else l).name =
        if l.name = d.name then "" else l.name
      split <;> rfl
    · rw [List.map_singleton, hk]
  -- a name in the new list was in the old one, and is not that of the newcomer
  have old : ∀ {i : Nat} {n : String}, i < w.names.length → (w.connect d).world.names[i]? = some n →
      n ≠ "" → w.names[i]? = some n ∧ n ≠ d.name := by
    intro i n hi hn hne
    rw [hnames, List.getElem?_append_left (by rwa [List.length_map]), List.getElem?_map,
      Option.map_eq_some_iff] at hn
    obtain ⟨m, hm, hmn⟩ := hn
    split at hmn
    · exact absurd hmn.symm hne
    · next hmd => exact ⟨hmn ▸ hm, hmn ▸ hmd⟩
  have new : ∀ {i : Nat} {n : String}, ¬ i < w.names.length →
      (w.connect d).world.names[i]? = some n → i = w.names.length ∧ n = d.name := by
    intro i n hi hn
    rw [hnames, List.getElem?_append_right (by rw [List.length_map]; omega), List.length_map,
      List.getElem?_singleton] at hn
    split at hn
    · exact ⟨by omega, (Option.some.inj hn).symm⟩
    · cases hn
  intro i j n hi hj hne
  by_cases hlti : i < w.names.length <;> by_cases hltj : j < w.names.length
  · exact a i j n (old hlti hi hne).1 (old hltj hj hne).1 hne
  · exact absurd (new hltj hj).2 (old hlti hi hne).2
  · exact absurd (new hlti hi).2 (old hltj hj hne).2
  · rw [(new hlti hi).1, (new hltj hj).1]

theorem Distinct.undergo (a : w.Distinct) (x : Incident) : (w.undergo x).1.Distinct := by
  cases x with
  | act x =>
    by_cases hx : ∃ d, x = .connect d
    · obtain ⟨d, rfl⟩ := hx
      exact a.connect d
    · exact a.of_names (w.names_of_act fun d hd => hx ⟨d, hd⟩)
  | arrive j x =>
    simp only [World.undergo]
    split
    · next l hl => exact a.of_names (names_setLink hl rfl)
    · exact a
  | turn j t =>
    obtain hu | ⟨l, l', h, es, hl, hu, hT⟩ := w.undergo_turn j t <;> rw [hu]
    · exact a
    · exact a.of_names (names_setLink (w := { w with hub := h }) hl hT.name)
  | report | pass => exact a

/-- A client that has a name is the only one of it. -/
theorem Distinct.only (a : w.Distinct) (hl : w.links[o]? = some l) (hne : l.name ≠ "") :
    ∀ j k, w.links[j]? = some k → k.name = l.name → j = o := by
  intro j k hk hn
  refine a j o l.name ?_ ?_ hne
  · rw [names, List.getElem?_map, hk]
    exact congrArg some hn
  · rw [names, List.getElem?_map, hl]
    rfl

/-! ## Sending -/

end World

end Switchboard.Relay
