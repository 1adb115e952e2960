import Mathlib.Data.List.Induction
import Switchboard.Proofs.Relay.Lifecycle
import Switchboard.Relay.Clock

/-!
# Silence is measured exactly

Time passes only when all is at rest, and not beyond a moment that somebody waits for (`Timely`).
In such a run a link that is served is never silent for longer than the limit since it last heard a
frame (`lastHeard`), and it times out just when it has been silent for that long: not before, and
without fail unless something else happens to it at that very instant (`Apart`).

    isOpen (w.after xs) i → (w.after xs).now ≤ w.lastHeard i xs + limit
    timedOut w i xs ↔ the link was open when the limit was reached
-/

namespace Switchboard.Relay

/-! ## Specification -/

def isFrame : Arrival → Bool
  | .frame _ => true
  | _ => false

/-- How many frames a link has still to hear. -/
def Link.unheard (l : Link) : Nat := l.inbound.countP isFrame

namespace World

/-- Time passes when nothing is left to do, and up to the next moment that is waited for. -/
def onTime (w : World) : Incident → Bool
  | .pass ms => w.firstTurn.isNone && w.timers.all fun t => t ≤ w.now || w.now + ms ≤ t
  | _ => true

def Timely (w : World) (xs : List Incident) : Prop := ∀ s ∈ w.trace xs, s.1.onTime s.2 = true

/-- Does an incident bring a link, or a frame to it? -/
def rouses (w : World) (i : Nat) (x : Incident) : Bool :=
  match w.links[i]?, (w.undergo x).1.links[i]? with
  | some l, some l' => decide (l.unheard < l'.unheard)
  | none, some _ => true
  | _, none => false

/-- When the last frame came to a link; before the first, when the link began. -/
def lastHeard (w : World) (i : Nat) (xs : List Incident) : Nat :=
  (((w.trace xs).filter fun s => s.1.rouses i s.2).getLast?.map (·.1.now)).getD 0

def isOpen (w : World) (i : Nat) : Bool := (w.links[i]?).any Link.isServed

/-- Is the close signal of a link raised? -/
def isTold (w : World) (i : Nat) : Bool :=
  (w.links[i]?).any fun l => l.conn.any fun c => w.hub.isClosing c

/-- Whether `x` ends the service of a link, and for what reason. -/
def endedBy (w : World) (i : Nat) (x : Incident) : Option CloseReason :=
  if w.isOpen i then
    ((w.undergo x).1.links[i]?).bind fun l =>
      match l.phase with
      | .closing r _ _ => some r
      | _ => none
  else none

/-- A link has ended because it was silent for too long. -/
def TimedOut (w : World) (i : Nat) (xs : List Incident) : Prop :=
  ∃ ys x, ys ++ [x] <+: xs ∧ (w.after ys).endedBy i x = some .timeout

/-- An open link that has by now been silent for as long as it may. -/
def IsDue (w : World) (i : Nat) (xs : List Incident) : Prop :=
  (w.after xs).isOpen i = true ∧ (w.after xs).now = w.lastHeard i xs + w.idleLimit

instance (w : World) (i : Nat) (xs : List Incident) : Decidable (w.IsDue i xs) :=
  inferInstanceAs (Decidable (_ ∧ _))

instance (w : World) (xs : List Incident) : Decidable (w.Timely xs) :=
  inferInstanceAs (Decidable (∀ s ∈ w.trace xs, _ = true))

/-- At the instant when a link is due nothing else happens to it: its close signal is not raised,
and no frame comes. -/
def Apart (w : World) (i : Nat) (xs : List Incident) : Prop :=
  ∀ ys x, ys ++ [x] <+: xs → w.IsDue i ys →
    (w.after ys).isTold i = false ∧ (w.after ys).rouses i x = false

end World

/-! ## How long a link may be silent -/

/-- The last frame of a served link and its deadline, measured now. -/
structure Measured (now last limit : Nat) (l : Link) : Prop where
  bound : now ≤ l.deadline
  silent : l.unheard = 0 → l.deadline = last + limit
  fresh : l.unheard ≠ 0 → last = now ∧ now < l.deadline

variable {w : World} {l l' : Link} {c : ConnId} {h' : Hub} {es : List Event}
variable {i now last limit : Nat}

theorem Measured.now_le (a : Measured now last limit l) : now ≤ last + limit := by
  by_cases hu : l.unheard = 0
  · rw [← a.silent hu]
    exact a.bound
  · rw [(a.fresh hu).1]
    exact Nat.le_add_right _ _

/-- If no frame comes when it is due, then a frame that comes is in time. -/
theorem Measured.early (a : Measured now last limit l) (hx : l.unheard < l'.unheard)
    (hd : now = last + limit → ¬ l.unheard < l'.unheard) : now < l.deadline := by
  by_cases hu : l.unheard = 0
  · refine Nat.lt_of_le_of_ne a.bound fun he => ?_
    exact hd (he.trans (a.silent hu)) hx
  · exact (a.fresh hu).2

/-- Something may have come, and the deadline has stayed. -/
theorem Measured.more (a : Measured now last limit l) (hdeadline : l'.deadline = l.deadline)
    (hle : l.unheard ≤ l'.unheard) (hd : now = last + limit → ¬ l.unheard < l'.unheard) :
    Measured now (if l.unheard < l'.unheard then now else last) limit l' := by
  refine ⟨hdeadline ▸ a.bound, fun hu => ?_, fun hu => ?_⟩
  · rw [if_neg (by omega), hdeadline]
    exact a.silent (by omega)
  · split
    · next hx => exact ⟨rfl, hdeadline ▸ a.early hx hd⟩
    · next hx =>
      rw [hdeadline]
      exact a.fresh (by omega)

theorem unheard_cons {f : Frame} (hi : l.inbound = .frame f :: l'.inbound) :
    l.unheard = l'.unheard + 1 := by
  rw [Link.unheard, Link.unheard, hi, List.countP_cons_of_pos rfl]

/-- A frame was heard, and the silence begins anew. -/
theorem Measured.heard {f : Frame} (a : Measured now last limit l)
    (hi : l.inbound = .frame f :: l'.inbound) (hdeadline : l'.deadline = now + limit)
    (hlimit : 0 < limit) :
    Measured now (if l.unheard < l'.unheard then now else last) limit l' := by
  have hu := unheard_cons hi
  obtain ⟨hlast, -⟩ := a.fresh (by omega)
  rw [if_neg (by omega)]
  refine ⟨by omega, fun _ => ?_, fun _ => ⟨hlast, by omega⟩⟩
  rw [hdeadline, hlast]

theorem unheard_append {xs : List Arrival} (hi : l'.inbound = l.inbound ++ xs) :
    l.unheard ≤ l'.unheard := by
  rw [Link.unheard, Link.unheard, hi, List.countP_append]
  exact Nat.le_add_right _ _

theorem Outside.unheard_le (a : Outside l l') : l.unheard ≤ l'.unheard := by
  obtain hi | ⟨x, hi⟩ := a.inbound
  · exact unheard_append (hi.trans (List.append_nil _).symm)
  · exact unheard_append hi

/-- The turns of a link that is served on. -/
theorem Turned.measured {writer : Writer} (a : Turned w l l' h' es)
    (hp : l'.phase = .serving writer) (hm : Measured w.now last w.idleLimit l)
    (hlimit : 0 < w.idleLimit)
    (hd : w.now = last + w.idleLimit → ¬ l.unheard < l'.unheard) :
    Measured w.now (if l.unheard < l'.unheard then w.now else last) w.idleLimit l' := by
  cases a with
  | woke _ _ hh => exact hm.heard hh.next rfl hlimit
  | answered _ _ hh => exact hm.heard hh.next rfl hlimit
  | routed _ _ hh => exact hm.heard hh.next rfl hlimit
  | ready | jammed => exact hm.more rfl (Nat.le_refl _) hd
  | handed _ _ _ hg | failed _ _ _ hg =>
    obtain ⟨_, rfl⟩ := hg.link
    exact hm.more rfl (Nat.le_refl _) hd
  | drained => exact hm.more rfl (unheard_append rfl) hd
  | ended | crashed | paid | parted => cases hp
  | noticed hover =>
    rw [show l.phase = .serving writer from hp] at hover
    cases hover

/-- A link that is welcomed has just been heard. -/
theorem Welcomed.measured {d : Dial} {p : PeerId} {writer : Writer} (a : Welcomed w d p l h' es)
    (hp : l.phase = .serving writer) :
    (∃ c, l.conn = some c) ∧ Measured w.now w.now w.idleLimit l := by
  cases a with
  | unqueued | refused => cases hp
  | undone _ _ hl =>
    rw [hl] at hp
    cases hp
  | @served done _ _ _ _ hl =>
    subst hl
    exact ⟨⟨done.conn, rfl⟩, Nat.le_add_right _ _, fun _ => rfl, fun hu => absurd rfl hu⟩

/-- What a served link is told that has been silent for too long. -/
def timeoutFrame : Frame := .close (some ⟨1011, "keepalive_timeout"⟩)

theorem Ending.timeout {r : CloseReason} {owed : Option Frame} (a : Ending w l c r owed l' h' es)
    (hr : r = .timeout) : owed = some timeoutFrame ∧ l.deadline ≤ w.now := by
  cases a with
  | told hs hr' =>
    rw [hr] at hr'
    split at hr' <;> cases hr'
  | silent hs hd => exact ⟨rfl, hd⟩
  | finished | fault | misfit | vanished | left | mute | violated => cases hr

/-- A served link times out at its deadline, and its client is owed the frame that says so. -/
theorem Turned.timeout {writer : Writer} {owed : Option Frame} {giveUp : Nat}
    (a : Turned w l l' h' es) (hp : l.phase = .serving writer)
    (hp' : l'.phase = .closing .timeout owed giveUp) :
    owed = some timeoutFrame ∧ l.deadline ≤ w.now := by
  cases a with
  | ended _ _ he =>
    cases hp'
    exact he.timeout rfl
  | woke | answered | routed | drained => exact absurd (hp.symm.trans hp') (by simp)
  | ready | jammed | handed | failed | crashed => cases hp'
  | paid hp₀ | parted hp₀ | noticed hp₀ =>
    rw [hp] at hp₀
    cases hp₀

/-- At its deadline a served link that is not told to close is served on or times out. -/
theorem Turned.due {writer : Writer} (a : Turned w l l' h' es) (hp : l.phase = .serving writer)
    (hc : l.conn = some c) (hcalm : w.hub.isClosing c = false) (hd : l.deadline ≤ w.now) :
    (∃ owed giveUp, l'.phase = .closing .timeout owed giveUp) ∨
      ∃ after, l'.phase = .serving after := by
  have late : ∀ {c x rest}, ¬ Hears w l c x rest := fun hh => Nat.not_lt.2 hd hh.early
  cases a with
  | @ended c' _ r owed l₀ h₀ before _ hc' he =>
    obtain rfl := Option.some.inj (hc.symm.trans hc')
    left
    cases he with
    | told hs =>
      rw [hcalm] at hs
      cases hs
    | silent => exact ⟨_, _, rfl⟩
    | finished hh | fault hh | misfit hh => exact absurd hh late
    | vanished _ hd' => exact absurd hd (Nat.not_le.2 hd')
    | left hh | mute hh | violated hh => exact absurd hh.toHears late
  | woke _ _ hh | answered _ _ hh | routed _ _ hh => exact absurd hh.toHears late
  | crashed _ _ hh => exact absurd hh.toHears late
  | ready | jammed | handed | failed => exact .inr ⟨_, rfl⟩
  | drained => exact .inr ⟨writer, hp⟩
  | paid hp₀ | parted hp₀ | noticed hp₀ =>
    rw [hp] at hp₀
    cases hp₀

/-! ## Rest -/

namespace World

theorem turn_of_rest (hr : w.firstTurn.isNone = true) (hl : w.links[i]? = some l) (t : Turn) :
    w.turn i t = none := by
  rw [Option.isNone_iff_eq_none, firstTurn_eq_none_iff] at hr
  exact hr i (List.getElem?_eq_some_iff.1 hl).1 t

/-- The reading hand of a served link has nothing to do if the link is not told to close, its
deadline is still to come, and all that came was heard. -/
theorem read_eq_none_iff {writer : Writer} (hp : l.phase = .serving writer) (hc : l.conn = some c) :
    w.read i l = none ↔ w.hub.isClosing c = false ∧ w.now < l.deadline ∧ l.inbound = [] ∧
      l.client.present = true := by
  unfold read
  rw [hp, hc]
  dsimp only
  cases hs : w.hub.isClosing c with
  | true => simp
  | false =>
    by_cases hd : l.deadline ≤ w.now
    · simp [hd, Nat.not_lt.2 hd]
    · rw [if_neg Bool.false_ne_true, if_neg hd]
      cases hi : l.inbound with
      | nil => simp [Nat.not_le.1 hd]
      | cons x rest =>
        cases x with
        | frame f =>
          dsimp only
          split
          · simp
          · split <;> simp
        | fault | finished => simp

theorem read_of_rest {writer : Writer} (hr : w.firstTurn.isNone = true) (hl : w.links[i]? = some l)
    (hp : l.phase = .serving writer) (hc : l.conn = some c) :
    w.hub.isClosing c = false ∧ w.now < l.deadline ∧ l.unheard = 0 := by
  have hread : w.read i l = none := by
    have ht := turn_of_rest hr hl .read
    simpa only [turn, hl] using ht
  obtain ⟨hs, hd, hi, -⟩ := (read_eq_none_iff hp hc).1 hread
  exact ⟨hs, hd, by rw [Link.unheard, hi]; rfl⟩

/-! ## Runs -/

variable {xs ys : List Incident} {x : Incident}

theorem timely_append (w : World) (xs ys : List Incident) :
    w.Timely (xs ++ ys) ↔ w.Timely xs ∧ (w.after xs).Timely ys := by
  rw [Timely, trace_append, List.forall_mem_append]
  rfl

theorem pass_of_timely {ms : Nat} (h : w.Timely [.pass ms]) :
    w.firstTurn.isNone = true ∧ ∀ t ∈ w.timers, w.now < t → w.now + ms ≤ t := by
  have ht := h _ List.mem_cons_self
  simp only [onTime, Bool.and_eq_true, List.all_eq_true, Bool.or_eq_true, decide_eq_true_eq] at ht
  exact ⟨ht.1, fun t hm hlt => (ht.2 t hm).resolve_left (Nat.not_le.2 hlt)⟩

theorem lastHeard_snoc (w : World) (i : Nat) (xs : List Incident) (x : Incident) :
    w.lastHeard i (xs ++ [x]) =
      if (w.after xs).rouses i x then (w.after xs).now else w.lastHeard i xs := by
  unfold lastHeard
  rw [trace_append, List.filter_append]
  by_cases hr : (w.after xs).rouses i x = true
  · simp [trace, hr]
  · simp [trace, hr]

theorem idleLimit_after (w : World) (xs : List Incident) :
    (w.after xs).idleLimit = w.idleLimit := by
  rw [idleLimit, idleLimit, (w.work_after xs).later.policy]

theorem rouses_eq (hl : w.links[i]? = some l) (hl' : (w.undergo x).1.links[i]? = some l') :
    w.rouses i x = decide (l.unheard < l'.unheard) := by
  rw [rouses, hl, hl']

theorem isOpen_eq (hl : w.links[i]? = some l) : w.isOpen i = l.isServed := by
  rw [isOpen, hl, Option.any_some]

theorem serving_of_isOpen (h : w.isOpen i = true) :
    ∃ l writer, w.links[i]? = some l ∧ l.phase = .serving writer := by
  unfold isOpen at h
  obtain ⟨l, hl, hs⟩ := (Option.any_eq_true _ _).1 h
  obtain ⟨writer, hp⟩ := l.isServed_iff.1 hs
  exact ⟨l, writer, hl, hp⟩

theorem isOpen_of_serving {writer : Writer} (hl : w.links[i]? = some l)
    (hp : l.phase = .serving writer) : w.isOpen i = true := by
  rw [isOpen_eq hl, Link.isServed_of_serving hp]

theorem deadline_mem_timers {writer : Writer} (hl : w.links[i]? = some l)
    (hp : l.phase = .serving writer) : l.deadline ∈ w.timers := by
  refine List.mem_append_left _ (List.mem_flatMap.2 ⟨l, List.mem_of_getElem? hl, ?_⟩)
  rw [linkTimers, hp]
  cases writer <;> exact List.mem_cons_self

theorem apart_of_take (h : ∀ n (hn : n < xs.length), w.IsDue i (xs.take n) →
    (w.after (xs.take n)).isTold i = false ∧ (w.after (xs.take n)).rouses i xs[n] = false) :
    w.Apart i xs := by
  rintro ys x ⟨zs, rfl⟩ hd
  have hn : ys.length < (ys ++ [x] ++ zs).length := by simp
  have ht : (ys ++ [x] ++ zs).take ys.length = ys := by simp
  have hx : (ys ++ [x] ++ zs)[ys.length] = x := by simp
  have hq := h ys.length hn
  rw [ht, hx] at hq
  exact hq hd

theorem Apart.mono (a : w.Apart i xs) (hp : ys <+: xs) : w.Apart i ys :=
  fun zs x hz => a zs x (hz.trans hp)

/-- A link that is served on was served before. -/
theorem serving_of_turned {writer : Writer} {h' : Hub} {es : List Event} (a : Turned w l l' h' es)
    (hp : l'.phase = .serving writer) : ∃ before, l.phase = .serving before := by
  cases a with
  | ended hp' | woke hp' | answered hp' | routed hp' | ready hp' | jammed hp' | handed hp'
  | failed hp' => exact ⟨_, hp'⟩
  | drained => exact ⟨writer, hp⟩
  | crashed | paid | parted => cases hp
  | noticed => exact ⟨writer, hp⟩

/-- When time passes all was heard, and it passes up to the deadline at most. -/
theorem measured_pass {writer : Writer} {ms : Nat} (ht : w.Timely [.pass ms])
    (hl : w.links[i]? = some l) (hp : l.phase = .serving writer) (hc : l.conn = some c)
    (hm : Measured w.now last limit l) : Measured (w.now + ms) last limit l := by
  obtain ⟨hrest, htimers⟩ := pass_of_timely ht
  obtain ⟨-, hlt, hu⟩ := read_of_rest hrest hl hp hc
  exact ⟨htimers _ (deadline_mem_timers hl hp) hlt, hm.silent, fun hne => absurd hu hne⟩

/-- **How long a link may be silent**: in every timely run each served link is measured. -/
theorem measured_after {w : World} (hn : w.links[i]? = none) (hlimit : 0 < w.idleLimit)
    (ht : w.Timely xs) (ha : w.Apart i xs) :
    ∀ l writer, (w.after xs).links[i]? = some l → l.phase = .serving writer →
      (∃ c, l.conn = some c) ∧ Measured (w.after xs).now (w.lastHeard i xs) w.idleLimit l := by
  induction xs using List.reverseRecOn with
  | nil =>
    intro l writer hl
    rw [show w.after [] = w from rfl, hn] at hl
    cases hl
  | append_singleton xs x ih =>
    obtain ⟨htimely, hx⟩ := (w.timely_append xs [x]).1 ht
    have hmeasured := ih htimely (ha.mono (List.prefix_append xs [x]))
    have hlim := w.idleLimit_after xs
    intro l' writer hl' hp'
    rw [after_snoc] at hl'
    rw [after_snoc, lastHeard_snoc]
    cases hl : (w.after xs).links[i]? with
    | none =>
      obtain ⟨-, -, hnow, d, q, es, -, hW, -⟩ := undergo_new hl hl'
      have hrouse : (w.after xs).rouses i x = true := by rw [rouses, hl, hl']
      rw [if_pos hrouse, hnow, ← hlim]
      exact hW.measured hp'
    | some l =>
      have hrouse := rouses_eq hl hl'
      -- no frame comes to a link that is due
      have apart : ∀ before, l.phase = .serving before →
          (w.after xs).now = w.lastHeard i xs + w.idleLimit → ¬ l.unheard < l'.unheard := by
        intro before hp hdue
        have hq := (ha xs x (List.prefix_refl _) ⟨isOpen_of_serving hl hp, hdue⟩).2
        rwa [hrouse, decide_eq_false_iff_not] at hq
      obtain ⟨k, hk, ⟨t, rfl, hput, hT⟩ | ⟨ho, -⟩⟩ := undergo_link hl x
      · obtain rfl := Option.some.inj (hk.symm.trans hl')
        obtain ⟨before, hp⟩ := serving_of_turned hT hp'
        obtain ⟨hc, hm⟩ := hmeasured l before hl hp
        have hnow : ((w.after xs).undergo (.turn i t)).1.now = (w.after xs).now := by
          rw [hput]
          rfl
        rw [hT.conn, hnow, hrouse, ← hlim]
        rw [← hlim] at hm apart hlimit
        refine ⟨hc, ?_⟩
        simpa only [decide_eq_true_eq] using hT.measured hp' hm hlimit (apart before hp)
      · obtain rfl := Option.some.inj (hk.symm.trans hl')
        have hp : l.phase = .serving writer := ho.phase ▸ hp'
        obtain ⟨hc, hm⟩ := hmeasured l writer hl hp
        rw [ho.conn, hrouse]
        refine ⟨hc, ?_⟩
        simp only [decide_eq_true_eq]
        obtain hnow | ⟨ms, rfl⟩ := (w.after xs).undergo_now x
        · rw [hnow]
          exact hm.more ho.deadline ho.unheard_le (apart writer hp)
        · obtain rfl := Option.some.inj (hl.symm.trans hl')
          obtain ⟨c, hc⟩ := hc
          rw [if_neg (Nat.lt_irrefl _)]
          exact measured_pass hx hl hp hc hm

/-! ## Timing out -/

/-- A link that times out is due, and its client is owed the frame that says so. -/
theorem due_of_endedBy {w : World} (hn : w.links[i]? = none) (hlimit : 0 < w.idleLimit)
    (ht : w.Timely ys) (ha : w.Apart i ys) (he : (w.after ys).endedBy i x = some .timeout) :
    w.IsDue i ys ∧ ∃ l giveUp, (w.after (ys ++ [x])).links[i]? = some l ∧
      l.phase = .closing .timeout (some timeoutFrame) giveUp := by
  unfold endedBy at he
  split at he
  case isFalse => cases he
  next hopen =>
  obtain ⟨l', hl', hr⟩ := Option.bind_eq_some_iff.1 he
  split at hr
  case h_2 => cases hr
  next r owed giveUp hp' =>
  obtain rfl := Option.some.inj hr
  obtain ⟨l, writer, hl, hp⟩ := serving_of_isOpen hopen
  obtain ⟨k, hk, ⟨t, rfl, -, hT⟩ | ⟨ho, -⟩⟩ := undergo_link hl x
  · obtain rfl := Option.some.inj (hk.symm.trans hl')
    obtain ⟨-, hm⟩ := measured_after hn hlimit ht ha l writer hl hp
    obtain ⟨rfl, hd⟩ := hT.timeout hp hp'
    have hu : l.unheard = 0 := by
      by_contra hne
      exact absurd (hm.fresh hne).2 (Nat.not_lt.2 hd)
    refine ⟨⟨hopen, (Nat.le_antisymm hm.bound hd).trans (hm.silent hu)⟩, k, giveUp, ?_, hp'⟩
    rw [after_snoc]
    exact hl'
  · obtain rfl := Option.some.inj (hk.symm.trans hl')
    rw [ho.phase, hp] at hp'
    cases hp'

/-- A link that is due stays so until it times out, and time does not pass. -/
theorem due_snoc {w : World} (hn : w.links[i]? = none) (hlimit : 0 < w.idleLimit)
    (ht : w.Timely (ys ++ [x])) (ha : w.Apart i (ys ++ [x])) (hd : w.IsDue i ys) :
    (w.after ys).endedBy i x = some .timeout ∨ w.IsDue i (ys ++ [x]) := by
  obtain ⟨htimely, hx⟩ := (w.timely_append ys [x]).1 ht
  obtain ⟨hopen, hnow⟩ := hd
  obtain ⟨l, writer, hl, hp⟩ := serving_of_isOpen hopen
  obtain ⟨⟨c, hc⟩, hm⟩ :=
    measured_after hn hlimit htimely (ha.mono (List.prefix_append ys [x])) l writer hl hp
  obtain ⟨htold, hrouse⟩ := ha ys x (List.prefix_refl _) ⟨hopen, hnow⟩
  have hcalm : (w.after ys).hub.isClosing c = false := by
    rw [isTold, hl, Option.any_some, hc, Option.any_some] at htold
    exact htold
  have hdeadline : l.deadline = (w.after ys).now := by
    rw [hnow]
    refine hm.silent ?_
    by_contra hne
    have := (hm.fresh hne).1
    omega
  -- it is due afterwards if it is still served and no time has passed
  have still : ∀ l' before, ((w.after ys).undergo x).1.links[i]? = some l' →
      l'.phase = .serving before → ((w.after ys).undergo x).1.now = (w.after ys).now →
      w.IsDue i (ys ++ [x]) := by
    intro l' before hl' hp' hnow'
    rw [IsDue, after_snoc, lastHeard_snoc, hrouse, hnow']
    exact ⟨isOpen_of_serving hl' hp', hnow⟩
  obtain ⟨l', hl', ⟨t, rfl, hput, hT⟩ | ⟨ho, -⟩⟩ := undergo_link hl x
  · have hnow' : ((w.after ys).undergo (.turn i t)).1.now = (w.after ys).now := by
      rw [hput]
      rfl
    obtain ⟨owed, giveUp, hp'⟩ | ⟨after, hp'⟩ := hT.due hp hc hcalm (Nat.le_of_eq hdeadline)
    · left
      rw [endedBy, if_pos hopen, hl', Option.bind_some, hp']
    · exact .inr (still l' after hl' hp' hnow')
  · obtain hnow' | ⟨ms, rfl⟩ := (w.after ys).undergo_now x
    · exact .inr (still l' writer hl' (ho.phase.trans hp) hnow')
    · -- time passes only at rest, and a link that is due is not at rest
      obtain ⟨-, hlt, -⟩ := read_of_rest (pass_of_timely hx).1 hl hp hc
      omega

/-- A link that was due has timed out once all is at rest. -/
theorem timedOut_of_due {w : World} (hn : w.links[i]? = none) (hlimit : 0 < w.idleLimit)
    (ht : w.Timely xs) (ha : w.Apart i xs) (hrest : (w.after xs).firstTurn.isNone = true)
    (hpre : ys <+: xs) (hd : w.IsDue i ys) : w.TimedOut i xs := by
  obtain ⟨zs, rfl⟩ := hpre
  induction zs generalizing ys with
  | nil =>
    rw [List.append_nil] at ht ha hrest
    obtain ⟨hopen, hnow⟩ := hd
    obtain ⟨l, writer, hl, hp⟩ := serving_of_isOpen hopen
    obtain ⟨⟨c, hc⟩, hm⟩ := measured_after hn hlimit ht ha l writer hl hp
    obtain ⟨-, hlt, hu⟩ := read_of_rest hrest hl hp hc
    rw [hm.silent hu] at hlt
    omega
  | cons z zs ih =>
    have hpre : ys ++ [z] <+: ys ++ z :: zs := ⟨zs, by rw [List.append_assoc]; rfl⟩
    have ht' : w.Timely (ys ++ [z]) := by
      obtain ⟨rest, hrest⟩ := hpre
      rw [← hrest] at ht
      exact ((w.timely_append _ _).1 ht).1
    obtain he | hd' := due_snoc hn hlimit ht' (ha.mono hpre) hd
    · exact ⟨ys, z, hpre, he⟩
    · have happ : ys ++ z :: zs = (ys ++ [z]) ++ zs := by rw [List.append_assoc]; rfl
      rw [happ] at ht ha hrest ⊢
      exact ih hd' ht ha hrest

/-! ## What does not count -/

end World

/-- A turn that writes to the client brings nothing from it. -/
theorem Turned.unheard_le (a : Turned w l l' h' es)
    (hw : l'.wire.frames.drop l.wire.frames.length ≠ []) : l'.unheard ≤ l.unheard := by
  have heard : ∀ {f}, l.inbound = .frame f :: l'.inbound → l'.unheard ≤ l.unheard := fun hi => by
    rw [unheard_cons hi]
    exact Nat.le_succ _
  cases a with
  | ended _ _ he =>
    obtain ⟨_, _, rfl, -⟩ := he.link
    exact absurd List.drop_length hw
  | woke _ _ hh | answered _ _ hh | routed _ _ hh => exact heard hh.next
  | crashed _ _ hh => exact heard hh.next
  | handed _ _ _ hg | failed _ _ _ hg =>
    obtain ⟨_, rfl⟩ := hg.link
    exact Nat.le_refl _
  | drained => exact absurd (by rw [Wire.frames_drain, List.drop_nil]) hw
  | ready | jammed | paid | parted | noticed => exact Nat.le_refl _

namespace World

/-- What is written to a client is nothing that it sends. -/
theorem rouses_of_wrote {x : Incident} (hw : w.wrote i x ≠ []) : w.rouses i x = false := by
  cases hl' : (w.undergo x).1.links[i]? with
  | none => simp [rouses, hl']
  | some l' =>
    cases hl : w.links[i]? with
    | none =>
      obtain ⟨-, -, -, d, p, es, -, hW, -⟩ := undergo_new hl hl'
      rw [wrote, underWay_eq hl', hW.frames, List.drop_nil] at hw
      exact absurd rfl hw
    | some l =>
      rw [wrote, underWay_eq hl, underWay_eq hl'] at hw
      rw [rouses_eq hl hl', decide_eq_false_iff_not, Nat.not_lt]
      obtain ⟨k, hk, ⟨t, -, -, hT⟩ | ⟨ho, -⟩⟩ := undergo_link hl x
      · obtain rfl := Option.some.inj (hk.symm.trans hl')
        exact hT.unheard_le hw
      · obtain rfl := Option.some.inj (hk.symm.trans hl')
        rw [ho.frames] at hw
        exact absurd List.drop_length hw

/-- What another link does, or what comes to it, is nothing that this client sends. -/
theorem rouses_of_other {x : Incident} {j : Nat} (hij : j ≠ i)
    (hx : (∃ t, x = .turn j t) ∨ ∃ a, x = .arrive j a) : w.rouses i x = false := by
  have hsame : (w.undergo x).1.links[i]? = w.links[i]? := by
    obtain ⟨t, rfl⟩ | ⟨a, rfl⟩ := hx
    · obtain hu | ⟨k, k', h, es, -, hu, -⟩ := w.undergo_turn j t <;> rw [hu]
      exact links_put_ne k' h hij
    · simp only [undergo]
      split
      · next k hk => exact links_put_ne (k.hear a) w.hub hij
      · rfl
  rw [rouses, hsame]
  cases w.links[i]? with
  | none => rfl
  | some l => exact decide_eq_false (Nat.lt_irrefl _)

/-! ## Top theorem -/

/-- **Silence is measured exactly.**  Whatever the settings, and in every timely run: a link that is
open has not been silent beyond the limit; one that times out does so at the very instant when the
limit is reached, and its client is told; once all is at rest, those that have reached it have timed
out, and no others; and neither what is written to the client nor what others do or send counts as a
sign of life. -/
theorem keepalive_exact (s : RelaySettings) (site : Http.Site) (i : Nat) (xs : List Incident)
    (ht : (start (.ofSettings s) site).Timely xs) (ha : (start (.ofSettings s) site).Apart i xs) :
    let w := start (.ofSettings s) site
    (∀ ys, ys <+: xs → (w.after ys).isOpen i = true →
      (w.after ys).now ≤ w.lastHeard i ys + w.idleLimit) ∧
    (∀ ys x, ys ++ [x] <+: xs → (w.after ys).endedBy i x = some .timeout →
      w.IsDue i ys ∧ ∃ l giveUp, (w.after (ys ++ [x])).links[i]? = some l ∧
        l.phase = .closing .timeout (some timeoutFrame) giveUp) ∧
    ((w.after xs).firstTurn.isNone = true →
      (w.TimedOut i xs ↔ ∃ ys, ys <+: xs ∧ w.IsDue i ys)) ∧
    ∀ ys x, ys ++ [x] <+: xs →
      ((w.after ys).wrote i x ≠ [] ∨
        ∃ j, j ≠ i ∧ ((∃ t, x = .turn j t) ∨ ∃ a, x = .arrive j a)) →
      w.lastHeard i (ys ++ [x]) = w.lastHeard i ys := by
  intro w
  have hn : w.links[i]? = none := rfl
  have hlimit : 0 < w.idleLimit := by
    have hone : 1 ≤ max s.pingInterval.toNat 1 := Nat.le_max_right _ _
    exact Nat.mul_pos (Nat.add_pos_left hone _) (by decide)
  have timely : ∀ {ys}, ys <+: xs → w.Timely ys := by
    rintro ys ⟨zs, rfl⟩
    exact ((w.timely_append ys zs).1 ht).1
  have ended : ∀ ys x, ys ++ [x] <+: xs → (w.after ys).endedBy i x = some .timeout →
      w.IsDue i ys ∧ ∃ l giveUp, (w.after (ys ++ [x])).links[i]? = some l ∧
        l.phase = .closing .timeout (some timeoutFrame) giveUp := by
    intro ys x hpre he
    have hys := (List.prefix_append ys [x]).trans hpre
    exact due_of_endedBy hn hlimit (timely hys) (ha.mono hys) he
  refine ⟨fun ys hpre hopen => ?_, ended, fun hrest => ⟨?_, ?_⟩, fun ys x hpre hx => ?_⟩
  · obtain ⟨l, writer, hl, hp⟩ := serving_of_isOpen hopen
    exact (measured_after hn hlimit (timely hpre) (ha.mono hpre) l writer hl hp).2.now_le
  · rintro ⟨ys, x, hpre, he⟩
    exact ⟨ys, (List.prefix_append ys [x]).trans hpre, (ended ys x hpre he).1⟩
  · rintro ⟨ys, hpre, hd⟩
    exact timedOut_of_due hn hlimit ht ha hrest hpre hd
  · have hrouse : (w.after ys).rouses i x = false := by
      obtain hw | ⟨j, hij, hx⟩ := hx
      · exact rouses_of_wrote hw
      · exact rouses_of_other hij hx
    rw [lastHeard_snoc, hrouse]
    rfl

/-- A ping every second, and one more second for the answer. -/
def everySecond : RelaySettings := { pingInterval := 1, pingTimeout := 1 }

/-- A client that does not read what it is sent. -/
def deaf : Dial :=
  { name := "only", address := "127.0.0.1:40000", path := "/websocket/7", silent := true,
    room := 65536 }

/-- The client gives one sign of life, and falls silent. -/
def fallingSilent : List Incident :=
  [.act (.connect deaf), .pass 1000, .turn 0 .write, .pass 500,
    .arrive 0 (.frame (.pong [])), .turn 0 .read, .pass 500, .turn 0 .write, .pass 1000,
    .turn 0 .write, .pass 500, .turn 0 .read, .turn 0 .close, .turn 0 .close]

theorem keepalive_fallingSilent :
    let w := start (.ofSettings everySecond) none
    w.Timely fallingSilent ∧ w.Apart 0 fallingSilent ∧ w.TimedOut 0 fallingSilent ∧
      ∀ ys x, ys ++ [x] <+: fallingSilent → (w.after ys).endedBy 0 x = some .timeout →
        w.IsDue 0 ys := by
  intro w
  have ht : w.Timely fallingSilent := by decide +kernel
  have ha : w.Apart 0 fallingSilent := apart_of_take (by decide +kernel)
  have hrest : (w.after fallingSilent).firstTurn.isNone = true := by decide +kernel
  have hd : w.IsDue 0 (fallingSilent.take 11) := by decide +kernel
  obtain ⟨-, hended, hiff, -⟩ := keepalive_exact everySecond none 0 fallingSilent ht ha
  exact ⟨ht, ha, (hiff hrest).2 ⟨_, ⟨_, List.take_append_drop 11 _⟩, hd⟩,
    fun ys x hpre he => (hended ys x hpre he).1⟩

end World

end Switchboard.Relay
