import Mathlib.Data.Fintype.Basic
import Switchboard.Proofs.Relay.Standing

/-!
# Who answers is never given up

Pings go out a ping interval apart, to the instant, as long as what is written to the client is
taken at once (`Prompt`).  So between two pings there is never more than the interval, and a client
that answers each of them before the ping timeout is over (`Responsive`) has always been heard
since the ping before the one that it still owes an answer to: it never comes to be due.

    now ≤ l.nextPing ≤ now + interval
    the oldest ping without an answer was sent at t → t ≤ lastHeard + interval and now < t + timeout
-/

namespace Switchboard.Relay

/-! ## Specification -/

def isPing : Frame → Bool
  | .ping _ => true
  | _ => false

def isPong : Arrival → Bool
  | .frame (.pong _) => true
  | _ => false

/-- Does time pass? -/
def Incident.isPass : Incident → Bool
  | .pass _ => true
  | _ => false

/-- How many pongs a link has still to hear. -/
def Link.pongs (l : Link) : Nat := l.inbound.countP isPong

namespace World

/-- How long an answer to a ping is waited for. -/
def pongTime (w : World) : Nat := w.hub.policy.pingTimeout * 1000

/-- Does an incident put a ping on its way to the client of a link? -/
def pings (w : World) (i : Nat) (x : Incident) : Bool := (w.wrote i x).any isPing

/-- Does an incident bring a pong to a link? -/
def bringsPong (w : World) (i : Nat) (x : Incident) : Bool :=
  match w.links[i]?, (w.undergo x).1.links[i]? with
  | some l, some l' => decide (l.pongs < l'.pongs)
  | _, _ => false

/-- Is the writing hand of a link in the middle of a frame? -/
def isSending (w : World) (i : Nat) : Bool :=
  (w.links[i]?).any fun l =>
    match l.phase with
    | .serving .sending => true
    | _ => false

/-- What is written to the client of a link is taken at once: no time passes while the writing hand
is in the middle of a frame. -/
def Prompt (w : World) (i : Nat) (xs : List Incident) : Prop :=
  ∀ ys ms, ys ++ [.pass ms] <+: xs → (w.after ys).isSending i = false

/-- As long as its link is open, a client answers every ping, and before the time for it is over. -/
def Responsive (w : World) (i : Nat) (xs : List Incident) : Prop :=
  ∀ ys x zs, ys ++ x :: zs <+: xs → (w.after ys).pings i x = true →
    (w.after (ys ++ x :: zs)).isOpen i = true →
    (w.after ys).now + w.pongTime ≤ (w.after (ys ++ x :: zs)).now →
    ∃ vs y, vs ++ [y] <+: zs ∧ (w.after (ys ++ x :: vs)).bringsPong i y = true ∧
      (w.after (ys ++ x :: vs)).now < (w.after ys).now + w.pongTime

/-- At `t` a ping was sent to the client of a link, and nothing has come from it since. -/
def Unanswered (w : World) (i : Nat) (xs : List Incident) (t : Nat) : Prop :=
  ∃ ys x zs, xs = ys ++ x :: zs ∧ (w.after ys).pings i x = true ∧ (w.after ys).now = t ∧
    ∀ vs y, vs ++ [y] <+: zs → (w.after (ys ++ x :: vs)).rouses i y = false

/-- A served link between two pings, and how far its client may be behind with its answers. -/
structure Paced (w : World) (i : Nat) (xs : List Incident) (l : Link) : Prop where
  early : (w.after xs).now < w.lastHeard i xs + w.idleLimit
  next : l.phase ≠ .serving .stopped →
    (w.after xs).now ≤ l.nextPing ∧ l.nextPing ≤ (w.after xs).now + w.pingPeriod
  answered : l.phase ≠ .serving .stopped →
    l.nextPing ≤ w.lastHeard i xs + w.pingPeriod ∨
      ∃ t, w.Unanswered i xs t ∧ t ≤ w.lastHeard i xs + w.pingPeriod

end World

variable {w : World} {l l' : Link} {c : ConnId} {h' : Hub} {es : List Event}

/-! ## Pongs and pings -/

theorem isFrame_of_isPong {x : Arrival} (h : isPong x = true) : isFrame x = true := by
  cases x with
  | frame => rfl
  | fault | finished => cases h

theorem pongs_of_suffix (hs : l'.inbound <:+ l.inbound) : l'.pongs ≤ l.pongs := by
  obtain ⟨front, hi⟩ := hs
  rw [Link.pongs, Link.pongs, ← hi, List.countP_append]
  exact Nat.le_add_left _ _

/-- A pong that has come is a frame that has come. -/
theorem unheard_lt_of_pongs {xs : List Arrival} (hi : l'.inbound = l.inbound ++ xs)
    (hx : l.pongs < l'.pongs) : l.unheard < l'.unheard := by
  rw [Link.pongs, Link.pongs, hi, List.countP_append] at hx
  rw [Link.unheard, Link.unheard, hi, List.countP_append]
  have hle : xs.countP isPong ≤ xs.countP isFrame :=
    List.countP_mono_left fun _ _ => isFrame_of_isPong
  omega

/-- What has come is heard from the front, and comes in behind. -/
theorem Turned.inbound (a : Turned w l l' h' es) :
    l'.inbound <:+ l.inbound ∨ ∃ xs, l'.inbound = l.inbound ++ xs := by
  cases a with
  | ended _ _ he =>
    obtain ⟨_, _, rfl, hs⟩ := he.link
    exact .inl hs
  | woke _ _ hh | answered _ _ hh | routed _ _ hh =>
    left
    rw [hh.next]
    exact List.suffix_cons _ _
  | crashed _ _ hh =>
    left
    rw [hh.next]
    exact List.suffix_cons _ _
  | handed _ _ _ hg | failed _ _ _ hg =>
    obtain ⟨_, rfl⟩ := hg.link
    exact .inl (List.suffix_refl _)
  | drained => exact .inr ⟨_, rfl⟩
  | ready | jammed | paid | parted | noticed => exact .inl (List.suffix_refl _)

/-- The first ping is due a ping interval after a link begins. -/
theorem Welcomed.nextPing {d : Dial} {p : PeerId} {writer : Writer} (a : Welcomed w d p l h' es)
    (hp : l.phase = .serving writer) : l.nextPing = w.now + w.pingPeriod := by
  cases a with
  | unqueued | refused => cases hp
  | served _ _ hl | undone _ _ hl => rw [hl]

/-- A writing hand that goes on keeps the time of the next ping, or it sends one that was due. -/
theorem Turned.paced {writer : Writer} (a : Turned w l l' h' es)
    (hp' : l'.phase = .serving writer) (hw : writer ≠ .stopped) :
    (∃ before, l.phase = .serving before ∧ before ≠ .stopped) ∧
      (l'.nextPing = l.nextPing ∨
        l.nextPing ≤ w.now ∧ l'.nextPing = w.pingAfter l ∧
          l'.wire.frames.drop l.wire.frames.length = [.ping []]) := by
  cases a with
  | woke | answered | routed | drained | noticed => exact ⟨⟨writer, hp', hw⟩, .inl rfl⟩
  | ready hp => exact ⟨⟨_, hp, by simp⟩, .inl rfl⟩
  | handed hp hc hs hg hm hwire =>
    refine ⟨⟨_, hp, by simp⟩, ?_⟩
    cases hg with
    | queued => exact .inl rfl
    | ping hr hd => exact .inr ⟨hd, rfl, Wire.drop_send hwire⟩
  | jammed | failed =>
    cases hp'
    exact absurd rfl hw
  | ended | crashed | paid | parted => cases hp'

namespace World

variable {i : Nat} {x : Incident} {xs : List Incident}

theorem rouses_of_bringsPong (hb : w.bringsPong i x = true) : w.rouses i x = true := by
  unfold bringsPong at hb
  cases hl : w.links[i]? with
  | none => simp [hl] at hb
  | some l =>
    obtain ⟨l', hl', hcase⟩ := undergo_link hl x
    rw [hl, hl'] at hb
    have hx : l.pongs < l'.pongs := of_decide_eq_true hb
    rw [rouses_eq hl hl', decide_eq_true_iff]
    obtain ⟨t, -, -, hT⟩ | ⟨ho, -⟩ := hcase
    · obtain hs | ⟨xs, hi⟩ := hT.inbound
      · exact absurd (pongs_of_suffix hs) (Nat.not_le.2 hx)
      · exact unheard_lt_of_pongs hi hx
    · obtain hi | ⟨y, hi⟩ := ho.inbound
      · exact unheard_lt_of_pongs (hi.trans (List.append_nil _).symm) hx
      · exact unheard_lt_of_pongs hi hx

theorem Unanswered.snoc {t : Nat} (a : w.Unanswered i xs t)
    (hx : (w.after xs).rouses i x = false) : w.Unanswered i (xs ++ [x]) t := by
  obtain ⟨ys, y, zs, rfl, hping, ht, hquiet⟩ := a
  refine ⟨ys, y, zs ++ [x], by simp, hping, ht, fun vs z hv => ?_⟩
  obtain hv | hv := List.prefix_concat_iff.1 hv
  · obtain ⟨rfl, hz⟩ := List.append_inj' hv rfl
    obtain rfl := List.singleton_inj.1 hz
    exact hx
  · exact hquiet vs z hv

/-- A responsive client owes no answer for longer than it may. -/
theorem Unanswered.now_lt {t : Nat} (a : w.Unanswered i xs t) (hr : w.Responsive i xs)
    (ho : (w.after xs).isOpen i = true) : (w.after xs).now < t + w.pongTime := by
  obtain ⟨ys, y, zs, rfl, hping, rfl, hquiet⟩ := a
  by_contra hle
  obtain ⟨vs, z, hv, hb, -⟩ := hr ys y zs (List.prefix_refl _) hping ho (Nat.not_lt.1 hle)
  have hq := hquiet vs z hv
  rw [rouses_of_bringsPong hb] at hq
  cases hq

theorem Responsive.mono {ys : List Incident} (a : w.Responsive i xs) (hp : ys <+: xs) :
    w.Responsive i ys :=
  fun us x zs hz => a us x zs (hz.trans hp)

theorem Prompt.mono {ys : List Incident} (a : w.Prompt i xs) (hp : ys <+: xs) : w.Prompt i ys :=
  fun us ms hz => a us ms (hz.trans hp)

theorem pingPeriod_after (w : World) (xs : List Incident) :
    (w.after xs).pingPeriod = w.pingPeriod := by
  rw [pingPeriod, pingPeriod, (w.work_after xs).later.policy]

theorem idleLimit_eq (w : World) : w.idleLimit = w.pingPeriod + w.pongTime := Nat.add_mul _ _ _

/-! ## Between two pings -/

/-- At rest a writing hand that is not in the middle of a frame waits for the next ping. -/
theorem nextPing_of_rest {writer : Writer} (hr : w.firstTurn.isNone = true)
    (hl : w.links[i]? = some l) (hp : l.phase = .serving writer) (hc : l.conn = some c)
    (hs : w.Standing) (hsending : l.phase ≠ .serving .sending) :
    l.phase = .serving .idle ∧ w.now < l.nextPing ∧ l.nextPing ∈ w.timers := by
  obtain ⟨hcalm, -, -⟩ := read_of_rest hr hl hp hc
  have hidle : l.phase = .serving .idle := by
    cases writer with
    | idle => exact hp
    | sending => exact absurd hp hsending
    | stopped =>
      rw [hs.stopped i l c hl hp hc] at hcalm
      cases hcalm
  refine ⟨hidle, ?_, ?_⟩
  · have hwrite : w.write i l = none := by
      have ht := turn_of_rest hr hl .write
      simpa only [turn, hl] using ht
    simp only [write, hidle, hc, hcalm, Bool.false_eq_true, if_false] at hwrite
    split at hwrite
    · cases hwrite
    · split at hwrite
      · cases hwrite
      · next hd => exact Nat.not_le.1 hd
  · refine List.mem_append_left _ (List.mem_flatMap.2 ⟨l, List.mem_of_getElem? hl, ?_⟩)
    rw [linkTimers, hidle]
    exact .tail _ (.head _)

/-- Time passes up to the next ping at most, and who owes an answer has still time for it. -/
theorem Paced.pass {writer : Writer} {ms : Nat} (a : w.Paced i xs l) (hs : (w.after xs).Standing)
    (ht : (w.after xs).Timely [.pass ms]) (hsending : l.phase ≠ .serving .sending)
    (hl : (w.after xs).links[i]? = some l) (hp : l.phase = .serving writer)
    (hr : w.Responsive i (xs ++ [.pass ms])) (hlimit : 0 < w.pongTime) :
    w.Paced i (xs ++ [.pass ms]) l := by
  obtain ⟨hrest, htimers⟩ := pass_of_timely ht
  obtain ⟨c, hc⟩ := hs.taken i l writer hl hp
  obtain ⟨hidle, hlt, hmem⟩ := nextPing_of_rest hrest hl hp hc hs hsending
  have hgoes : l.phase ≠ .serving .stopped := by simp [hidle]
  obtain ⟨-, hnext⟩ := a.next hgoes
  have hbound := htimers l.nextPing hmem hlt
  have hl' : ((w.after xs).undergo (.pass ms)).1.links[i]? = some l := hl
  have hrouse : (w.after xs).rouses i (.pass ms) = false := by
    rw [rouses_eq hl hl']
    exact decide_eq_false (Nat.lt_irrefl _)
  have hlast : w.lastHeard i (xs ++ [.pass ms]) = w.lastHeard i xs := by
    rw [lastHeard_snoc, hrouse]
    rfl
  have hnow : (w.after (xs ++ [.pass ms])).now = (w.after xs).now + ms := by
    rw [after_snoc]
    rfl
  have hanswered : l.nextPing ≤ w.lastHeard i xs + w.pingPeriod ∨
      ∃ t, w.Unanswered i (xs ++ [.pass ms]) t ∧ t ≤ w.lastHeard i xs + w.pingPeriod :=
    (a.answered hgoes).imp_right fun ⟨t, hu, hle⟩ => ⟨t, hu.snoc hrouse, hle⟩
  refine ⟨?_, fun _ => ⟨?_, ?_⟩, fun _ => ?_⟩
  · rw [hlast, hnow, idleLimit_eq]
    obtain hle | ⟨t, hu, hle⟩ := hanswered
    · omega
    · have hopen : (w.after (xs ++ [.pass ms])).isOpen i = true := by
        rw [after_snoc]
        exact isOpen_of_serving hl' hp
      have hlate := hu.now_lt hr hopen
      omega
  · omega
  · omega
  · rwa [hlast]

/-- At one instant: something comes from the client, or a ping is sent that was due, or neither. -/
theorem Paced.instant (a : w.Paced i xs l)
    (hnow : ((w.after xs).undergo x).1.now = (w.after xs).now)
    (hgoes : l'.phase ≠ .serving .stopped → l.phase ≠ .serving .stopped ∧
      (l'.nextPing = l.nextPing ∨ l.nextPing ≤ (w.after xs).now ∧
        l'.nextPing = (w.after xs).pingAfter l ∧ (w.after xs).pings i x = true))
    (hlimit : 0 < w.idleLimit) : w.Paced i (xs ++ [x]) l' := by
  have hnow' : (w.after (xs ++ [x])).now = (w.after xs).now := by rw [after_snoc, hnow]
  have hnext : l'.phase ≠ .serving .stopped →
      (w.after xs).now ≤ l'.nextPing ∧ l'.nextPing ≤ (w.after xs).now + w.pingPeriod := by
    intro hs
    obtain ⟨hbefore, he | ⟨hd, he, -⟩⟩ := hgoes hs
    · rw [he]
      exact a.next hbefore
    · obtain ⟨hle, -⟩ := a.next hbefore
      rw [he, pingAfter, pingPeriod_after]
      split <;> omega
  rw [← hnow'] at hnext
  refine ⟨?_, hnext, fun hs => ?_⟩
  · have hearly := a.early
    rw [hnow', lastHeard_snoc]
    split <;> omega
  · rw [lastHeard_snoc]
    cases hrouse : (w.after xs).rouses i x with
    | true =>
      -- whatever it is that has come, no ping was sent after it
      have hbound := (hnext hs).2
      rw [hnow'] at hbound
      exact .inl hbound
    | false =>
      rw [if_neg Bool.false_ne_true]
      obtain ⟨hbefore, he | ⟨hd, -, hping⟩⟩ := hgoes hs
      · rw [he]
        obtain hle | ⟨t, hu, hle⟩ := a.answered hbefore
        · exact .inl hle
        · exact .inr ⟨t, hu.snoc hrouse, hle⟩
      · right
        obtain hle | ⟨t, hu, hle⟩ := a.answered hbefore
        · have hlate := (a.next hbefore).1
          refine ⟨(w.after xs).now, ⟨xs, x, [], rfl, hping, rfl, fun vs y hv => ?_⟩, by omega⟩
          cases List.append_eq_nil_iff.1 (List.prefix_nil.1 hv) with
          | intro _ hy => cases hy
        · exact ⟨t, hu.snoc hrouse, hle⟩

/-- **A responsive client keeps its link paced**, in every timely run. -/
theorem paced_after {w : World} (hn : w.links[i]? = none) (hs : w.Standing)
    (hlimit : 0 < w.pongTime) (ht : w.Timely xs) (hp : w.Prompt i xs) (hr : w.Responsive i xs) :
    ∀ l writer, (w.after xs).links[i]? = some l → l.phase = .serving writer → w.Paced i xs l := by
  induction xs using List.reverseRecOn with
  | nil =>
    intro l writer hl
    rw [show w.after [] = w from rfl, hn] at hl
    cases hl
  | append_singleton xs x ih =>
    have hpre : xs <+: xs ++ [x] := List.prefix_append xs [x]
    obtain ⟨htimely, hx⟩ := (w.timely_append xs [x]).1 ht
    have hpaced := ih htimely (hp.mono hpre) (hr.mono hpre)
    have hidle : 0 < w.idleLimit := by
      rw [idleLimit_eq]
      omega
    intro l' writer hl' hserving
    rw [after_snoc] at hl'
    cases hl : (w.after xs).links[i]? with
    | none =>
      -- a link that begins has just been heard, and its first ping is still to come
      obtain ⟨-, -, hnow, d, q, es, -, hW, -⟩ := undergo_new hl hl'
      have hrouse : (w.after xs).rouses i x = true := by rw [rouses, hl, hl']
      have hlast : w.lastHeard i (xs ++ [x]) = (w.after xs).now := by
        rw [lastHeard_snoc, if_pos hrouse]
      have hping : l'.nextPing = (w.after xs).now + w.pingPeriod := by
        rw [← pingPeriod_after w xs]
        exact hW.nextPing hserving
      refine ⟨?_, fun _ => ?_, fun _ => .inl ?_⟩
      · rw [hlast, after_snoc, hnow]
        exact Nat.lt_add_of_pos_right hidle
      · rw [after_snoc, hnow, hping]
        exact ⟨Nat.le_add_right _ _, Nat.le_refl _⟩
      · exact Nat.le_of_eq (by rw [hlast, hping])
    | some l =>
      obtain ⟨k, hk, hcase⟩ := undergo_link hl x
      obtain rfl := Option.some.inj (hk.symm.trans hl')
      obtain ⟨t, rfl, hput, hT⟩ | ⟨ho, -⟩ := hcase
      · obtain ⟨before, hbefore⟩ := serving_of_turned hT hserving
        refine (hpaced l before hl hbefore).instant (by rw [hput]; rfl) (fun hgoes => ?_) hidle
        obtain ⟨⟨b, hb, hne⟩, he⟩ := hT.paced hserving fun hw => hgoes (hw ▸ hserving)
        refine ⟨by simpa [hb] using hne, ?_⟩
        obtain he | ⟨hd, hnext, hdrop⟩ := he
        · exact .inl he
        · refine .inr ⟨hd, hnext, ?_⟩
          rw [pings, wrote, underWay_eq hl, underWay_eq hl', hdrop]
          rfl
      · have hbefore : l.phase = .serving writer := ho.phase ▸ hserving
        obtain hnow | ⟨ms, rfl⟩ := (w.after xs).undergo_now x
        · refine (hpaced l writer hl hbefore).instant hnow (fun hgoes => ?_) hidle
          exact ⟨ho.phase ▸ hgoes, .inl ho.nextPing⟩
        · obtain rfl := Option.some.inj (hl.symm.trans hl')
          have hsending : l.phase ≠ .serving .sending := fun hsending => by
            have hprompt := hp xs ms (List.prefix_refl _)
            rw [isSending, hl, Option.any_some, hsending] at hprompt
            cases hprompt
          exact (hpaced l writer hl hbefore).pass (hs.after xs) hx hsending hl hbefore hr hlimit

/-! ## Top theorem -/

/-- **Who answers is never given up.**  Whatever the settings, in every timely run, and whatever is
sent to a client or comes from it: if what is written to it is taken at once, and it answers every
ping before the ping timeout is over, then its link does not time out. -/
theorem responsive_never_timedOut (s : RelaySettings) (site : Http.Site) (i : Nat)
    (xs : List Incident) (ht : (start (.ofSettings s) site).Timely xs)
    (hp : (start (.ofSettings s) site).Prompt i xs)
    (hr : (start (.ofSettings s) site).Responsive i xs) :
    ¬ (start (.ofSettings s) site).TimedOut i xs := by
  have hpong : 0 < (start (.ofSettings s) site).pongTime := by
    have hone : 1 ≤ max s.pingTimeout.toNat 1 := Nat.le_max_right _ _
    exact Nat.mul_pos hone (by decide)
  have hlimit : 0 < (start (.ofSettings s) site).idleLimit := by
    rw [idleLimit_eq]
    omega
  have hn : (start (.ofSettings s) site).links[i]? = none := rfl
  have timely : ∀ {ys}, ys <+: xs → (start (.ofSettings s) site).Timely ys := by
    rintro ys ⟨zs, rfl⟩
    exact ((timely_append _ ys zs).1 ht).1
  -- an open link is never due, so nothing can keep it from being measured exactly
  have undue : ∀ ys, ys <+: xs → ¬ (start (.ofSettings s) site).IsDue i ys := by
    rintro ys hpre ⟨hopen, hdue⟩
    obtain ⟨l, writer, hl, hserving⟩ := serving_of_isOpen hopen
    have hearly := (paced_after hn (standing_start _ site) hpong (timely hpre) (hp.mono hpre)
      (hr.mono hpre) l writer hl hserving).early
    omega
  have apart : (start (.ofSettings s) site).Apart i xs := fun ys x hpre hd =>
    absurd hd (undue ys ((List.prefix_append ys [x]).trans hpre))
  rintro ⟨ys, x, hpre, he⟩
  have hys := (List.prefix_append ys [x]).trans hpre
  exact undue ys hys (due_of_endedBy hn hlimit (timely hys) (apart.mono hys) he).1

/-! ### Runs that are given -/

/-- The parts of a run, by their places in it. -/
theorem take_of_prefix {ys zs : List Incident} (h : ys ++ x :: zs <+: xs) :
    ∃ hn : ys.length < xs.length, xs.take ys.length = ys ∧ xs[ys.length] = x ∧
      ys.length + 1 + zs.length ≤ xs.length ∧
      xs.take (ys.length + 1 + zs.length) = ys ++ x :: zs := by
  obtain ⟨rest, rfl⟩ := h
  have hlen : ys.length + 1 + zs.length = (ys ++ x :: zs).length := by
    simp only [List.length_append, List.length_cons]
    omega
  refine ⟨by simp, by simp, by simp, by simp; omega, ?_⟩
  rw [hlen, List.take_left]

theorem prompt_of_take (h : ∀ n : Fin xs.length, (w.after (xs.take n)).isSending i = true →
    xs[n].isPass = false) : w.Prompt i xs := by
  intro ys ms hpre
  obtain ⟨hn, hys, hx, -, -⟩ := take_of_prefix hpre
  by_contra hs
  rw [Bool.not_eq_false] at hs
  have hq := h ⟨ys.length, hn⟩ (hys.symm ▸ hs)
  rw [Fin.getElem_fin, hx] at hq
  cases hq

theorem responsive_of_take (h : ∀ n : Fin xs.length, (w.after (xs.take n)).pings i xs[n] = true →
    ∀ m ≤ xs.length, n < m → (w.after (xs.take n)).now + w.pongTime ≤ (w.after (xs.take m)).now →
    ∃ k : Fin xs.length, n < k ∧ k < m ∧ (w.after (xs.take k)).bringsPong i xs[k] = true ∧
      (w.after (xs.take k)).now < (w.after (xs.take n)).now + w.pongTime) :
    w.Responsive i xs := by
  intro ys x zs hpre hping _ hlate
  obtain ⟨hn, hys, hx, hle, hm⟩ := take_of_prefix hpre
  obtain ⟨⟨k, hk⟩, hnk, hkm, hb, hnow⟩ := h ⟨ys.length, hn⟩
    (by rw [Fin.getElem_fin, hys, hx]; exact hping) _ hle (by simp; omega)
    (by rw [hys, hm]; exact hlate)
  simp only [Fin.mk_lt_mk, Fin.getElem_fin, hys] at hnk hkm hb hnow
  -- the pong lies as far behind the ping as it does in the whole run
  obtain ⟨j, rfl⟩ : ∃ j, k = ys.length + 1 + j := ⟨k - (ys.length + 1), by omega⟩
  have hj : j < zs.length := by omega
  have hpong : ys ++ x :: zs.take j ++ [zs[j]] <+: xs := by
    refine List.IsPrefix.trans ?_ hpre
    rw [List.append_assoc, List.cons_append, List.take_append_getElem hj]
    exact (List.prefix_append_right_inj ys).2 ((List.prefix_cons_inj x).2 (List.take_prefix _ _))
  obtain ⟨hk', htake, hget, -, -⟩ := take_of_prefix hpong
  have hlen : (ys ++ x :: zs.take j).length = ys.length + 1 + j := by
    simp only [List.length_append, List.length_cons, List.length_take]
    omega
  simp only [hlen] at htake hget
  rw [htake] at hb hnow
  rw [hget] at hb
  refine ⟨zs.take j, zs[j], ?_, hb, hnow⟩
  rw [List.take_append_getElem hj]
  exact List.take_prefix _ _

/-- A client that hears from another one, which leaves, and answers each ping at the last moment. -/
def answering : List Incident :=
  [.act (.connect deaf), .act (.connect { deaf with name := "other", path := "/websocket/8" }),
    .arrive 1 (.frame (.text "[8,7,0]")), .turn 1 .read, .turn 0 .write, .arrive 1 .finished,
    .turn 1 .read, .turn 1 .close, .pass 1000, .turn 0 .write, .pass 999,
    .arrive 0 (.frame (.pong [])), .turn 0 .read, .pass 1, .turn 0 .write, .pass 999,
    .arrive 0 (.frame (.pong [])), .turn 0 .read, .pass 1, .turn 0 .write]

set_option synthInstance.maxSize 512 in
theorem answering_not_timedOut :
    let w := start (.ofSettings everySecond) none
    w.Timely answering ∧ w.Prompt 0 answering ∧ w.Responsive 0 answering ∧
      (w.after answering).isOpen 0 = true ∧ w.idleLimit < (w.after answering).now ∧
      ¬ w.TimedOut 0 answering := by
  intro w
  have ht : w.Timely answering := by decide +kernel
  have hp : w.Prompt 0 answering := prompt_of_take (by decide +kernel)
  have hr : w.Responsive 0 answering := responsive_of_take (by decide +kernel)
  exact ⟨ht, hp, hr, by decide +kernel, by decide +kernel,
    responsive_never_timedOut everySecond none 0 answering ht hp hr⟩

end World

end Switchboard.Relay
