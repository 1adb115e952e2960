import Switchboard.Proofs.Hub.Likeness
import Switchboard.Proofs.Relay.Turns

/-!
# The same turn in two worlds

Two worlds of one time whose hubs are alike (`Abreast`), and in them one link, the same in both but
for what has come from its client.  As long as it hears the same next, it takes the same turn in
both worlds (`Moved`): the links after it differ in no more than before, the hubs are alike, and
the same is reported.

    Option.Rel (Moved c I w v i) (w.turn i t) (v.turn i t)
-/

namespace Switchboard.Relay

/-- Two worlds of one time, with hubs that differ in the mailbox of `c` at most. -/
structure Abreast (c : Option ConnId) (w v : World) : Prop where
  hub : Hub.Alike c w.hub v.hub
  now : v.now = w.now

/-- The link `i` has done the same in two worlds; what came to it is related by `I`. -/
inductive Moved (c : Option ConnId) (I : List Arrival → List Arrival → Prop) (w v : World)
    (i : Nat) : Happening → Happening → Prop
  | intro {l : Link} {ys : List Arrival} {h k : Hub} {es : List Event} (hh : Hub.Alike c h k)
      (hi : I l.inbound ys) : Moved c I w v i (w.put i l h, es) (v.put i (l.past ys) k, es)

/-- The next thing to hear is the same, or there is nothing to hear. -/
def HeardAlike (I : List Arrival → List Arrival → Prop) (xs ys : List Arrival) : Prop :=
  (xs = [] ∧ ys = []) ∨ ∃ x xs' ys', xs = x :: xs' ∧ ys = x :: ys' ∧ I xs' ys'

variable {c : Option ConnId} {I : List Arrival → List Arrival → Prop} {w v : World} {i : Nat}
variable {l : Link} {ys : List Arrival} {d : ConnId}

theorem Moved.cons {a b : Happening} (m : Moved c I w v i a b) (e : Event) :
    Moved c I w v i (a.1, e :: a.2) (b.1, e :: b.2) := by
  cases m with
  | intro hh hi => exact .intro hh hi

theorem Moved.of_hubs {a b : Happening} {h k : Hub}
    (m : Moved c I { w with hub := h } { v with hub := k } i a b) : Moved c I w v i a b := by
  cases m with
  | intro hh hi => exact .intro hh hi

theorem Abreast.idleLimit (a : Abreast c w v) : v.idleLimit = w.idleLimit := by
  rw [World.idleLimit, a.hub.policy, World.idleLimit]

theorem Abreast.pingPeriod (a : Abreast c w v) : v.pingPeriod = w.pingPeriod := by
  rw [World.pingPeriod, a.hub.policy, World.pingPeriod]

theorem Abreast.idleTooLong (a : Abreast c w v) : v.idleTooLong = w.idleTooLong := by
  rw [World.idleTooLong, a.now, a.hub.policy, World.idleTooLong]

theorem Abreast.with (a : Abreast c w v) {h k : Hub} (hh : Hub.Alike c h k) :
    Abreast c { w with hub := h } { v with hub := k } := ⟨hh, a.now⟩

/-! ## The ends of a service -/

theorem finish_of_conn (hc : l.conn = some d) {r : CloseReason} {owed : Option Frame} :
    w.finish i l r owed =
      (w.put i { l with phase := .closing r owed (w.now + closeTimeout) }
        ((w.hub.release l.peer d).requestClose d),
        [l.stage.moveEvent l.peer .closing, Hub.releaseEvent l.peer d r]) := by
  cases l
  cases hc
  rfl

theorem Abreast.finish (a : Abreast c w v) (hi : I l.inbound ys) (hc : l.conn = some d)
    (r : CloseReason) (owed : Option Frame) :
    Moved c I w v i (w.finish i l r owed) (v.finish i (l.past ys) r owed) := by
  have hlate : v.now + closeTimeout = w.now + closeTimeout := by rw [a.now]
  rw [finish_of_conn hc, finish_of_conn (l := l.past ys) hc, hlate]
  exact .intro (l := { l with phase := .closing r owed (w.now + closeTimeout) })
    ((a.hub.release l.peer d).requestClose d) hi

theorem Abreast.fail (a : Abreast c w v) (hi : I l.inbound ys) (hc : l.conn = some d)
    (detail : String) (owed : Option Frame) :
    Moved c I w v i (w.fail i l detail owed) (v.fail i (l.past ys) detail owed) :=
  (a.finish hi hc (.transport detail) owed).cons (l.transportEvent detail)

theorem Abreast.complete (a : Abreast c w v) (hi : I l.inbound ys) (r : CloseReason)
    (before : List Event) :
    Moved c I w v i (w.complete i l r before) (v.complete i (l.past ys) r before) := by
  have hc' : (l.past ys).conn = l.conn := rfl
  unfold World.complete
  rw [hc']
  refine .intro (l := { l with phase := .gone, wire := l.wire.cut }) ?_ hi
  cases l.conn with
  | none => exact a.hub
  | some d => exact a.hub.updateBox d Mailbox.discard

theorem Abreast.crash (a : Abreast c w v) (hi : I l.inbound ys) (hd : c ≠ some d) :
    Moved c I w v i (w.crash i l d) (v.crash i (l.past ys) d) := by
  have hwaiting : (v.hub.receive d none).1 = (w.hub.receive d none).1 := (a.hub.receive hd none).1
  have hfails : (l.past ys).failsOn = l.failsOn := rfl
  have hstage : (l.past ys).stage = l.stage := rfl
  have hleftover : (l.past ys).leftover = l.leftover := rfl
  unfold World.crash
  rw [hwaiting, hfails, hstage, hleftover]
  exact .intro (l := { l with
    phase := .lost l.stage
    wire := l.leftover (w.hub.receive d none).1 })
    ((a.hub.leave l.peer d).updateBox d Mailbox.discard) hi

/-! ## The four kinds of turns -/

theorem Abreast.take (a : Abreast c w v) (hi : I l.inbound ys) (hc : l.conn = some d)
    (f : Frame) : Moved c I w v i (w.take i l f) (v.take i (l.past ys) f) := by
  have routed : ∀ f : Frame, f.isData = true →
      Moved c I w v i (w.take i l f) (v.take i (l.past ys) f) := by
    intro f hf
    obtain ⟨hanswer, hafter⟩ := a.hub.route l.peer f
    have hpeer : (l.past ys).peer = l.peer := rfl
    rcases hw : w.hub.route l.peer f with ⟨h, r⟩
    rcases hv : v.hub.route l.peer f with ⟨k, r'⟩
    rw [hw, hv] at hanswer hafter
    obtain rfl : r' = r := hanswer
    have hevents := a.hub.routeEvents l.peer r'
    cases f with
    | text | binary =>
      simp only [World.take, hpeer, hw, hv, hevents]
      cases r' with
      | ok o => exact .intro hafter hi
      | error v' => exact ((a.with hafter).finish hi hc _ _).of_hubs.cons (l.violationEvent v')
    | ping | pong | close => cases hf
  cases f with
  | text | binary => exact routed _ rfl
  | pong b => exact .intro a.hub hi
  | close cf => exact a.finish hi hc _ _
  | ping b =>
    have hwire : (l.past ys).wire = l.wire := rfl
    simp only [World.take, hwire]
    cases l.wire.send? (.pong b) with
    | none => exact a.fail hi hc _ _
    | some wire => exact .intro (l := { l with wire := wire }) a.hub hi

/-- What a reading hand does for a link that is served. -/
theorem read_serving {writer : Writer} (hp : l.phase = .serving writer) (hc : l.conn = some d) :
    w.read i l =
      if w.hub.isClosing d then
        let reason := if w.hub.isCurrent l.peer d then .outboundFailed else .superseded
        some (w.finish i l reason (World.owedFor reason))
      else if l.deadline ≤ w.now then
        some ((w.finish i l .timeout (World.owedFor .timeout)).1,
          l.idleEvent w.idleLimit :: (w.finish i l .timeout (World.owedFor .timeout)).2)
      else
        match l.inbound with
        | .finished :: rest => some (w.finish i (l.past rest) .disconnected none)
        | .fault detail :: rest => some (w.fail i (l.past rest) detail (some (.close none)))
        | .frame f :: rest =>
          match Link.transportFault? w.hub.policy.maxMessageSize f with
          | some detail => some (w.fail i (l.past rest) detail (some (.close none)))
          | none =>
            if w.idleTooLong then some (w.crash i (l.past rest) d)
            else some (w.take i (w.awake l rest) f)
        | [] => if l.client.present then none else some (w.fail i l Link.resetText none) := by
  cases l
  cases hp
  cases hc
  rfl

theorem Abreast.read (a : Abreast c w v) (hi : I l.inbound ys)
    (hd : ∀ d, l.conn = some d → c ≠ some d) (hh : HeardAlike I l.inbound ys) :
    Option.Rel (Moved c I w v i) (w.read i l) (v.read i (l.past ys)) := by
  have hp' : (l.past ys).phase = l.phase := rfl
  have hc' : (l.past ys).conn = l.conn := rfl
  cases hp : l.phase with
  | closing | gone | lost =>
    simp only [World.read, hp', hp]
    exact .none
  | serving writer =>
    cases hc : l.conn with
    | none =>
      simp only [World.read, hp', hp, hc', hc]
      exact .none
    | some d =>
      have hinbound : (l.past ys).inbound = ys := rfl
      rw [read_serving hp hc, read_serving (l := l.past ys) hp hc, hinbound]
      simp only [a.hub.isClosing (hd d hc), a.hub.isCurrent, a.now, a.hub.policy, a.idleLimit]
      by_cases hs : w.hub.isClosing d = true
      · rw [if_pos hs, if_pos hs]
        exact .some (a.finish hi hc _ _)
      rw [if_neg hs, if_neg hs]
      by_cases hlate : l.deadline ≤ w.now
      · rw [if_pos hlate, if_pos (show (l.past ys).deadline ≤ w.now from hlate)]
        exact .some ((a.finish hi hc _ _).cons _)
      rw [if_neg hlate, if_neg (show ¬ (l.past ys).deadline ≤ w.now from hlate)]
      obtain ⟨hx, rfl⟩ | ⟨x, xs', ys', hx, rfl, hrest⟩ := hh <;> rw [hx]
      · have hpresent : (l.past []).client.present = l.client.present := rfl
        dsimp only
        rw [hpresent]
        cases l.client.present with
        | true => exact .none
        | false => exact .some (a.fail hi hc _ _)
      · cases x with
        | finished => exact .some (a.finish (l := l.past xs') hrest hc _ _)
        | fault detail => exact .some (a.fail (l := l.past xs') hrest hc _ _)
        | frame f =>
          dsimp only
          cases Link.transportFault? w.hub.policy.maxMessageSize f with
          | some detail => exact .some (a.fail (l := l.past xs') hrest hc _ _)
          | none =>
            have hawake : v.awake (l.past (.frame f :: ys')) ys' = (w.awake l xs').past ys' := by
              rw [World.awake, a.now, a.idleLimit]
              rfl
            dsimp only
            rw [hawake, a.idleTooLong]
            cases w.idleTooLong with
            | true => exact .some (a.crash (l := l.past xs') hrest (hd d hc))
            | false => exact .some (a.take (l := w.awake l xs') hrest hc f)

theorem Abreast.hand (a : Abreast c w v) (hi : I l.inbound ys) (d : ConnId) (f : Frame) :
    Moved c I w v i (w.hand i l d f) (v.hand i (l.past ys) d f) := by
  have hmute : (l.past ys).isMute = l.isMute := rfl
  have hwire : (l.past ys).wire = l.wire := rfl
  unfold World.hand
  rw [hmute, hwire]
  cases (if l.isMute = true then none else l.wire.send? f) with
  | some wire =>
    exact .intro (l := { l with
      wire := wire
      phase := .serving (if wire.isClear then .idle else .sending) }) a.hub hi
  | none => exact .intro (l := { l with phase := .serving .stopped }) (a.hub.requestClose d) hi

/-- What a writing hand does for a link that is served. -/
theorem write_serving {writer : Writer} (hp : l.phase = .serving writer) (hc : l.conn = some d) :
    w.write i l =
      if w.hub.isClosing d then none
      else
        match writer with
        | .stopped => none
        | .sending =>
          if l.wire.isClear then some (w.put i { l with phase := .serving .idle } w.hub, [])
          else if l.isMute && (l.wire.hasRoom || !l.client.present) then
            some (w.put i { l with phase := .serving .stopped } (w.hub.requestClose d),
              [l.writeEvent])
          else none
        | .idle =>
          match w.hub.receive d (some 1) with
          | (f :: _, hub) => some ({ w with hub := hub }.hand i l d f)
          | ([], _) =>
            if l.nextPing ≤ w.now then
              let l' := { l with nextPing := w.pingAfter l }
              some ((w.hand i l' d (.ping [])).1, l.pingEvent :: (w.hand i l' d (.ping [])).2)
            else none := by
  cases l
  cases hp
  cases hc
  cases writer <;> rfl

theorem Abreast.write (a : Abreast c w v) (hi : I l.inbound ys)
    (hd : ∀ d, l.conn = some d → c ≠ some d) :
    Option.Rel (Moved c I w v i) (w.write i l) (v.write i (l.past ys)) := by
  have hp' : (l.past ys).phase = l.phase := rfl
  have hc' : (l.past ys).conn = l.conn := rfl
  cases hp : l.phase with
  | closing | gone | lost =>
    simp only [World.write, hp', hp]
    exact .none
  | serving writer =>
    cases hc : l.conn with
    | none =>
      simp only [World.write, hp', hp, hc', hc]
      exact .none
    | some d =>
      have hping : v.pingAfter (l.past ys) = w.pingAfter l := by
        rw [World.pingAfter, World.pingAfter, a.now, a.pingPeriod]
        rfl
      rw [write_serving hp hc, write_serving (l := l.past ys) hp hc, a.hub.isClosing (hd d hc),
        hping]
      by_cases hs : w.hub.isClosing d = true
      · rw [if_pos hs, if_pos hs]
        exact .none
      rw [if_neg hs, if_neg hs]
      cases writer with
      | stopped => exact .none
      | sending =>
        have hclear : (l.past ys).wire.isClear = l.wire.isClear := rfl
        have hjam : ((l.past ys).isMute && ((l.past ys).wire.hasRoom || !(l.past ys).client.present)) =
            (l.isMute && (l.wire.hasRoom || !l.client.present)) := rfl
        dsimp only
        rw [hclear, hjam]
        cases l.wire.isClear with
        | true => exact .some (.intro (l := { l with phase := .serving .idle }) a.hub hi)
        | false =>
          cases (l.isMute && (l.wire.hasRoom || !l.client.present)) with
          | true =>
            exact .some (.intro (l := { l with phase := .serving .stopped })
              (a.hub.requestClose d) hi)
          | false => exact .none
      | idle =>
        obtain ⟨hanswer, hafter⟩ := a.hub.receive (hd d hc) (some 1)
        rcases hw : w.hub.receive d (some 1) with ⟨fs, h⟩
        rcases hv : v.hub.receive d (some 1) with ⟨fs', k⟩
        rw [hw, hv] at hanswer hafter
        obtain rfl : fs' = fs := hanswer
        dsimp only
        cases fs' with
        | cons f fs => exact .some ((a.with hafter).hand hi d f).of_hubs
        | nil =>
          dsimp only
          rw [a.now]
          by_cases hdue : l.nextPing ≤ w.now
          · rw [if_pos hdue, if_pos (show (l.past ys).nextPing ≤ w.now from hdue)]
            exact .some ((a.hand (l := { l with nextPing := w.pingAfter l }) hi d (.ping [])).cons
              l.pingEvent)
          · rw [if_neg hdue, if_neg (show ¬ (l.past ys).nextPing ≤ w.now from hdue)]
            exact .none

theorem Abreast.close (a : Abreast c w v) (hi : I l.inbound ys) :
    Option.Rel (Moved c I w v i) (w.close i l) (v.close i (l.past ys)) := by
  have hp' : (l.past ys).phase = l.phase := rfl
  cases hp : l.phase with
  | serving | gone | lost =>
    simp only [World.close, hp', hp]
    exact .none
  | closing r owed giveUp =>
    have hclient : (l.past ys).client = l.client := rfl
    have hmute : (l.past ys).isMute = l.isMute := rfl
    have hwire : (l.past ys).wire = l.wire := rfl
    simp only [World.close, hp', hp, hclient, hmute, hwire, a.now]
    cases (l.isMute && !l.wire.isClear && (l.wire.hasRoom || !l.client.present)) with
    | true => exact .some (a.complete hi _ _)
    | false =>
      cases l.wire.isClear with
      | true =>
        cases owed with
        | none => exact .some (a.complete hi _ _)
        | some f =>
          dsimp only
          cases (if l.isMute = true then none else l.wire.send? f) with
          | some wire =>
            exact .some (.intro (l := { l with wire := wire, phase := .closing r none giveUp })
              a.hub hi)
          | none => exact .some (a.complete hi _ _)
      | false =>
        by_cases hlate : giveUp ≤ w.now
        · simp only [if_pos hlate]
          exact .some (a.complete hi _ _)
        · simp only [if_neg hlate]
          exact .none

theorem Abreast.receive (a : Abreast c w v) (hi : I l.inbound ys)
    (happend : ∀ zs, I (l.inbound ++ zs) (ys ++ zs)) :
    Option.Rel (Moved c I w v i) (w.receive i l) (v.receive i (l.past ys)) := by
  have hp : (l.past ys).phase = l.phase := rfl
  have hwire : (l.past ys).wire = l.wire := rfl
  have hclient : (l.past ys).client = l.client := rfl
  unfold World.receive
  rw [hp, hwire, hclient]
  cases (!l.client.present || !l.client.reading || l.client.ended) with
  | true => exact .none
  | false =>
    cases (!l.wire.frames.isEmpty && decide (l.wire.used ≠ 0)) with
    | true =>
      exact .some (.intro (l := { l with
        wire := l.wire.drain.2
        inbound := l.inbound ++ World.answers l.wire.drain.1
        client := { l.client with
          inbox := l.client.inbox ++ l.wire.drain.1.map Item.frame } }) a.hub (happend _))
    | false =>
      cases l.phase.isOver with
      | false => exact .none
      | true =>
        exact .some (.intro (l := { l with
          client := { l.client with ended := true, inbox := l.client.inbox ++ [.ending] } })
          a.hub hi)

/-- **One turn in two worlds.** -/
theorem Abreast.turn (a : Abreast c w v) (hl : w.links[i]? = some l)
    (hk : v.links[i]? = some (l.past ys)) (hi : I l.inbound ys)
    (hd : ∀ d, l.conn = some d → c ≠ some d) (happend : ∀ zs, I (l.inbound ++ zs) (ys ++ zs))
    {t : Turn} (hh : t = .read → HeardAlike I l.inbound ys) :
    Option.Rel (Moved c I w v i) (w.turn i t) (v.turn i t) := by
  simp only [World.turn, hl, hk]
  cases t with
  | read => exact a.read hi hd (hh rfl)
  | write => exact a.write hi hd
  | close => exact a.close hi
  | receive => exact a.receive hi happend

end Switchboard.Relay
