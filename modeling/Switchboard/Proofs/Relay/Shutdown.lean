import Mathlib.Data.List.Forall2
import Switchboard.Proofs.Relay.Concord
import Switchboard.Proofs.Relay.Flag
import Switchboard.Proofs.Relay.Teardown
import Switchboard.Proofs.Session.Flag

/-!
# A shutdown disturbs nobody

Two worlds that are the same but that in the second one more shutdowns were asked for stay the same
whatever happens (`Undisturbed`): all links and their clients, the table, the mailboxes and the
counters.  What tells of the shutdown is the health, and the reporters, of which each has done the
same or has stopped.

    w.Undisturbed v → (w.undergo x).1.Undisturbed (v.undergo x).1
    (run w as).Undisturbed (w.amid (as and shutdowns))
-/

namespace Switchboard.Relay

/-! ## Specification -/

/-- Does the action ask for a shutdown? -/
def Action.stops : Action → Bool
  | .shutdown | .interrupt => true
  | _ => false

def Incident.stops : Incident → Bool
  | .act a => a.stops
  | _ => false

/-- Does the answer to the action tell of the health of the relay? -/
def Action.asksHealth : Action → Bool
  | .health => true
  | .request method target headers =>
    (Http.Request.of? method target headers).any fun r => Http.Route.ofPath r.path == .health
  | .connect d =>
    (Http.pathOf ("ws://relay" ++ d.path)).any fun path => Http.Route.ofPath path == .health
  | _ => false

/-- Is it a reporter that tells this? -/
def ofReporter (e : Event) : Bool :=
  e.message == "Relay status" || e.message == "Status reporter stopping"

/-- What a reporter is like if maybe a shutdown was asked for: the same, or it has stopped. -/
def Kept (asked : Bool) (r r' : Reporter) : Prop := r' = r ∨ asked = true ∧ r'.running = false

namespace World

/-- The second world is the first one but for the stop flag, which may be up in it alone, and for
reporters that have stopped since. -/
structure Undisturbed (w v : World) : Prop where
  same : v = { w with hub := { w.hub with stopping := v.hub.stopping }, reporters := v.reporters }
  flag : w.hub.stopping = true → v.hub.stopping = true
  reporters : List.Forall₂ (Kept v.hub.stopping) w.reporters v.reporters

/-- A shutdown is asked for, which takes no time. -/
def ask (w : World) : World := (w.act .shutdown).world

/-- The running relay, in which a shutdown is asked for wherever there is no action. -/
def amid (w : World) : List (Option Action) → World
  | [] => w
  | none :: ms => amid w.ask ms
  | some a :: ms => amid (w.step a).world ms

end World

/-- What has become of an undisturbed world, and the same has been reported, by all but reporters. -/
structure Unmoved (a b : Happening) : Prop where
  world : a.1.Undisturbed b.1
  events : b.2.filter (!ofReporter ·) = a.2.filter (!ofReporter ·)

/-! ## Actions -/

/-- An action comes to the same with the stop flag and the reporters as given; its answer is the same
unless it may tell. -/
structure Likewise (b : Bool) (rs : List Reporter) (tells : Bool) (r s : Result) : Prop where
  world : s.world = r.world.flagged b rs
  answer : tells = false → s.answer = r.answer
  events : s.events = r.events

theorem answer_flagged (h : Hub) (b : Bool) (site : Http.Site) (r : Http.Request) :
    (Http.answer (h.flagged b) site r).2 = (Http.answer h site r).2 ∧
      (Http.Route.ofPath r.path ≠ .health →
        Http.answer (h.flagged b) site r = Http.answer h site r) := by
  unfold Http.answer
  cases Http.Route.ofPath r.path with
  | health => exact ⟨rfl, fun h => absurd rfl h⟩
  | _ => exact ⟨rfl, fun _ => rfl⟩

namespace World

variable {w v : World}

section Flagged

variable (w : World) (b : Bool) (rs : List Reporter)

theorem onClient_flagged (name : String) {f g : Link → Result}
    (h : ∀ l, Likewise b rs false (f l) (g l)) :
    Likewise b rs false (w.onClient name f) ((w.flagged b rs).onClient name g) := by
  have hlinks : (w.flagged b rs).links = w.links := rfl
  unfold onClient
  rw [hlinks]
  cases w.links.find? (·.name == name) with
  | none => exact ⟨rfl, fun _ => rfl, rfl⟩
  | some l => exact h l

theorem update_flagged (given : Bool) (name : String) (f : Link → Link) :
    (if given then (w.flagged b rs).update name f else w.flagged b rs) =
      (if given then w.update name f else w).flagged b rs := by
  cases given <;> rfl

theorem welcome_flagged (d : Dial) (p : PeerId) :
    (w.flagged b rs).welcome d p = (w.welcome d p).flagged b rs := by
  have hregister : ((w.flagged b rs).forget d.name).hub.register p
      ((w.flagged b rs).forget d.name).hub.policy.queueCapacity = _ :=
    w.hub.register_flagged b p w.hub.policy.queueCapacity
  have hhub : (w.forget d.name).hub = w.hub := rfl
  have hqueue : ((w.flagged b rs).forget d.name).queueTooLong = w.queueTooLong := rfl
  have hqueue' : (w.forget d.name).queueTooLong = w.queueTooLong := rfl
  have hlong : ((w.flagged b rs).forget d.name).idleTooLong = w.idleTooLong := rfl
  have hlong' : (w.forget d.name).idleTooLong = w.idleTooLong := rfl
  unfold welcome
  simp only [hqueue, hqueue', hregister, hhub, hlong, hlong']
  cases w.queueTooLong with
  | true => rfl
  | false =>
  rcases w.hub.register p w.hub.policy.queueCapacity with ⟨h, t | done⟩
  · rfl
  · cases w.idleTooLong with
    | false => rfl
    | true =>
      have hleave := h.leave_flagged b p done.conn
      simp only [hleave]
      rfl

theorem connect_flagged (d : Dial) : Likewise b rs (Action.connect d).asksHealth (w.connect d)
    ((w.flagged b rs).connect d) := by
  have hasks : (Action.connect d).asksHealth =
    (Http.pathOf ("ws://relay" ++ d.path)).any fun path => Http.Route.ofPath path == .health := rfl
  unfold connect
  rw [hasks]
  cases Http.pathOf ("ws://relay" ++ d.path) with
  | none => exact ⟨rfl, fun _ => rfl, rfl⟩
  | some path =>
    obtain ⟨hevents, hsame⟩ := answer_flagged w.hub b w.site { method := "GET", path := path }
    rw [Option.any_some]
    dsimp only at hsame ⊢
    cases hr : Http.Route.ofPath path with
    | socket segment =>
      dsimp only
      cases Http.peerOf segment with
      | error a => exact ⟨rfl, fun _ => rfl, rfl⟩
      | ok p =>
        dsimp only
        cases d.broken with
        | true => exact ⟨rfl, fun _ => rfl, rfl⟩
        | false =>
          have hwelcome := w.welcome_flagged b rs d p
          simp only [hwelcome]
          exact ⟨rfl, fun _ => rfl, rfl⟩
    | health => exact ⟨rfl, fun h => (by cases h), hevents⟩
    | metrics | other =>
      have hne : Http.Route.ofPath path ≠ .health := by
        rw [hr]
        nofun
      have hanswer : Http.answer (w.flagged b rs).hub (w.flagged b rs).site
        { method := "GET", path := path } = _ := hsame hne
      dsimp only
      rw [hanswer]
      exact ⟨rfl, fun _ => rfl, rfl⟩

theorem request_flagged (method target : String) (headers : List (String × String)) :
    Likewise b rs (Action.request method target headers).asksHealth
      (w.request method target headers) ((w.flagged b rs).request method target headers) := by
  have hasks : (Action.request method target headers).asksHealth =
    (Http.Request.of? method target headers).any fun r => Http.Route.ofPath r.path == .health := rfl
  unfold request
  rw [hasks]
  cases Http.Request.of? method target headers with
  | none => exact ⟨rfl, fun _ => rfl, rfl⟩
  | some r =>
    obtain ⟨hevents, hsame⟩ := answer_flagged w.hub b w.site r
    refine ⟨rfl, fun htells => ?_, hevents⟩
    have hanswer : Http.answer (w.flagged b rs).hub (w.flagged b rs).site r = _ :=
      hsame (ne_of_beq_false htells)
    dsimp only
    rw [hanswer]

/-- **What is done to a relay comes to the same**, unless it is about the flag or the reporters. -/
theorem act_flagged {a : Action} (hstops : a.stops = false) (hstart : a ≠ .startStatus) :
    Likewise b rs (a.asksHealth || a matches .statusRunning) (w.act a) ((w.flagged b rs).act a) := by
  cases a with
  | connect d =>
    rw [Bool.or_false]
    exact w.connect_flagged b rs d
  | request method target headers =>
    rw [Bool.or_false]
    exact w.request_flagged b rs method target headers
  | send name f =>
    exact w.onClient_flagged b rs name fun l => ⟨w.update_flagged b rs _ name _, fun _ => rfl, rfl⟩
  | silence name | resume name =>
    exact w.onClient_flagged b rs name fun l => ⟨w.update_flagged b rs _ name _, fun _ => rfl, rfl⟩
  | drop name | breakWrites name =>
    exact w.onClient_flagged b rs name fun l => ⟨rfl, fun _ => rfl, rfl⟩
  | evict p =>
    have hlookup : (w.flagged b rs).hub.lookup p = w.hub.lookup p := rfl
    simp only [act, hlookup]
    cases w.hub.lookup p <;> exact ⟨rfl, fun _ => rfl, rfl⟩
  | wait | status | unregister => exact ⟨rfl, fun _ => rfl, rfl⟩
  | health | statusRunning => exact ⟨rfl, fun h => (by cases h), rfl⟩
  | startStatus => exact absurd rfl hstart
  | shutdown | interrupt => cases hstops

end Flagged

/-! ## Undisturbed worlds -/

theorem Undisturbed.refl (w : World) : w.Undisturbed w :=
  ⟨rfl, id, List.forall₂_same.2 fun _ _ => .inl rfl⟩

theorem Undisturbed.eq_flagged (a : w.Undisturbed v) :
    v = w.flagged v.hub.stopping v.reporters := a.same

theorem Undisturbed.now (a : w.Undisturbed v) : v.now = w.now := congrArg (·.now) a.same

/-- What does the same in flagged worlds keeps worlds undisturbed. -/
theorem Undisturbed.of_flagged (a : w.Undisturbed v) (F : World → Happening)
    (hF : ∀ w b rs, F (w.flagged b rs) = (F w).flagged b rs) :
    (F w).1.Undisturbed (F v).1 ∧ (F v).2 = (F w).2 ∧ (F v).1.hub.stopping = v.hub.stopping := by
  have hw : F w = (F w).flagged w.hub.stopping w.reporters := hF w w.hub.stopping w.reporters
  have hv : F v = (F w).flagged v.hub.stopping v.reporters :=
    (congrArg F a.eq_flagged).trans (hF w _ _)
  have hflag : (F w).1.hub.stopping = w.hub.stopping := congrArg (·.1.hub.stopping) hw
  have hreporters : (F w).1.reporters = w.reporters := congrArg (·.1.reporters) hw
  rw [hv]
  refine ⟨⟨rfl, fun h => a.flag (hflag ▸ h), ?_⟩, rfl, rfl⟩
  rw [hreporters]
  exact a.reporters

/-- The hubs differ in the stop flag, and in the second world reporters may have stopped. -/
theorem Undisturbed.ask (a : w.Undisturbed v) : w.Undisturbed v.ask where
  same := congrArg World.ask a.same
  flag _ := rfl
  reporters := a.reporters.imp fun _ _ h => h.imp id fun h => ⟨rfl, h.2⟩

/-! ## Reports -/

theorem ofReporter_report (w : World) (r : Reporter) : ∀ e ∈ (w.report r).2, ofReporter e = true := by
  unfold report
  split
  · exact fun _ he => absurd he List.not_mem_nil
  · split <;> exact List.forall_mem_singleton.2 rfl

theorem filter_reports (w : World) : w.reports.2.filter (!ofReporter ·) = [] := by
  refine List.filter_eq_nil_iff.2 fun e he => ?_
  obtain ⟨x, hx, he⟩ := List.mem_flatMap.1 he
  obtain ⟨r, -, rfl⟩ := List.mem_map.1 hx
  simp [w.ofReporter_report r e he]

/-- A report that is due is made, or it is the last one since a shutdown was asked for. -/
theorem Undisturbed.report (a : w.Undisturbed v) {r r' : Reporter} (h : Kept v.hub.stopping r r') :
    Kept v.hub.stopping (w.report r).1 (v.report r').1 := by
  have hperiod : v.reportPeriod = w.reportPeriod := by
    rw [a.eq_flagged]
    rfl
  obtain rfl | ⟨hasked, hstopped⟩ := h
  · unfold World.report
    rw [a.now, hperiod]
    by_cases hidle : (!r'.running || decide (w.now < r'.next)) = true
    · rw [if_pos hidle, if_pos hidle]
      exact .inl rfl
    rw [if_neg hidle, if_neg hidle]
    by_cases hv : v.hub.stopping = true
    · rw [if_pos hv]
      exact .inr ⟨hv, rfl⟩
    · rw [if_neg hv, if_neg fun hw => hv (a.flag hw)]
      exact .inl rfl
  · have hidle : v.report r' = (r', []) := by
      unfold World.report
      rw [hstopped]
      rfl
    rw [hidle]
    exact .inr ⟨hasked, hstopped⟩

theorem Undisturbed.with (a : w.Undisturbed v) {rs rs' : List Reporter}
    (h : List.Forall₂ (Kept v.hub.stopping) rs rs') :
    Undisturbed { w with reporters := rs } { v with reporters := rs' } :=
  ⟨congrArg (fun u : World => { u with reporters := rs' }) a.same, a.flag, h⟩

theorem Undisturbed.reports (a : w.Undisturbed v) : Unmoved w.reports v.reports where
  world := by
    refine a.with ?_
    rw [List.map_map, List.map_map, List.forall₂_map_left_iff, List.forall₂_map_right_iff]
    exact a.reporters.imp fun _ _ h => a.report h
  events := by rw [filter_reports, filter_reports]

/-- A reporter that begins makes its first report at once. -/
theorem Undisturbed.startStatus (a : w.Undisturbed v) :
    Unmoved (w.undergo (.act .startStatus)) (v.undergo (.act .startStatus)) := by
  have hnew : List.Forall₂ (Kept v.hub.stopping) [⟨w.now, true⟩] [⟨v.now, true⟩] :=
    .cons (.inl (by rw [a.now])) .nil
  exact (a.with (List.rel_append a.reporters hnew)).reports

/-! ## Whatever happens -/

theorem Undisturbed.both_ask (a : w.Undisturbed v) : w.ask.Undisturbed v.ask :=
  ⟨congrArg World.ask a.same, fun _ => rfl, a.ask.reporters⟩

/-- What happens is a report, or asks for a shutdown, or is the same in flagged worlds. -/
theorem incident_cases (x : Incident) : x = .report ∨ x = .act .startStatus ∨
    (x.stops = true ∧ ∃ es, ∀ w : World, w.undergo x = (w.ask, es)) ∨
      x.stops = false ∧ ∀ (w : World) (b : Bool) (rs : List Reporter),
        (w.flagged b rs).undergo x = (w.undergo x).flagged b rs := by
  cases x with
  | report => exact .inl rfl
  | act a =>
    by_cases hstart : a = .startStatus
    · exact .inr (.inl (congrArg Incident.act hstart))
    cases hstops : a.stops with
    | true =>
      cases a with
      | shutdown | interrupt => exact .inr (.inr (.inl ⟨hstops, _, fun _ => rfl⟩))
      | _ => cases hstops
    | false =>
      refine .inr (.inr (.inr ⟨hstops, fun w b rs => ?_⟩))
      have hlike := w.act_flagged b rs hstops hstart
      exact Prod.ext hlike.world hlike.events
  | arrive i x =>
    refine .inr (.inr (.inr ⟨rfl, fun w b rs => ?_⟩))
    have hlinks : (w.flagged b rs).links = w.links := rfl
    simp only [undergo, hlinks]
    cases w.links[i]? <;> rfl
  | turn i t =>
    refine .inr (.inr (.inr ⟨rfl, fun w b rs => ?_⟩))
    simp only [undergo, turn_flagged]
    cases w.turn i t <;> rfl
  | pass ms => exact .inr (.inr (.inr ⟨rfl, fun _ _ _ => rfl⟩))

theorem Undisturbed.unmoved (a : w.Undisturbed v) (F : World → Happening)
    (hF : ∀ w b rs, F (w.flagged b rs) = (F w).flagged b rs) : Unmoved (F w) (F v) := by
  obtain ⟨hworld, hevents, -⟩ := a.of_flagged F hF
  exact ⟨hworld, by rw [hevents]⟩

/-- **Whatever happens leaves worlds undisturbed.** -/
theorem Undisturbed.undergo (a : w.Undisturbed v) (x : Incident) :
    Unmoved (w.undergo x) (v.undergo x) := by
  obtain rfl | rfl | ⟨-, es, hask⟩ | ⟨-, hsame⟩ := incident_cases x
  · exact a.reports
  · exact a.startStatus
  · rw [hask, hask]
    exact ⟨a.both_ask, rfl⟩
  · exact a.unmoved (World.undergo · x) hsame

theorem Undisturbed.undergo_events (a : w.Undisturbed v) {x : Incident} (hreport : x ≠ .report)
    (hstart : x ≠ .act .startStatus) : (v.undergo x).2 = (w.undergo x).2 := by
  obtain rfl | rfl | ⟨-, es, hask⟩ | ⟨-, hsame⟩ := incident_cases x
  · exact absurd rfl hreport
  · exact absurd rfl hstart
  · rw [hask, hask]
  · exact (a.of_flagged (World.undergo · x) hsame).2.1

theorem stopping_undergo (w : World) (x : Incident) :
    (w.undergo x).1.hub.stopping = (w.hub.stopping || x.stops) := by
  obtain rfl | rfl | ⟨hstops, es, hask⟩ | ⟨hstops, hsame⟩ := incident_cases x
  · exact (Bool.or_false _).symm
  · exact (Bool.or_false _).symm
  · rw [hask, hstops, Bool.or_true]
    rfl
  · rw [hstops, Bool.or_false]
    exact ((Undisturbed.refl w).of_flagged (World.undergo · x) hsame).2.2

/-- The incidents, and a shutdown wherever there is none. -/
def shutdownsAmid (ms : List (Option Incident)) : List Incident := ms.map (·.getD (.act .shutdown))

theorem Undisturbed.after (a : w.Undisturbed v) (ms : List (Option Incident)) :
    (w.after ms.reduceOption).Undisturbed (v.after (shutdownsAmid ms)) := by
  induction ms generalizing w v with
  | nil => exact a
  | cons m ms ih =>
    cases m with
    | none => exact ih a.ask
    | some x => exact ih (a.undergo x).world

theorem stopping_after (w : World) (xs : List Incident) :
    (w.after xs).hub.stopping = (w.hub.stopping || xs.any Incident.stops) := by
  induction xs generalizing w with
  | nil => exact (Bool.or_false _).symm
  | cons x xs ih =>
    show ((w.undergo x).1.after xs).hub.stopping = _
    rw [ih, stopping_undergo, List.any_cons, Bool.or_assoc]

/-! ## Answers -/

/-- Two worlds answer the same, but to what is asked of the health, and of a reporter that has stopped
since a shutdown was asked for. -/
structure Answers (w v : World) : Prop where
  same : ∀ a : Action, a.asksHealth = false → a ≠ .statusRunning →
    (v.act a).answer = (w.act a).answer
  running : (v.act .statusRunning).answer = (w.act .statusRunning).answer ∨
    v.hub.stopping = true ∧ (v.act .statusRunning).answer = .truth false
  health : (v.act .health).answer = .truth (!v.hub.stopping)
  page : ∀ r : Http.Request, Http.Route.ofPath r.path = .health →
    (Http.answer v.hub v.site r).1 =
      Http.reading r (if v.hub.stopping then .empty 503 else Http.sentence 200 "OK")

theorem Undisturbed.running (a : w.Undisturbed v) :
    (v.act .statusRunning).answer = (w.act .statusRunning).answer ∨
      v.hub.stopping = true ∧ (v.act .statusRunning).answer = .truth false := by
  have hlast := List.rel_reverse a.reporters
  simp only [act, ← List.head?_reverse]
  generalize w.reporters.reverse = rs at hlast ⊢
  generalize v.reporters.reverse = rs' at hlast ⊢
  cases hlast with
  | nil => exact .inl rfl
  | cons h _ =>
    obtain rfl | ⟨hasked, hstopped⟩ := h
    · exact .inl rfl
    · right
      exact ⟨hasked, congrArg Answer.truth hstopped⟩

theorem Undisturbed.answers (a : w.Undisturbed v) : w.Answers v where
  same x hhealth hrunning := by
    by_cases hstart : x = .startStatus
    · subst hstart
      rfl
    cases hstops : x.stops with
    | true =>
      cases x with
      | shutdown | interrupt => rfl
      | _ => cases hstops
    | false =>
      have hlike := w.act_flagged v.hub.stopping v.reporters hstops hstart
      rw [← a.eq_flagged] at hlike
      refine hlike.answer ?_
      rw [hhealth, Bool.false_or]
      cases x with
      | statusRunning => exact absurd rfl hrunning
      | _ => rfl
  running := a.running
  health := rfl
  page r hr := by
    unfold Http.answer Http.healthAnswer Hub.healthy
    rw [hr]
    cases v.hub.stopping <;> rfl

/-! ## The running relay -/

theorem concord_unmoved (last : Nat) : Concord Unmoved last where
  now h := h.world.now
  pass h t := h.world.unmoved (fun w => ({ w with now := t }, [])) fun _ _ _ => rfl
  followed h h' := ⟨h'.world, by rw [List.filter_append, List.filter_append, h.events, h'.events]⟩
  reports h := h.world.reports
  settle h _ _ := h.world.unmoved World.settle settle_flagged

theorem Calm.ask (a : w.Calm) : w.ask.Calm where
  pings := a.pings
  reports := a.reports
  punctual := a.punctual
  rest := by
    have hflag : w.ask = w.flagged true w.reporters := rfl
    rw [hflag, firstTurn_flagged, a.rest]
    rfl

theorem Undisturbed.step (a : w.Undisturbed v) (hw : w.Calm) (hv : v.Calm) (x : Action) :
    (w.step x).world.Undisturbed (v.step x).world ∧
      (v.step x).events.filter (!ofReporter ·) = (w.step x).events.filter (!ofReporter ·) := by
  have hfollow := (concord_unmoved _).follow (a.undergo (.act x)) (hw.act x) (hv.act x)
    (duration x) (Nat.le_refl _)
  rw [w.step_eq, v.step_eq]
  dsimp only
  exact ⟨hfollow.world, hfollow.events⟩

theorem Calm.amid (a : w.Calm) (ms : List (Option Action)) : (w.amid ms).Calm := by
  induction ms generalizing w with
  | nil => exact a
  | cons m ms ih =>
    cases m with
    | none => exact ih a.ask
    | some x => exact ih (a.step x)

theorem Undisturbed.amid (a : w.Undisturbed v) (hw : w.Calm) (hv : v.Calm)
    (ms : List (Option Action)) : (run w ms.reduceOption).Undisturbed (v.amid ms) := by
  induction ms generalizing w v with
  | nil => exact a
  | cons m ms ih =>
    cases m with
    | none => exact ih a.ask hw hv.ask
    | some x => exact ih (a.step hw hv x).1 (hw.step x) (hv.step x)

/-! ### The flag -/

theorem stopping_settle (w : World) : w.settle.1.hub.stopping = w.hub.stopping :=
  ((Undisturbed.refl w).of_flagged World.settle settle_flagged).2.2

theorem stopping_advanceWithin (n : Nat) (w : World) (t : Nat) :
    (advanceWithin n w t).1.hub.stopping = w.hub.stopping := by
  induction n generalizing w with
  | zero => rfl
  | succ n ih =>
    rw [advanceWithin]
    split
    · rfl
    · next x _ =>
      show (advanceWithin n (reports { w with now := x }).1.settle.1 t).1.hub.stopping = _
      rw [ih, stopping_settle]
      rfl

theorem stopping_step (w : World) (a : Action) :
    (w.step a).world.hub.stopping = (w.hub.stopping || a.stops) := by
  rw [step_eq]
  simp only [follow, andThen_fst, advance, stopping_advanceWithin, stopping_settle]
  exact w.stopping_undergo (.act a)

theorem stopping_amid (w : World) (ms : List (Option Action)) :
    (w.amid ms).hub.stopping = (w.hub.stopping || ms.any fun m => (m.getD .shutdown).stops) := by
  induction ms generalizing w with
  | nil => exact (Bool.or_false _).symm
  | cons m ms ih =>
    cases m with
    | none =>
      show (w.ask.amid ms).hub.stopping = _
      rw [ih, List.any_cons]
      exact (Bool.or_true _).symm
    | some a =>
      show ((w.step a).world.amid ms).hub.stopping = _
      rw [ih, stopping_step, List.any_cons, Bool.or_assoc]
      rfl

/-- A shutdown among the actions takes the time of one in which nothing is done. -/
theorem step_shutdown (w : World) : w.step .shutdown = w.ask.step (.wait 0) := by
  have hact : w.undergo (.act .shutdown) = w.ask.undergo (.act (.wait 0)) := rfl
  rw [step_eq, step_eq, hact]
  rfl

/-! ## Top theorem -/

/-- **A shutdown disturbs nobody.**  Shutdowns are put into a run, any number of them at any points,
and the run is compared to the one without them, at all times.  A session is the same but for the
stop flag, and its next step is answered and reported as before, unless it asks for the health.  So
is a relay, in whatever order its turns are taken, and so is the running relay: all links and their
clients and timers, the table, the mailboxes and the counters are the same, and so is what is answered
and reported next, apart from the health and the reporters, of which each has done the same or has
stopped.  The relay is healthy as long as no shutdown was asked for, and never again. -/
theorem shutdown_disturbs_nobody (p : Policy) (site : Http.Site) :
    (∀ ms : List (Option Session.Step),
      let s := Session.run (Session.start p) ms.reduceOption
      let t := Session.run (Session.start p) (Session.shutdownsIn ms)
      let asked := (Session.shutdownsIn ms).any Session.Step.stops
      t = s.flagged asked ∧ (Session.step t .health).answer = .truth (!asked) ∧
        ∀ st, st ≠ .health → (Session.step t st).answer = (Session.step s st).answer ∧
          (Session.step t st).events = (Session.step s st).events) ∧
    (∀ ms : List (Option Incident),
      let w := (start p site).after ms.reduceOption
      let v := (start p site).after (shutdownsAmid ms)
      w.Undisturbed v ∧ w.Answers v ∧ v.hub.stopping = (shutdownsAmid ms).any Incident.stops ∧
        ∀ x, x ≠ .report → x ≠ .act .startStatus → (v.undergo x).2 = (w.undergo x).2) ∧
    ∀ (s : RelaySettings) (ms : List (Option Action)),
      let w := run (start (.ofSettings s) site) ms.reduceOption
      let v := (start (.ofSettings s) site).amid ms
      w.Undisturbed v ∧ w.Answers v ∧
        v.hub.stopping = (ms.any fun m => (m.getD .shutdown).stops) ∧
        (∀ a, (v.step a).events.filter (!ofReporter ·) = (w.step a).events.filter (!ofReporter ·)) ∧
        v.step .shutdown = v.ask.step (.wait 0) := by
  refine ⟨fun ms => ?_, fun ms => ?_, fun s ms => ?_⟩
  · intro s t asked
    have ht : t = s.flagged asked := Session.run_shutdownsIn p ms
    exact ⟨ht, by rw [ht]; rfl, fun st hst => ht ▸ Session.answer_flagged s asked hst⟩
  · have hsame := (Undisturbed.refl (start p site)).after ms
    exact ⟨hsame, hsame.answers, stopping_after _ _, fun x => hsame.undergo_events⟩
  · have hcalm := calm_start s site
    have hsame := (Undisturbed.refl _).amid hcalm hcalm ms
    exact ⟨hsame, hsame.answers, stopping_amid _ _,
      fun a => (hsame.step (hcalm.run _) (hcalm.amid ms) a).2, step_shutdown _⟩

/-- A peer comes after a shutdown, and gets a frame from one that was there before. -/
def shutdownBetween : List (Option Action) :=
  [some (.connect (seventh "first")), none,
    some (.connect { seventh "other" with path := "/websocket/8" }),
    some (.send "first" (.text "[7,8,0]"))]

/-- It is the frame that it gets without a shutdown. -/
theorem relayed_after_shutdown :
    let w := start (.ofSettings {}) none
    (run w shutdownBetween.reduceOption).Undisturbed (w.amid shutdownBetween) ∧
      ((w.amid shutdownBetween).act .health).answer = .truth false ∧
      (w.amid shutdownBetween).hub.counters.forwarded.toNat = 1 ∧
      (w.amid shutdownBetween).links.map (·.client.inbox.length) = [0, 1] := by
  intro w
  obtain ⟨hsame, hanswers, hflag, -⟩ :=
    (shutdown_disturbs_nobody (.ofSettings {}) none).2.2 {} shutdownBetween
  refine ⟨hsame, ?_, by decide +kernel, by decide +kernel⟩
  rw [hanswers.health, hflag]
  rfl

/-- A reporter that goes on without a shutdown has stopped with one. -/
theorem statusRunning_after_shutdown :
    let w := start (.ofSettings {}) none
    ((run w [.startStatus, .wait 5000]).step .statusRunning).answer = .truth true ∧
      ((run w [.startStatus, .shutdown, .wait 5000]).step .statusRunning).answer = .truth false := by
  have shown : ∀ {w : World} {b : Bool}, w.reporters.getLast?.map (·.running) = some b →
      (w.step .statusRunning).answer = .truth b := by
    intro w b h
    obtain ⟨r, hr, hb⟩ := Option.map_eq_some_iff.1 h
    unfold step act
    dsimp only
    rw [hr, ← hb]
  exact ⟨shown (by decide +kernel), shown (by decide +kernel)⟩

end World

end Switchboard.Relay
