import Switchboard.Proofs.Hub.Outline
import Switchboard.Proofs.Json.Writing
import Switchboard.Proofs.Session.Ledger

/-!
# What frames carry decides nothing

Two sessions take the same steps, but that routed objects carry other payloads in one than in the
other (`Redressed`).  Their states differ in what the waiting frames say at most (`Twin`): a step
taken in both comes to the same answer, and leaves such states again.  With that, the same steps
deliver to each connection in both, and what waits is told by their numbers alone.

    s.Twin s' → st.Redressed st' → (step s st).state.Twin (step s' st').state
    pending c (start p) steps' = pending c (start p) steps
-/

namespace Switchboard.Session

open Json Text

/-! ## Specification -/

/-- A step, and what it becomes when a routed object carries something else. -/
inductive Step.Redressed : Step → Step → Prop
  | same (st : Step) : Redressed st st
  | route (bound : PeerId) {f f' : Frame} (h : f.Redressed f') :
      Redressed (.route bound f) (.route bound f')

/-- The same answer, but for the words for what is malformed, and for frames that are handed out:
these are related by `R`. -/
def Answer.Alike (R : List Frame → List Frame → Prop) : Answer → Answer → Prop
  | .frames fs, .frames fs' => R fs fs'
  | .violated v, .violated v' => v.Alike v'
  | a, a' => a' = a

/-- States that differ in what the waiting frames say at most. -/
structure State.Twin (s s' : State) : Prop where
  hub : s'.hub.outline = s.hub.outline
  records : s'.records = s.records

/-- As many frames on both sides. -/
def AsMany (fs fs' : List Frame) : Prop := fs'.length = fs.length

/-- Results that differ in frames at most, and where these are handed out they are related. -/
structure Result.Twin (R : List Frame → List Frame → Prop) (r r' : Result) : Prop where
  state : r.state.Twin r'.state
  answer : Answer.Alike R r.answer r'.answer
  events : r'.events = r.events

variable {s s' : State} {R : List Frame → List Frame → Prop}

/-! ## Parts of steps -/

theorem Answer.Alike.same {a : Answer}
    (hf : ∀ fs, a ≠ .frames fs) : Answer.Alike R a a := by
  cases a with
  | frames fs => exact absurd rfl (hf fs)
  | violated v => exact Violation.Alike.same v
  | _ => rfl

theorem Answer.Alike.cases {a a' : Answer}
    (h : Answer.Alike R a a') : a' = a ∨
      (∃ v v', a = .violated v ∧ a' = .violated v' ∧ v.Alike v') ∨
      ∃ fs fs', a = .frames fs ∧ a' = .frames fs' ∧ R fs fs' := by
  unfold Answer.Alike at h
  split at h
  · exact .inr (.inr ⟨_, _, rfl, rfl, h⟩)
  · exact .inr (.inl ⟨_, _, rfl, rfl, h⟩)
  · exact .inl h

namespace State.Twin

variable (t : s.Twin s')

include t

theorem find? (name : String) : s'.find? name = s.find? name := by
  unfold State.find?
  rw [t.records]

theorem nameOf (c : ConnId) : s'.nameOf c = s.nameOf c := by
  unfold State.nameOf
  rw [t.records]

theorem withHub {h h' : Hub} (e : h'.outline = h.outline) :
    State.Twin { s with hub := h } { s' with hub := h' } := ⟨e, t.records⟩

theorem update (name : String) (g : Record → Record) :
    (s.update name g).Twin (s'.update name g) := by
  refine ⟨t.hub, ?_⟩
  unfold State.update
  rw [t.records]

theorem leave (p : PeerId) (c : ConnId) : (s'.hub.leave p c).outline = (s.hub.leave p c).outline := by
  rw [Hub.outline_leave, t.hub, Hub.outline_leave]

theorem endGuard (r : Record) : (s.endGuard r).Twin (s'.endGuard r) := by
  unfold State.endGuard
  by_cases hg : r.guarded = true
  · rw [if_pos hg, if_pos hg]
    exact t.withHub (t.leave r.peer r.conn)
  · rw [if_neg hg, if_neg hg]
    exact t

theorem keep (r : Record) : (s.keep r).Twin (s'.keep r) := by
  unfold State.keep
  rw [t.find?]
  cases s.find? r.name with
  | none =>
    refine ⟨t.hub, ?_⟩
    dsimp only
    rw [t.records]
  | some old =>
    have tg := t.endGuard old
    constructor
    · show Hub.outline (Hub.updateBox _ _ _) = Hub.outline (Hub.updateBox _ _ _)
      rw [Hub.outline_discard, Hub.outline_discard, tg.hub]
    · dsimp only
      rw [tg.records]

/-- A question that both answer alike. -/
theorem tell {a a' : Answer} (ha : a' = a) (hf : ∀ fs, a ≠ .frames fs) :
    (tell s a).Twin R (tell s' a') := by
  subst ha
  exact ⟨t, .same hf, rfl⟩

end State.Twin

/-- A step of which one part works on the hub alone. -/
theorem twin_of_hub (t : s.Twin s') {h h' : Hub} {a a' : Answer} {es : List Event}
    (e : h'.outline = h.outline) (ha : a' = a) (hf : ∀ fs, a ≠ .frames fs) :
    Result.Twin R ⟨{ s with hub := h }, a, es⟩ ⟨{ s' with hub := h' }, a', es⟩ := by
  subst ha
  exact ⟨t.withHub e, .same hf, rfl⟩

/-! ## Steps -/

theorem twin_register (t : s.Twin s') (name : String) (p : PeerId) (capacity : Option Nat) :
    (register s name p capacity).Twin R (register s' name p capacity) := by
  have hcapacity : capacityOr s' capacity = capacityOr s capacity := by
    unfold capacityOr
    rw [Hub.policy_of_outline t.hub]
  obtain ⟨hout, hanswer⟩ := Hub.register_of_outline t.hub p (capacityOr s capacity)
  unfold register
  rw [hcapacity]
  rcases hr : s.hub.register p (capacityOr s capacity) with ⟨h, r⟩
  rcases hr' : s'.hub.register p (capacityOr s capacity) with ⟨h', r'⟩
  rw [hr, hr'] at hout hanswer
  obtain rfl : r' = r := hanswer
  cases r' with
  | error e => exact twin_of_hub t hout rfl nofun
  | ok done => exact ⟨(t.withHub hout).keep _, rfl, rfl⟩

theorem twin_handle (t : s.Twin s') (name : String) (p : PeerId) (capacity : Option Nat) :
    (handle s name p capacity).Twin R (handle s' name p capacity) := by
  have hopen : (s'.hub.openBox p (capacityOr s' capacity)).outline =
      (s.hub.openBox p (capacityOr s capacity)).outline := by
    unfold capacityOr
    rw [Hub.outline_openBox, Hub.outline_openBox, t.hub, Hub.policy_of_outline t.hub]
  unfold handle
  rw [Hub.fresh_of_outline t.hub]
  exact ((t.withHub hopen).keep _).tell rfl nofun

theorem twin_route (t : s.Twin s') (bound : PeerId) {f f' : Frame} (hf : f.Redressed f') :
    (route s bound f).Twin R (route s' bound f') := by
  obtain ⟨hout, hanswer⟩ := Hub.route_of_outline t.hub hf bound
  have hevents : ∀ r, s'.hub.routeEvents bound r = s.hub.routeEvents bound r := by
    intro r
    rw [← Hub.routeEvents_outline, t.hub, Hub.routeEvents_outline]
  unfold route
  rcases hr : s.hub.route bound f with ⟨h, r⟩
  rcases hr' : s'.hub.route bound f' with ⟨h', r'⟩
  rw [hr, hr'] at hout hanswer
  obtain ⟨o, rfl, rfl⟩ | ⟨v, v', rfl, rfl, hv⟩ := hanswer
  · exact ⟨t.withHub hout, rfl, hevents _⟩
  · exact ⟨t.withHub hout, hv, rfl⟩

theorem twin_lookup (t : s.Twin s') (p : PeerId) : lookup s' p = lookup s p := by
  unfold lookup
  rw [Hub.lookup_of_outline t.hub]
  cases s.hub.lookup p with
  | none => rfl
  | some c =>
    dsimp only
    rw [t.nameOf, Hub.isClosing_of_outline t.hub]

theorem twin_unregister (t : s.Twin s') (p : PeerId) :
    (unregister s p).Twin R (unregister s' p) := by
  unfold unregister
  rw [Hub.lookup_of_outline t.hub]
  cases s.hub.lookup p with
  | none => exact t.tell rfl nofun
  | some c =>
    dsimp only
    rw [t.nameOf]
    refine twin_of_hub t ?_ rfl nofun
    rw [Hub.outline_unregister, Hub.outline_unregister, t.hub]

theorem twin_enter (t : s.Twin s') (r : Record) (guarded : Bool) :
    (enter s r guarded).Twin R (enter s' r guarded) := by
  obtain ⟨hout, hanswer⟩ := Hub.enter_of_outline t.hub r.peer r.conn
  unfold enter
  rcases he : s.hub.enter r.peer r.conn with ⟨h, a⟩
  rcases he' : s'.hub.enter r.peer r.conn with ⟨h', a'⟩
  rw [he, he'] at hout hanswer
  obtain rfl : a' = a := hanswer
  cases a' with
  | error e => exact t.tell rfl nofun
  | ok evicted =>
    have hnames : evicted.map s'.nameOf = evicted.map s.nameOf := by
      cases evicted with
      | none => rfl
      | some old => exact congrArg some (t.nameOf old)
    dsimp only
    rw [hnames]
    by_cases hg : guarded = true
    · rw [if_pos hg, if_pos hg]
      exact (((t.withHub hout).endGuard r).update r.name _).tell rfl nofun
    · rw [if_neg hg, if_neg hg]
      exact (t.withHub hout).tell rfl nofun

theorem twin_deliver (t : s.Twin s') (r : Record) (f : Frame) :
    (deliver s r f).Twin R (deliver s' r f) := by
  obtain ⟨hout, hanswer⟩ := Hub.deliver_of_outline t.hub r.conn f
  unfold deliver
  rcases hd : s.hub.deliver r.conn f with ⟨h, a⟩
  rcases hd' : s'.hub.deliver r.conn f with ⟨h', a'⟩
  rw [hd, hd'] at hout hanswer
  obtain rfl : a' = a := hanswer
  cases a' with
  | error e => exact t.tell rfl nofun
  | ok u => exact (t.withHub hout).tell rfl nofun

theorem twin_release (t : s.Twin s') (r : Record) (reason : CloseReason) :
    (release s r reason).Twin R (release s' r reason) := by
  unfold release
  by_cases hg : r.guarded = true
  · have hout : (s'.hub.release r.peer r.conn).outline = (s.hub.release r.peer r.conn).outline := by
      rw [Hub.outline_release, t.hub, Hub.outline_release]
    rw [if_pos hg, if_pos hg]
    exact ⟨(t.withHub hout).update r.name _, rfl, rfl⟩
  · rw [if_neg hg, if_neg hg]
    exact t.tell rfl nofun

/-- The frames that a step hands out in each of two sessions are related by `R`. -/
def Handed (R : List Frame → List Frame → Prop) (s s' : State) (st : Step) : Prop :=
  ∀ n most r, st = .receive n most → s.find? n = some r →
    R (s.hub.receive r.conn most).1 (s'.hub.receive r.conn most).1

theorem twin_receive (t : s.Twin s') (r : Record) (n : String) (most : Option Nat)
    (hR : R (s.hub.receive r.conn most).1 (s'.hub.receive r.conn most).1) :
    (onRecord s r (.receive n most)).Twin R (onRecord s' r (.receive n most)) := by
  obtain ⟨-, hout⟩ := Hub.receive_of_outline t.hub r.conn most
  exact ⟨t.withHub hout, hR, rfl⟩

theorem twin_onRecord (t : s.Twin s') (r : Record) (st : Step)
    (hR : ∀ n most, st = .receive n most →
      R (s.hub.receive r.conn most).1 (s'.hub.receive r.conn most).1) :
    (onRecord s r st).Twin R (onRecord s' r st) := by
  have hcurrent : ∀ p, s'.hub.isCurrent p r.conn = s.hub.isCurrent p r.conn := fun p =>
    Hub.isCurrent_of_outline t.hub p r.conn
  cases st with
  | insert n => exact twin_enter t r false
  | acquire n => exact twin_enter t r true
  | unregisterConnection n p =>
    exact twin_of_hub t (t.leave _ r.conn) (congrArg Answer.truth (hcurrent _)) nofun
  | isCurrent n p => exact t.tell (congrArg Answer.truth (hcurrent _)) nofun
  | guardIsCurrent n =>
    refine t.tell ?_ fun fs => ?_
    · rw [hcurrent]
    · split <;> exact nofun
  | cancelled n =>
    exact t.tell (congrArg Answer.truth (Hub.isClosing_of_outline t.hub r.conn)) nofun
  | requestClose n =>
    refine twin_of_hub t ?_ rfl nofun
    rw [Hub.outline_requestClose, Hub.outline_requestClose, t.hub]
  | deliver n f => exact twin_deliver t r f
  | receive n most => exact twin_receive t r n most (hR n most rfl)
  | closeReceiver n =>
    refine twin_of_hub t ?_ rfl nofun
    rw [Hub.outline_shut, Hub.outline_shut, t.hub]
  | dropReceiver n =>
    refine twin_of_hub t ?_ rfl nofun
    rw [Hub.outline_discard, Hub.outline_discard, t.hub]
  | release n reason => exact twin_release t r reason
  | dropGuard n => exact ((t.endGuard r).update r.name _).tell rfl nofun
  | _ => exact t.tell rfl nofun

theorem twin_status (t : s.Twin s') : (step s .status).Twin R (step s' .status) := by
  have honline : s'.hub.online = s.hub.online := by
    unfold Hub.online
    rw [Hub.table_of_outline t.hub]
  have hevent : s'.hub.statusEvent = s.hub.statusEvent := by
    unfold Hub.statusEvent Hub.onlineText
    rw [honline, Hub.table_of_outline t.hub]
  refine ⟨t, ?_, congrArg ([·]) hevent⟩
  show Answer.online _ _ = Answer.online _ _
  unfold Hub.onlineText
  rw [honline]

theorem twin_same (t : s.Twin s') (st : Step) (hR : Handed R s s' st) :
    (step s st).Twin R (step s' st) := by
  cases hs : st.subject with
  | some n =>
    rw [step_of_subject s st n hs, step_of_subject s' st n hs, t.find?]
    cases hf : s.find? n with
    | none => exact t.tell rfl nofun
    | some r =>
      refine twin_onRecord t r st fun m most hst => ?_
      subst hst
      obtain rfl : m = n := Option.some.inj hs
      exact hR m most r rfl hf
  | none =>
    cases st with
    | register name p capacity => exact twin_register t name p capacity
    | handle name p capacity => exact twin_handle t name p capacity
    | route bound f => exact twin_route t bound (.same f)
    | status => exact twin_status t
    | health =>
      refine t.tell ?_ nofun
      unfold Hub.healthy
      rw [Hub.stopping_of_outline t.hub]
    | shutdown =>
      refine twin_of_hub t ?_ rfl nofun
      rw [Hub.outline_shutdown, Hub.outline_shutdown, t.hub]
    | policy =>
      refine t.tell ?_ nofun
      rw [Hub.policy_of_outline t.hub]
    | count =>
      refine t.tell ?_ nofun
      rw [Hub.table_of_outline t.hub]
    | contains p =>
      refine t.tell ?_ nofun
      rw [Hub.table_of_outline t.hub]
    | lookup p =>
      refine t.tell (twin_lookup t p) fun fs => ?_
      unfold lookup
      split <;> exact nofun
    | unregister p => exact twin_unregister t p
    | _ => cases hs

/-- **A step in both comes to the same**, if the frames that it hands out are related. -/
theorem twin_step (t : s.Twin s') {st st' : Step} (hst : st.Redressed st')
    (hR : Handed R s s' st) : (step s st).Twin R (step s' st') := by
  cases hst with
  | same => exact twin_same t st hR
  | route bound hf => exact twin_route t bound hf

/-- As many frames are handed out in both. -/
theorem handed_asMany (t : s.Twin s') (st : Step) : Handed AsMany s s' st := fun _ most r _ _ =>
  (Hub.receive_of_outline t.hub r.conn most).1

theorem twin_run (t : s.Twin s') {steps steps' : List Step}
    (h : List.Forall₂ Step.Redressed steps steps') : (run s steps).Twin (run s' steps') := by
  induction h generalizing s s' with
  | nil => exact t
  | cons hst _ ih => exact ih (twin_step t hst (handed_asMany t _)).state

theorem twin_refl (s : State) : s.Twin s := ⟨rfl, rfl⟩

/-! ## The same deliveries -/

theorem landing_route (s : State) (bound : PeerId) (f : Frame) :
    landing? s (.route bound f) = match (step s (.route bound f)).answer with
      | .routed (.forwarded dest) => s.hub.lookup dest
      | _ => none := by
  unfold landing? handedOver
  generalize (step s (.route bound f)).answer = a
  cases a with
  | routed o =>
    cases o with
    | forwarded dest =>
      dsimp only
      cases s.hub.lookup dest <;> rfl
    | _ => rfl
  | _ => rfl

theorem landing_deliver (s : State) (n : String) (f : Frame) :
    landing? s (.deliver n f) = match (step s (.deliver n f)).answer with
      | .done => (s.find? n).map (·.conn)
      | _ => none := by
  unfold landing? handedOver
  generalize (step s (.deliver n f)).answer = a
  cases a with
  | done =>
    dsimp only
    cases s.find? n <;> rfl
  | _ => rfl

theorem landing_twin_route (t : s.Twin s') (bound : PeerId) {f f' : Frame} (hf : f.Redressed f') :
    landing? s' (.route bound f') = landing? s (.route bound f) := by
  rw [landing_route, landing_route]
  obtain ha | ⟨v, v', ha, ha', -⟩ | ⟨fs, fs', ha, ha', -⟩ :=
    (twin_step t (.route bound hf) (handed_asMany t _)).answer.cases
  · rw [ha]
    split
    · exact Hub.lookup_of_outline t.hub _
    · rfl
  · rw [ha, ha']
  · rw [ha, ha']

theorem landing_twin_deliver (t : s.Twin s') (n : String) (f : Frame) :
    landing? s' (.deliver n f) = landing? s (.deliver n f) := by
  rw [landing_deliver, landing_deliver]
  obtain ha | ⟨v, v', ha, ha', -⟩ | ⟨fs, fs', ha, ha', -⟩ :=
    (twin_step t (.same (.deliver n f)) (handed_asMany t _)).answer.cases
  · rw [ha, t.find?]
  · rw [ha, ha']
  · rw [ha, ha']

/-- A step lands on the same connection in both. -/
theorem landing_twin (t : s.Twin s') {st st' : Step} (hst : st.Redressed st') :
    landing? s' st' = landing? s st := by
  cases hst with
  | route bound hf => exact landing_twin_route t bound hf
  | same =>
    cases st with
    | route bound f => exact landing_twin_route t bound (.same f)
    | deliver n f => exact landing_twin_deliver t n f
    | _ => rfl

theorem landings_twin (t : s.Twin s') (c : ConnId) {steps steps' : List Step}
    (h : List.Forall₂ Step.Redressed steps steps') :
    landings c s' steps' = landings c s steps := by
  induction h generalizing s s' with
  | nil => rfl
  | cons hst _ ih =>
    unfold landings
    rw [landing_twin t hst, ih (twin_step t hst (handed_asMany t _)).state]

/-- What a step takes out of a queue is what it receives there. -/
theorem takenBy_receive (c : ConnId) (s : State) (n : String) (most : Option Nat) :
    takenBy c s (.receive n most) = match s.find? n with
      | some r => if r.conn = c then (s.hub.receive r.conn most).1 else []
      | none => [] := by
  unfold takenBy handedOut
  rw [step_of_subject s (.receive n most) n rfl]
  cases hf : s.find? n with
  | none => rfl
  | some r => simp only [onRecord, tell, hf, Option.map_some]

/-- As many frames are taken out of a queue in both. -/
theorem takenBy_twin (t : s.Twin s') (c : ConnId) {st st' : Step} (hst : st.Redressed st') :
    (takenBy c s' st').length = (takenBy c s st).length := by
  cases hst with
  | route => rfl
  | same =>
    by_cases hr : ∃ n most, st = .receive n most
    · obtain ⟨n, most, rfl⟩ := hr
      rw [takenBy_receive, takenBy_receive, t.find?]
      cases s.find? n with
      | none => rfl
      | some r =>
        dsimp only
        split
        · exact (Hub.receive_of_outline t.hub r.conn most).1
        · rfl
    · have hnone : ∀ s, takenBy c s st = [] := by
        intro s
        unfold takenBy
        rw [handedOut_of_not_receive s st fun n most h => hr ⟨n, most, h⟩]
      rw [hnone, hnone]

theorem taken_twin (t : s.Twin s') (c : ConnId) {steps steps' : List Step}
    (h : List.Forall₂ Step.Redressed steps steps') :
    (taken c s' steps').length = (taken c s steps).length := by
  induction h generalizing s s' with
  | nil => rfl
  | cons hst _ ih =>
    rw [taken_cons, taken_cons, List.length_append, List.length_append, takenBy_twin t c hst,
      ih (twin_step t hst (handed_asMany t _)).state]

/-- **The same steps are pending in both.** -/
theorem pending_twin (p : Policy) (c : ConnId) {steps steps' : List Step}
    (h : List.Forall₂ Step.Redressed steps steps') :
    pending c (start p) steps' = pending c (start p) steps := by
  have t := twin_refl (start p)
  unfold pending
  rw [Hub.gone_of_outline (twin_run t h).hub, landings_twin t c h, taken_twin t c h]

/-! ## Top theorem -/

/-- The frames `fs` and `fs'` are those of the same steps, the first of those that wait for some
connection. -/
def FirstPending (p : Policy) (steps steps' : List Step) (fs fs' : List Frame) : Prop :=
  ∃ c ns, ns <+: pending c (start p) steps ∧ Lists steps ns fs ∧ Lists steps' ns fs'

theorem handed_firstPending (p : Policy) {steps steps' : List Step}
    (h : List.Forall₂ Step.Redressed steps steps') (st : Step) :
    Handed (FirstPending p steps steps') (run (start p) steps) (run (start p) steps') st := by
  rintro n most r rfl hf
  have t := twin_run (twin_refl (start p)) h
  have hown := lists_takenBy p r.conn steps (.receive n most)
  have hother := lists_takenBy p r.conn steps' (.receive n most)
  rw [takenBy_twin t r.conn (.same _), pending_twin p r.conn h] at hother
  rw [takenBy_receive, hf] at hown
  rw [takenBy_receive, takenBy_receive, t.find?, hf] at hother
  simp only [if_true] at hown hother
  exact ⟨r.conn, _, List.take_prefix _ _, hown, hother⟩

/-- **What frames carry decides nothing.**  Two sessions take the same steps, but that in any of the
routed frames which are objects the values of members other than the two identifiers are other ones.
Before and after each step counters, table, guards and close signals are the same in both, and so is
everything else but what the waiting frames say; the step is answered alike and reports the same; and
each queue holds, and each receipt hands out, the frames of the same steps in both. -/
theorem payload_opaque (p : Policy) {steps steps' : List Step}
    (h : List.Forall₂ Step.Redressed steps steps') (n : Nat) :
    let s := run (start p) (steps.take n)
    let s' := run (start p) (steps'.take n)
    s'.hub.counters = s.hub.counters ∧ s'.hub.table = s.hub.table ∧
      (∀ c, s'.hub.isClosing c = s.hub.isClosing c) ∧ s'.records = s.records ∧
      s'.hub.outline = s.hub.outline ∧
      (∀ c, Lists (steps.take n) (pending c (start p) (steps.take n)) (s.hub.waiting c) ∧
        Lists (steps'.take n) (pending c (start p) (steps.take n)) (s'.hub.waiting c)) ∧
      ∀ st st', steps[n]? = some st → steps'[n]? = some st' →
        Answer.Alike (FirstPending p (steps.take n) (steps'.take n))
          (step s st).answer (step s' st').answer ∧
        (step s' st').events = (step s st).events := by
  intro s s'
  have hn : List.Forall₂ Step.Redressed (steps.take n) (steps'.take n) := List.forall₂_take n h
  have t : s.Twin s' := twin_run (twin_refl (start p)) hn
  refine ⟨Hub.counters_of_outline t.hub, Hub.table_of_outline t.hub,
    Hub.isClosing_of_outline t.hub, t.records, t.hub, fun c => ⟨?_, ?_⟩,
    fun st st' hst hst' => ?_⟩
  · exact lists_waiting p c (steps.take n)
  · rw [← pending_twin p c hn]
    exact lists_waiting p c (steps'.take n)
  · have hpair : st.Redressed st' := by
      obtain ⟨hlt, rfl⟩ := List.getElem?_eq_some_iff.1 hst
      obtain ⟨hlt', rfl⟩ := List.getElem?_eq_some_iff.1 hst'
      exact h.get hlt hlt'
    have hstep := twin_step t hpair (handed_firstPending p hn st)
    exact ⟨hstep.answer, hstep.events⟩

/-- An envelope from 1 to 2 with this payload. -/
def letter (v : Bytes) : Bytes :=
  123 :: (bytes (quote "userId") ++ 58 :: 49 :: 44 :: (bytes (quote "toUserId") ++ 58 :: 50 :: 44 ::
    (bytes (quote "message") ++ 58 :: (v ++ [125]))))

theorem objectText_letter {v : Bytes} (hv : Written Inside .value v) :
    ObjectText Inside [⟨"userId", [49]⟩, ⟨"toUserId", [50]⟩, ⟨"message", v⟩] (letter v) := by
  have one : Written Inside .value [49] := written_natural 1
  have two : Written Inside .value [50] := written_natural 2
  have hthird := More.next gap_nil (memberText_quote "message" gap_nil hv) (.done gap_nil)
  have hsecond := More.next gap_nil (memberText_quote "toUserId" gap_nil two) hthird
  have hbody := Body.filled (memberText_quote "userId" gap_nil one) hsecond
  refine ⟨[], _, [], gap_nil, hbody, gap_nil, ?_⟩
  simp [letter, Bracket.opening, Bracket.close]

theorem redressed_letter {v v' : Bytes} (hv : Written Inside .value v)
    (hv' : Written Inside .value v') : (Frame.binary (letter v)).Redressed (.binary (letter v')) := by
  refine .binary (objectText_letter hv) (objectText_letter hv') ?_
  refine .cons ⟨rfl, fun _ => rfl⟩ (.cons ⟨rfl, fun _ => rfl⟩ (.cons ⟨rfl, ?_⟩ .nil))
  intro hid
  exact absurd hid (by simp)

/-- One peer writes to another, and that one reads it. -/
def exchange (v : Bytes) : List Step :=
  [.register "a" 1 none, .register "b" 2 none, .route 1 (.binary (letter v)), .receive "b" none]

/-- A payload that looks like a recipient. -/
def lookalike : Bytes := 123 :: (bytes (quote "toUserId") ++ [58, 49, 125])

/-- The letter goes to 2 with nothing in it, and with a recipient in it as well. -/
theorem payload_opaque_lookalike :
    let s := run (start evicting) ((exchange (110 :: nullTail)).take 3)
    let s' := run (start evicting) ((exchange lookalike).take 3)
    List.Forall₂ Step.Redressed (exchange (110 :: nullTail)) (exchange lookalike) ∧
      s'.hub.counters = s.hub.counters ∧ s.hub.counters.forwarded = 1 ∧
      s.hub.waiting 1 = [.binary (letter (110 :: nullTail))] ∧
      s'.hub.waiting 1 = [.binary (letter lookalike)] ∧
      Answer.Alike (FirstPending evicting ((exchange (110 :: nullTail)).take 3)
          ((exchange lookalike).take 3))
        (step s (.receive "b" none)).answer (step s' (.receive "b" none)).answer := by
  intro s s'
  have hlook : Written Inside .value lookalike := by
    have one : Written Inside .value [49] := written_natural 1
    have hmember := Written.member gap_nil (spells_escaped "toUserId").inside gap_nil gap_nil one
      gap_nil
    have hobject := Written.filled (.last hmember)
    have hbytes : lookalike = Bracket.object.opening :: (([] : Bytes) ++ 34 ::
        (escaped "toUserId" ++ 34 :: (([] : Bytes) ++ 58 :: (([] : Bytes) ++ ([49] ++ [])))) ++
          [Bracket.object.close]) := by decide
    rw [hbytes]
    exact hobject
  have h : List.Forall₂ Step.Redressed (exchange (110 :: nullTail)) (exchange lookalike) :=
    .cons (.same _) (.cons (.same _) (.cons (.route 1 (redressed_letter .null hlook))
      (.cons (.same _) .nil)))
  obtain ⟨hcounters, -, -, -, -, -, hanswer⟩ := payload_opaque evicting h 3
  exact ⟨h, hcounters, by decide +kernel, by decide +kernel, by decide +kernel,
    (hanswer _ _ rfl rfl).1⟩

end Switchboard.Session
