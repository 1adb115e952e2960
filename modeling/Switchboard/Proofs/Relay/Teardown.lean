import Mathlib.Data.List.Chain
import Switchboard.Proofs.Relay.Lifecycle

/-!
# How connections are taken down

Whatever happens, and in whatever order: the stages of a link are those of its course, no move
between them is refused, a connection that was accepted is released once, and is out of the table
before any close frame is on its way, and behind the close frame there is nothing.

    l.stage = closed → (w.log i xs).filter isMove = walk l.peer (course l.conn.isSome)
    LastWord r fs ↔ fs is what was said without a close frame, and at most one that tells r
-/

namespace Switchboard.Relay

/-! ## Specification -/

/-- The stages of a connection that is accepted, and of one that is refused. -/
def course (accepted : Bool) : List Stage :=
  if accepted then [.connecting, .established, .closing, .closed]
  else [.connecting, .closing, .closed]

/-- What is reported of the way from one stage to the next. -/
def walk (p : PeerId) : List Stage → List Event
  | s :: t :: rest => s.moveEvent p t :: walk p (t :: rest)
  | _ => []

/-- The course of a link as far as it has come. -/
def Link.stages (l : Link) : List Stage :=
  (course l.conn.isSome).takeWhile (· != l.stage) ++ [l.stage]

/-- A connection is released once its service has ended. -/
def Link.releases (l : Link) (r : CloseReason) : List Event :=
  match l.conn with
  | some c => if l.stage = .established then [] else [Hub.releaseEvent l.peer c r]
  | none => []

/-- At most one close frame, at the very end, and it tells the reason. -/
def LastWord (r : CloseReason) (fs : List Frame) : Prop :=
  ∃ said closes, fs = said ++ closes ∧ Unclosed said ∧ closes.length ≤ 1 ∧ ∀ f ∈ closes, Tells r f

/-- How the link `i` has come to be `l` in a run from `w`; once it is not served, `r` is why. -/
structure Teardown (w : World) (xs : List Incident) (i : Nat) (l : Link) (r : CloseReason) :
    Prop where
  unbroken : ∀ reached, l.phase ≠ .lost reached
  onCourse : l.stage ∈ course l.conn.isSome
  moves : (w.log i xs).filter isMove = walk l.peer l.stages
  whole : l.stage = .closed → (w.log i xs).filter isMove = walk l.peer (course l.conn.isSome)
  allowed : ∀ e ∈ w.log i xs, e.message ≠ "Ignoring invalid connection state transition"
  released : (w.log i xs).filter isRelease = l.releases r
  reason : ∀ r' owed giveUp, l.phase = .closing r' owed giveUp → r' = r
  told : l.stage = .closed → l.finalEvent r ∈ w.log i xs
  /-- From just before the first close frame on, the table does not lead to the connection. -/
  unlisted : ∀ c, l.conn = some c → ∀ ys x, ys ++ [x] <+: xs →
    (∃ f ∈ w.sent i (ys ++ [x]), isClose f = true) →
    (w.after ys).hub.lookup l.peer ≠ some c ∧ (w.after (ys ++ [x])).hub.lookup l.peer ≠ some c
  /-- A connection that is refused leaves the table alone. -/
  untouched : l.conn = none → ∀ s ∈ w.trace xs, s.1.concerns i s.2 = true →
    (s.1.undergo s.2).1.hub.table = s.1.hub.table
  lastWord : LastWord r (w.sent i xs)

/-! ## Reports and words -/

variable {l l' : Link} {r : CloseReason} {fs : List Frame}

theorem Unclosed.append {gs : List Frame} (a : Unclosed fs) (b : Unclosed gs) :
    Unclosed (fs ++ gs) :=
  fun f hf => (List.mem_append.1 hf).elim (a f) (b f)

theorem Unclosed.lastWord (a : Unclosed fs) (r : CloseReason) : LastWord r fs :=
  ⟨fs, [], (List.append_nil fs).symm, a, Nat.zero_le 1, fun _ hf => by cases hf⟩

theorem Unclosed.snoc {f : Frame} (a : Unclosed fs) (ht : Tells r f) : LastWord r (fs ++ [f]) :=
  ⟨fs, [f], rfl, a, Nat.le_refl 1, fun g hg => by rwa [List.mem_singleton.1 hg]⟩

theorem Unclosed.not_exists (a : Unclosed fs) : ¬ ∃ f ∈ fs, isClose f = true := by
  rintro ⟨f, hf, hc⟩
  rw [a f hf] at hc
  cases hc

theorem stage_of_serving {writer : Writer} (hp : l.phase = .serving writer) :
    l.stage = .established := by rw [Link.stage, hp]

theorem stage_of_closing {owed : Option Frame} {giveUp : Nat}
    (hp : l.phase = .closing r owed giveUp) : l.stage = .closing := by rw [Link.stage, hp]

theorem stage_of_gone (hp : l.phase = .gone) : l.stage = .closed := by rw [Link.stage, hp]

theorem stages_congr (hs : l'.stage = l.stage) (hc : l'.conn = l.conn) : l'.stages = l.stages := by
  rw [Link.stages, Link.stages, hs, hc]

theorem stages_closed (hs : l.stage = .closed) : l.stages = course l.conn.isSome := by
  rw [Link.stages, hs]
  cases l.conn.isSome <;> rfl

theorem prefix_course (accepted : Bool) (s : Stage) (hs : s ∈ course accepted) :
    (course accepted).takeWhile (· != s) ++ [s] <+: course accepted := by
  revert hs
  cases accepted <;> cases s <;> decide

theorem course_allowed (accepted : Bool) :
    (course accepted).IsChain fun s t => s.allows t = true := by
  cases accepted <;> decide

theorem message_of_mem_walk {p : PeerId} {ss : List Stage}
    (hc : ss.IsChain fun s t => s.allows t = true) {e : Event} (he : e ∈ walk p ss) :
    e.message = "Connection state changed" := by
  induction ss with
  | nil => cases he
  | cons s rest ih =>
    cases rest with
    | nil => cases he
    | cons t rest =>
      obtain ⟨hst, hrest⟩ := List.isChain_cons_cons.1 hc
      rcases List.mem_cons.1 he with rfl | he
      · rw [Stage.moveEvent, if_pos hst]
      · exact ih hrest he

/-- Along a course no move is refused. -/
theorem allowed_of_moves {log : List Event} (hm : l.stage ∈ course l.conn.isSome)
    (hl : log.filter isMove = walk l.peer l.stages) {e : Event} (he : e ∈ log) :
    e.message ≠ "Ignoring invalid connection state transition" := by
  intro hmsg
  have hmove : isMove e = true := by
    rw [isMove, hmsg]
    decide
  have hwalk : e ∈ walk l.peer l.stages := hl ▸ List.mem_filter.2 ⟨he, hmove⟩
  obtain ⟨rest, hrest⟩ := prefix_course _ _ hm
  have hchain : l.stages.IsChain fun s t => s.allows t = true :=
    (hrest ▸ course_allowed l.conn.isSome).left_of_append
  rw [message_of_mem_walk hchain hwalk] at hmsg
  revert hmsg
  decide

theorem filter_move {before : List Event} {e : Event} (hb : Quiet before) (he : isMove e = false)
    (p : PeerId) (s t : Stage) :
    (before ++ [s.moveEvent p t, e]).filter isMove = [s.moveEvent p t] := by
  rw [List.filter_append, hb.filter.1, List.nil_append, List.filter_cons,
    if_pos (isMove_moveEvent p s t), List.filter_cons, if_neg (by simp [he]), List.filter_nil]

theorem filter_release {before : List Event} (hb : Quiet before) (p : PeerId) (s t : Stage)
    (e : Event) :
    (before ++ [s.moveEvent p t, e]).filter isRelease = [e].filter isRelease := by
  rw [List.filter_append, hb.filter.2, List.nil_append, List.filter_cons,
    if_neg (by simp [isRelease_moveEvent])]

/-! ## The account of a link -/

/-- What a link in a phase has written, and still owes. -/
def Written (r : CloseReason) (sent : List Frame) : Phase → Prop
  | .serving _ => Unclosed sent
  | .closing r' (some f) _ => r' = r ∧ Unclosed sent ∧ Tells r f
  | .closing r' none _ => r' = r ∧ LastWord r sent
  | .gone => LastWord r sent
  | .lost _ => False

/-- The account of a link `l` after what it has told and sent. -/
structure Account (h : Hub) (l : Link) (log : List Event) (sent : List Frame) (r : CloseReason) :
    Prop where
  known : ∀ c, l.conn = some c → c < h.fresh
  onCourse : l.stage ∈ course l.conn.isSome
  moves : log.filter isMove = walk l.peer l.stages
  released : log.filter isRelease = l.releases r
  told : l.stage = .closed → l.finalEvent r ∈ log
  unlisted : l.stage ≠ .established → ∀ c, l.conn = some c → h.lookup l.peer ≠ some c
  written : Written r sent l.phase

variable {w : World} {h h' : Hub} {log es : List Event} {sent : List Frame}

theorem Account.known_of_work (a : Account w.hub l log sent r) (hw : w.hub.Work h')
    (hconn : l'.conn = l.conn) : ∀ c, l'.conn = some c → c < h'.fresh := fun c hc =>
  Nat.lt_of_lt_of_le (a.known c (hconn ▸ hc)) hw.later.fresh_le

/-- Of the connections that there were, none is entered anew. -/
theorem Account.unlisted_of_work (a : Account w.hub l log sent r) (hw : w.hub.Work h')
    (hpeer : l'.peer = l.peer) (hconn : l'.conn = l.conn) (hs : l.stage ≠ .established) :
    ∀ c, l'.conn = some c → h'.lookup l'.peer ≠ some c := by
  intro c hc hl
  rw [hconn] at hc
  rw [hpeer] at hl
  exact a.unlisted hs c hc (hw.lookup (a.known c hc) hl)

theorem finalEvent_congr (haddress : l'.address = l.address) (hpeer : l'.peer = l.peer)
    (r : CloseReason) : l'.finalEvent r = l.finalEvent r := by
  simp only [Link.finalEvent, Link.addressField, haddress, hpeer]

/-- As long as the stage is the same, only what is written may be news. -/
theorem Account.stays (a : Account w.hub l log sent r) (hw : w.hub.Work h')
    (haddress : l'.address = l.address) (hpeer : l'.peer = l.peer) (hconn : l'.conn = l.conn)
    (hs : l'.stage = l.stage) (hq : Quiet es) (hwr : Written r (sent ++ fs) l'.phase) :
    Account h' l' (log ++ es) (sent ++ fs) r where
  known := a.known_of_work hw hconn
  onCourse := by
    rw [hs, hconn]
    exact a.onCourse
  moves := by
    rw [List.filter_append, hq.filter.1, List.append_nil, hpeer, stages_congr hs hconn]
    exact a.moves
  released := by
    rw [List.filter_append, hq.filter.2, List.append_nil, a.released, Link.releases, Link.releases,
      hs, hconn, hpeer]
  told hg := by
    rw [finalEvent_congr haddress hpeer]
    exact List.mem_append_left _ (a.told (hs ▸ hg))
  unlisted hne := a.unlisted_of_work hw hpeer hconn (hs ▸ hne)
  written := hwr

/-- A link that is served ends. -/
theorem Account.ends {writer : Writer} {c : ConnId} {r' : CloseReason} {owed : Option Frame}
    {giveUp : Nat} {h₀ : Hub} {before : List Event} (a : Account w.hub l log sent r)
    (hw : w.hub.Work h') (hpeer : l'.peer = l.peer) (hconn : l'.conn = l.conn)
    (hp : l.phase = .serving writer) (hc : l.conn = some c)
    (hp' : l'.phase = .closing r' owed giveUp) (ho : ∀ f, owed = some f → Tells r' f)
    (hh : h' = (h₀.release l.peer c).requestClose c) (hb : Quiet before) :
    Account h' l' (log ++ (before ++ [Stage.established.moveEvent l.peer .closing,
      Hub.releaseEvent l.peer c r'])) sent r' := by
  have hs := stage_of_serving hp
  have hs' := stage_of_closing hp'
  have hc' : l'.conn = some c := hconn.trans hc
  refine ⟨a.known_of_work hw hconn, ?_, ?_, ?_, fun hg => ?_, fun _ d hd hl => ?_, ?_⟩
  · rw [hs', hc']
    simp [course]
  · rw [List.filter_append, a.moves, filter_move hb (isMove_releaseEvent _ _ _), hpeer, Link.stages,
      Link.stages, hc, hc', hs, hs']
    rfl
  · rw [List.filter_append, a.released, filter_release hb, Link.releases, Link.releases, hc, hc',
      hs, hs', hpeer]
    rfl
  · rw [hs'] at hg
    cases hg
  · -- the entry was removed if it was there
    obtain rfl := Option.some.inj (hd.symm.trans hc')
    rw [hpeer, hh, Hub.lookup_requestClose, Hub.release, Hub.lookup_tally, Hub.lookup_leave] at hl
    split at hl
    · cases hl
    · next hne => exact hne ⟨rfl, hl⟩
  · have written : Unclosed sent := by
      have hwr := a.written
      rwa [hp] at hwr
    rw [hp']
    cases owed with
    | none => exact ⟨rfl, written.lastWord r'⟩
    | some f => exact ⟨rfl, written, ho f rfl⟩

/-- A closing link is gone. -/
theorem Account.parts {r' : CloseReason} {owed : Option Frame} {giveUp : Nat}
    {before : List Event} (a : Account w.hub l log sent r) (hw : w.hub.Work h')
    (haddress : l'.address = l.address) (hpeer : l'.peer = l.peer) (hconn : l'.conn = l.conn)
    (hp : l.phase = .closing r' owed giveUp) (hp' : l'.phase = .gone) (hb : Quiet before) :
    Account h' l' (log ++ (before ++ [Stage.closing.moveEvent l.peer .closed, l.finalEvent r']))
      sent r' := by
  have hs := stage_of_closing hp
  have hs' := stage_of_gone hp'
  have hword : r' = r ∧ LastWord r sent := by
    have hwr := a.written
    rw [hp] at hwr
    cases owed with
    | none => exact hwr
    | some f => exact ⟨hwr.1, hwr.2.1.lastWord r⟩
  obtain ⟨rfl, hword⟩ := hword
  have hfinal := quiet_finalEvent l r' _ List.mem_cons_self
  refine ⟨a.known_of_work hw hconn, ?_, ?_, ?_, fun _ => ?_,
    fun _ => a.unlisted_of_work hw hpeer hconn (by rw [hs]; decide), ?_⟩
  · rw [hs']
    cases l'.conn <;> simp [course]
  · rw [List.filter_append, a.moves, filter_move hb hfinal.1, hpeer, Link.stages, Link.stages,
      hconn, hs, hs']
    cases l.conn <;> rfl
  · rw [List.filter_append, a.released, filter_release hb, Link.releases, Link.releases, hconn,
      hs, hs', hpeer]
    have hnone : [l.finalEvent r'].filter isRelease = [] := (quiet_finalEvent l r').filter.2
    rw [hnone, List.append_nil]
    rfl
  · rw [finalEvent_congr haddress hpeer]
    simp
  · rw [hp']
    exact hword

/-- **Every step keeps the account of a link.** -/
theorem Account.step (a : Account w.hub l log sent r) (hp : Progress w l l' h' es fs)
    (hi : l.conn.isSome → w.idleTooLong = false) (hw : w.hub.Work h')
    (haddress : l'.address = l.address) (hpeer : l'.peer = l.peer) (hconn : l'.conn = l.conn) :
    ∃ r', Account h' l' (log ++ es) (sent ++ fs) r' := by
  have written := a.written
  cases hp with
  | serves hp hp' he hf =>
    rw [hp] at written
    have hs : l'.stage = l.stage := (stage_of_serving hp').trans (stage_of_serving hp).symm
    refine ⟨r, a.stays hw haddress hpeer hconn hs he ?_⟩
    rw [hp']
    exact Unclosed.append written hf
  | @ends writer c r' owed giveUp h₀ before hp hc hp' ho hw₀ hh hb he hf =>
    subst he hf
    rw [List.append_nil]
    exact ⟨r', a.ends hw hpeer hconn hp hc hp' ho hh hb⟩
  | breaks hp hc hlong =>
    rw [hi (by rw [hc]; rfl)] at hlong
    cases hlong
  | @pays r' f giveUp hp hp' he hf =>
    rw [hp] at written
    obtain ⟨rfl, hun, ht⟩ := written
    subst he hf
    have hs : l'.stage = l.stage := (stage_of_closing hp').trans (stage_of_closing hp).symm
    refine ⟨r', a.stays hw haddress hpeer hconn hs .nil ?_⟩
    rw [hp']
    exact ⟨rfl, hun.snoc ht⟩
  | @parts r' owed giveUp before hp hp' hb he hf =>
    subst he hf
    rw [List.append_nil]
    exact ⟨r', a.parts hw haddress hpeer hconn hp hp' hb⟩
  | rests hp he hf =>
    subst he hf
    have hs : l'.stage = l.stage := by rw [Link.stage, hp]; rfl
    refine ⟨r, a.stays hw haddress hpeer hconn hs .nil ?_⟩
    rw [hp, List.append_nil]
    exact written

/-- What is written before a link is closing is no close frame. -/
theorem Progress.unclosed (hp : Progress w l l' h' es fs) (hs : l.stage = .established) :
    Unclosed fs := by
  cases hp with
  | serves _ _ _ hf | breaks _ _ _ _ _ _ hf => exact hf
  | pays hp =>
    rw [stage_of_closing hp] at hs
    cases hs
  | ends _ _ _ _ _ _ _ _ hf | parts _ _ _ _ hf | rests _ _ hf =>
    rw [hf]
    intro f hf
    cases hf

theorem Account.established (a : Account h l log sent r) (hf : ∃ f ∈ sent, isClose f = true) :
    l.stage ≠ .established := by
  intro hs
  have hw := a.written
  unfold Link.stage at hs
  split at hs
  · next writer hp =>
    rw [hp] at hw
    exact hw.not_exists hf
  · cases hs
  · cases hs
  · next reached hp =>
    rw [hp] at hw
    exact hw.elim

theorem Welcomed.account {d : Dial} {p : PeerId} (a : Welcomed w d p l h es)
    (hqueue : w.queueTooLong = false) (hi : l.conn.isSome → w.idleTooLong = false) :
    ∃ r, Account h l (Link.upgradeEvent p d.address :: es) [] r := by
  have quiet : ∀ q, Quiet (Link.upgradeEvent p d.address :: Hub.registerEvents p q) := fun q =>
    (quiet_singleton (e := Link.upgradeEvent p d.address) rfl rfl).append (quiet_registerEvents p q)
  have nothing : Unclosed [] := fun f hf => by cases hf
  cases a with
  | unqueued hq =>
    rw [hqueue] at hq
    cases hq
  | @refused t h hr =>
    refine ⟨.rejected t, fun c hc => ?_, .tail _ (.head _), ?_, ?_, fun hg => ?_,
      fun _ c hc => ?_, ?_⟩
    · cases hc
    · rw [← List.cons_append, List.filter_append, (quiet _).filter.1]
      rfl
    · rw [← List.cons_append, List.filter_append, (quiet _).filter.2]
      rfl
    · cases hg
    · cases hc
    · exact ⟨rfl, nothing, tells_owedFor rfl⟩
  | @served done h l hr hlong hl =>
    subst hl
    have known : done.conn < h.fresh := by
      obtain ⟨hd, hen⟩ := Hub.entered_of_register hr
      have hle := hen.still.toLater.fresh_le
      rw [Hub.fresh, Hub.openBox, List.length_append] at hle
      exact hd ▸ hle
    refine ⟨.timeout, fun c hc => ?_, .tail _ (.head _), ?_, ?_, fun hg => ?_,
      fun hne => ?_, nothing⟩
    · obtain rfl := Option.some.inj hc
      exact known
    · rw [← List.cons_append, List.filter_append, (quiet _).filter.1]
      rfl
    · rw [← List.cons_append, List.filter_append, (quiet _).filter.2]
      rfl
    · cases hg
    · exact absurd rfl hne
  | @undone done h l hr hlong hl =>
    subst hl
    rw [hi rfl] at hlong
    cases hlong

/-! ## Runs -/

namespace World

variable {i : Nat} {x : Incident}

theorem links_after (xs : List Incident) (hl : w.links[i]? = some l) :
    ∃ l', (w.after xs).links[i]? = some l' ∧ l'.peer = l.peer ∧ l'.conn = l.conn := by
  induction xs generalizing w l with
  | nil => exact ⟨l, hl, rfl, rfl⟩
  | cons x xs ih =>
    obtain ⟨l₁, hl₁, hown | ⟨ho, -⟩⟩ := undergo_link hl x
    · obtain ⟨t, -, -, hT⟩ := hown
      obtain ⟨l', hl', hp, hc⟩ := ih hl₁
      exact ⟨l', hl', hp.trans hT.peer, hc.trans hT.conn⟩
    · obtain ⟨l', hl', hp, hc⟩ := ih hl₁
      exact ⟨l', hl', hp.trans ho.peer, hc.trans ho.conn⟩

/-- A link that is not there tells nothing, and no frame is under way to it. -/
theorem told_of_none (hn : w.links[i]? = none) (hn' : (w.undergo x).1.links[i]? = none) :
    w.told i x = [] ∧ w.wrote i x = [] := by
  constructor
  · unfold told
    split
    · next hc =>
      cases x with
      | turn j t =>
        obtain rfl : j = i := by simpa [concerns] using hc
        obtain hu | ⟨k, k', h, es, hk, -, -⟩ := w.undergo_turn j t
        · rw [hu]
        · rw [hn] at hk
          cases hk
      | act a =>
        cases a with
        | connect d =>
          have hlt : i < (w.undergo (.act (.connect d))).1.links.length := by
            rw [concerns, Bool.and_eq_true, decide_eq_true_iff] at hc
            exact hc.2
          exact absurd (List.getElem?_eq_none_iff.1 hn') (Nat.not_le.2 hlt)
        | _ => cases hc
      | _ => cases hc
    · rfl
  · simp [wrote, underWay, hn']

variable {t : Nat}

theorem dataOnly_after (p : Policy) (site : Http.Site) (xs : List Incident) :
    ((start p site t).after xs).hub.DataOnly :=
  ((start p site t).work_after xs).dataOnly fun c f hf => by
    simp [start, Hub.waiting, Hub.box?, Hub.new] at hf

theorem policy_after (p : Policy) (site : Http.Site) (xs : List Incident) :
    ((start p site t).after xs).hub.policy = p := ((start p site t).work_after xs).later.policy

/-- As long as a link is not there, nothing is told of it and nothing sent. -/
theorem silent_of_none {xs : List Incident} (hn : (w.after xs).links[i]? = none) :
    w.log i xs = [] ∧ w.sent i xs = [] := by
  induction xs using List.reverseRecOn with
  | nil => exact ⟨rfl, rfl⟩
  | append_singleton xs x ih =>
    rw [after_snoc] at hn
    cases hl : (w.after xs).links[i]? with
    | none =>
      obtain ⟨hlog, hsent⟩ := ih hl
      rw [log_snoc, sent_snoc, hlog, hsent]
      exact told_of_none hl hn
    | some l =>
      obtain ⟨l', hl', -⟩ := links_after [x] hl
      cases hn.symm.trans hl'

/-- The account of a link in a run. -/
theorem account_after {p : Policy} (hq : p.queueCapacity < Bounds.eighth64) (site : Http.Site)
    {xs : List Incident} (hl : ((start p site t).after xs).links[i]? = some l)
    (hd : l.conn.isSome → ((start p site t).after xs).idleTooLong = false) :
    ∃ r, Account ((start p site t).after xs).hub l ((start p site t).log i xs)
      ((start p site t).sent i xs) r := by
  induction xs using List.reverseRecOn generalizing l with
  | nil => cases hl
  | append_singleton xs x ih =>
    have hqueue : ((start p site t).after xs).queueTooLong = false := by
      rw [queueTooLong, policy_after, decide_eq_false_iff_not, Nat.not_le]
      exact hq
    rw [after_snoc] at hl hd ⊢
    rw [log_snoc, sent_snoc]
    cases hl₀ : ((start p site t).after xs).links[i]? with
    | none =>
      obtain ⟨hlog, hsent⟩ := silent_of_none hl₀
      obtain ⟨-, -, -, d, q, es, -, hW, htold⟩ := undergo_new hl₀ hl
      have hwrote : ((start p site t).after xs).wrote i x = [] := by
        rw [wrote, underWay_eq hl, hW.frames, List.drop_nil]
      rw [hlog, hsent, htold, hwrote]
      exact hW.account hqueue fun hc => timed_of_undergo (hd hc)
    | some l₀ =>
      obtain ⟨l', hl', ha, hp, hc, hprogress⟩ :=
        undergo_progress hl₀ (dataOnly_after p site xs) x
      obtain rfl := Option.some.inj (hl'.symm.trans hl)
      have hd₀ : l₀.conn.isSome → ((start p site t).after xs).idleTooLong = false := fun h₀ =>
        timed_of_undergo (hd (hc ▸ h₀))
      obtain ⟨r, haccount⟩ := ih hl₀ hd₀
      exact haccount.step hprogress hd₀ (undergo_work _ x) ha hp hc

/-- What a connection that is not accepted does to the table: nothing, from its beginning on. -/
theorem table_of_concerns (hc : w.concerns i x = true)
    (hnew : ∀ l, (w.undergo x).1.links[i]? = some l → l.conn = none)
    (hold : ∀ l, w.links[i]? = some l → l.isServed = false) :
    (w.undergo x).1.hub.table = w.hub.table := by
  cases x with
  | turn j t =>
    obtain rfl : j = i := by simpa [concerns] using hc
    obtain hu | ⟨k, k', h, es, hk, hu, hT⟩ := w.undergo_turn j t <;> rw [hu]
    exact hT.table (hold k hk)
  | act a =>
    cases a with
    | connect d =>
      rw [concerns, Bool.and_eq_true, beq_iff_eq, decide_eq_true_iff] at hc
      obtain ⟨hi, hlt⟩ := hc
      have hl := List.getElem?_eq_getElem hlt
      obtain ⟨-, -, -, d, q, es, -, hW, -⟩ :=
        undergo_new (List.getElem?_eq_none_iff.2 (Nat.le_of_eq hi.symm)) hl
      have hconn := hnew _ hl
      generalize (w.undergo (.act (.connect _))).1.links[i] = l at hW hconn
      generalize (w.undergo (.act (.connect _))).1.hub = h at hW ⊢
      cases hW with
      | unqueued => rfl
      | refused hr =>
        rw [Hub.refused_of_register hr]
        rfl
      | served _ _ hl | undone _ _ hl =>
        rw [hl] at hconn
        cases hconn
    | _ => cases hc
  | _ => cases hc

theorem table_of_refused {p : Policy} (hq : p.queueCapacity < Bounds.eighth64) (site : Http.Site)
    (i : Nat) (xs : List Incident)
    (hr : ∀ l, ((start p site t).after xs).links[i]? = some l → l.conn = none) :
    ∀ s ∈ (start p site t).trace xs, s.1.concerns i s.2 = true →
      (s.1.undergo s.2).1.hub.table = s.1.hub.table := by
  induction xs using List.reverseRecOn with
  | nil =>
    intro s hs
    cases hs
  | append_singleton xs x ih =>
    -- a link that is refused in the end was never accepted
    have hbefore : ∀ l, ((start p site t).after xs).links[i]? = some l → l.conn = none := by
      intro l hl
      obtain ⟨l', hl', -, hc⟩ := links_after [x] hl
      rw [← hc]
      exact hr l' (by rw [after_snoc]; exact hl')
    intro s hs hc
    rw [trace_append] at hs
    rcases List.mem_append.1 hs with hs | hs
    · exact ih hbefore s hs hc
    · obtain rfl := List.mem_singleton.1 hs
      refine table_of_concerns hc (fun l hl => hr l (by rw [after_snoc]; exact hl)) fun l hl => ?_
      have hconn := hbefore l hl
      have unaccepted : ¬ l.conn.isSome := by rw [hconn]; exact Bool.false_ne_true
      obtain ⟨r, ha⟩ := account_after hq site hl fun hi => absurd hi unaccepted
      rw [← Bool.not_eq_true, l.isServed_iff]
      rintro ⟨writer, hp⟩
      have hmem := ha.onCourse
      rw [stage_of_serving hp, hconn] at hmem
      revert hmem
      decide

/-- Once a close frame is under way, the link is out of the table, and was just before. -/
theorem unlisted_of_sent {p : Policy} {site : Http.Site} {ys : List Incident} {c : ConnId}
    (hq : p.queueCapacity < Bounds.eighth64)
    (hl : ((start p site t).after (ys ++ [x])).links[i]? = some l) (hc : l.conn = some c)
    (hd : ((start p site t).after (ys ++ [x])).idleTooLong = false)
    (hf : ∃ f ∈ (start p site t).sent i (ys ++ [x]), isClose f = true) :
    ((start p site t).after ys).hub.lookup l.peer ≠ some c ∧
      ((start p site t).after (ys ++ [x])).hub.lookup l.peer ≠ some c := by
  obtain ⟨r, ha⟩ := account_after hq site hl fun _ => hd
  refine ⟨?_, ha.unlisted (ha.established hf) c hc⟩
  rw [after_snoc] at hl hd
  rw [sent_snoc] at hf
  cases hl₀ : ((start p site t).after ys).links[i]? with
  | none =>
    obtain ⟨-, hsent⟩ := silent_of_none hl₀
    obtain ⟨-, -, -, d, q, es, -, hW, -⟩ := undergo_new hl₀ hl
    obtain ⟨f, hf, -⟩ := hf
    rw [hsent, wrote, underWay_eq hl, hW.frames, List.drop_nil] at hf
    cases hf
  | some l₀ =>
    obtain ⟨l', hl', -, hp, hconn, hprogress⟩ := undergo_progress hl₀ (dataOnly_after p site ys) x
    obtain rfl := Option.some.inj (hl'.symm.trans hl)
    obtain ⟨r₀, ha₀⟩ := account_after hq site hl₀ fun _ => timed_of_undergo hd
    rw [hp]
    refine ha₀.unlisted (fun hs => ?_) c (hconn.symm.trans hc)
    -- as long as it was served, it wrote no close frame
    obtain ⟨f, hf, hclose⟩ := hf
    rcases List.mem_append.1 hf with hf | hf
    · exact ha₀.established ⟨f, hf, hclose⟩ hs
    · exact (hprogress.unclosed hs).not_exists ⟨f, hf, hclose⟩

/-- **How connections are taken down.**  Where queues can be set up, whenever the relay began and in
every run: each link that was refused, and each that was accepted while the clock can measure the
longest silence, goes its course to the stage that it is in, for one reason, and is never broken
off. -/
theorem teardown (p : Policy) (site : Http.Site) (t : Nat) (xs : List Incident) {i : Nat} {l : Link}
    (hl : ((start p site t).after xs).links[i]? = some l)
    (hq : p.queueCapacity < Bounds.eighth64)
    (hd : l.conn.isSome →
      ((start p site t).after xs).now / 1000 + (p.pingInterval + p.pingTimeout) < Bounds.half64) :
    ∃ r, Teardown (start p site t) xs i l r := by
  have timed : l.conn.isSome → ((start p site t).after xs).idleTooLong = false := fun hc => by
    rw [idleTooLong, policy_after, decide_eq_false_iff_not, Nat.not_le]
    exact hd hc
  obtain ⟨r, ha⟩ := account_after hq site hl timed
  have hw := ha.written
  refine ⟨r, fun reached hp => ?_, ha.onCourse, ha.moves,
    fun hs => by rw [ha.moves, stages_closed hs],
    fun e he => allowed_of_moves ha.onCourse ha.moves he, ha.released,
    fun r' owed giveUp hp => ?_, ha.told, fun c hc ys x hpre hf => ?_, fun hc => ?_, ?_⟩
  · rw [hp] at hw
    exact hw
  · rw [hp] at hw
    cases owed <;> exact hw.1
  · obtain ⟨zs, rfl⟩ := hpre
    have hlast := timed (by rw [hc]; rfl)
    rw [after_append] at hl hlast
    cases hl₁ : ((start p site t).after (ys ++ [x])).links[i]? with
    | none =>
      obtain ⟨f, hf, -⟩ := hf
      rw [(silent_of_none hl₁).2] at hf
      cases hf
    | some l₁ =>
      obtain ⟨l', hl', hp, hconn⟩ := links_after zs hl₁
      obtain rfl := Option.some.inj (hl'.symm.trans hl)
      rw [hp]
      exact unlisted_of_sent hq hl₁ (hconn.symm.trans hc) (timed_of_after hlast) hf
  · refine table_of_refused hq site i xs fun k hk => ?_
    rwa [← Option.some.inj (hl.symm.trans hk)]
  · revert hw
    unfold Written
    split
    · exact fun hun => hun.lastWord r
    · exact fun hun => hun.2.1.lastWord r
    · exact fun hlast => hlast.2
    · exact id
    · exact False.elim

/-- A client that asks for the socket of peer 7. -/
def seventh (name : String) : Dial :=
  { name := name, address := "127.0.0.1:40000", path := "/websocket/7", room := 65536 }

/-- A client is taken over by another one, and its link is taken down. -/
def takenOver : List Incident :=
  [.act (.connect (seventh "first")), .act (.connect (seventh "second")), .turn 0 .read,
    .turn 0 .close, .turn 0 .close]

theorem teardown_takenOver :
    let w := start (Policy.ofSettings { duplicatePolicy := .evictExisting }) none 86400000
    ∃ l r, (w.after takenOver).links[0]? = some l ∧ l.stage = .closed ∧ l.conn = some 0 ∧
      Teardown w takenOver 0 l r := by
  intro w
  have hw : ((w.after takenOver).links[0]?).map (fun l => (l.stage, l.conn)) =
      some (.closed, some 0) := by decide +kernel
  obtain ⟨l, hl, he⟩ := Option.map_eq_some_iff.1 hw
  obtain ⟨hs, hc⟩ := Prod.mk.inj he
  obtain ⟨r, ht⟩ := teardown _ none _ takenOver hl (by decide) fun _ => by decide +kernel
  exact ⟨l, r, hl, hs, hc, ht⟩

/-- Ping durations that can be added, but not to the time of any clock. -/
def unmeasurable : Policy :=
  Policy.ofSettings { pingInterval := 9223372036854775807, pingTimeout := 1 }

/-- A client comes, and takes what it gets. -/
def comesAlone : List Incident := [.act (.connect (seventh "only")), .turn 0 .receive]

/-- With them a connection is accepted and breaks off at once: its client sees the end of it, but it
stays where it was on its course, and is not released. -/
theorem not_teardown_unmeasurable :
    unmeasurable.idleLimit? = some 9223372036854775808 ∧
    ∃ l, ((start unmeasurable none).after comesAlone).links[0]? = some l ∧
      l.conn = some 0 ∧ l.client.ended = true ∧ l.stage = .established ∧
      ((start unmeasurable none).log 0 comesAlone).filter isMove =
        walk 7 [.connecting, .established] ∧
      ((start unmeasurable none).log 0 comesAlone).filter isRelease = [] ∧
      ∀ r, ¬ Teardown (start unmeasurable none) comesAlone 0 l r := by
  have hw : (((start unmeasurable none).after comesAlone).links[0]?).map
      (fun l => (l.conn, l.client.ended, l.stage, l.phase.isOver)) =
        some (some 0, true, .established, true) := by decide +kernel
  have hlog : ((start unmeasurable none).log 0 comesAlone).filter isMove =
      walk 7 [.connecting, .established] := by decide +kernel
  have hreleases : ((start unmeasurable none).log 0 comesAlone).filter isRelease = [] := by
    decide +kernel
  obtain ⟨l, hl, he⟩ := Option.map_eq_some_iff.1 hw
  simp only [Prod.mk.injEq] at he
  obtain ⟨hc, hended, hs, hover⟩ := he
  refine ⟨by decide, l, hl, hc, hended, hs, hlog, hreleases, fun r ht => ?_⟩
  -- what is over at this stage was broken off
  cases hp : l.phase with
  | lost reached => exact ht.unbroken reached hp
  | gone =>
    rw [stage_of_gone hp] at hs
    cases hs
  | serving | closing =>
    rw [hp] at hover
    cases hover

end World

end Switchboard.Relay
