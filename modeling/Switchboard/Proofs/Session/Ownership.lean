import Switchboard.Proofs.Session.Records

/-!
# Guards and entries

In a session whose entries come from registrations alone and go with their guards, the table and the
guards tell the same story: an identifier belongs to the connection that was registered for it last,
for as long as the guard of that registration lives.  A guard that lost its entry belongs to a
connection that was told to close; where newcomers are refused, no guard ever loses its entry.

    (run (start p) steps).hub.lookup q = some c ↔
      Latest q c (accepted (start p) steps) ∧ (run (start p) steps).HoldsGuard q c
-/

namespace Switchboard.Session

/-- Steps that leave the table to registrations and to the ends of their guards. -/
def Step.throughGuards : Step → Bool
  | .unregister .. | .insert .. | .acquire .. | .unregisterConnection .. => false
  | _ => true

/-- The registration that a step brings about. -/
def acceptedBy (s : State) : Step → Option (PeerId × ConnId)
  | .register _ p capacity =>
    match (s.hub.register p (capacityOr s capacity)).2 with
    | .ok r => some (p, r.conn)
    | .error _ => none
  | _ => none

/-- The registrations that a run brings about, in order. -/
def accepted (s : State) (steps : List Step) : List (PeerId × ConnId) :=
  (trace s steps).filterMap fun m => acceptedBy m.1 m.2

/-- The last registration of `p` is that of `c`. -/
def Latest (p : PeerId) (c : ConnId) (l : List (PeerId × ConnId)) : Prop :=
  ∃ before after, l = before ++ (p, c) :: after ∧ ∀ e ∈ after, e.1 ≠ p

/-! ## Registrations in order -/

theorem not_latest_nil (p : PeerId) (c : ConnId) : ¬ Latest p c [] := by
  rintro ⟨before, after, h, -⟩
  cases before <;> cases h

theorem latest_snoc (p q : PeerId) (c d : ConnId) (l : List (PeerId × ConnId)) :
    Latest p c (l ++ [(q, d)]) ↔ if p = q then c = d else Latest p c l := by
  constructor
  · rintro ⟨before, after, h, hne⟩
    rcases List.eq_nil_or_concat after with rfl | ⟨rest, e, rfl⟩
    · obtain ⟨-, he⟩ := List.append_inj' h rfl
      obtain ⟨rfl, rfl⟩ := Prod.mk.inj (List.singleton_inj.1 he)
      rw [if_pos rfl]
    · have h' : l ++ [(q, d)] = (before ++ (p, c) :: rest) ++ [e] := by rw [h]; simp
      obtain ⟨hl, he⟩ := List.append_inj' h' rfl
      obtain rfl := List.singleton_inj.1 he
      rw [if_neg (fun hp => hne (q, d) (by simp) hp.symm)]
      exact ⟨before, rest, hl, fun a ha => hne a (by simp [ha])⟩
  · intro h
    split at h
    · next hp =>
      subst hp h
      exact ⟨l, [], rfl, fun e he => by cases he⟩
    · next hp =>
      obtain ⟨before, after, rfl, hne⟩ := h
      refine ⟨before, after ++ [(q, d)], by simp, fun e he => ?_⟩
      rcases List.mem_append.1 he with he | he
      · exact hne e he
      · rw [List.mem_singleton.1 he]
        exact fun hq => hp hq.symm

theorem acceptedBy_of_ne (s : State) (st : Step) (h : ∀ n p m, st ≠ .register n p m) :
    acceptedBy s st = none := by
  cases st <;> first | rfl | exact absurd rfl (h _ _ _)

theorem accepted_cons (s : State) (st : Step) (rest : List Step) :
    accepted s (st :: rest) =
      (acceptedBy s st).toList ++ accepted (step s st).state rest := by
  unfold accepted
  rw [trace, List.filterMap_cons]
  cases acceptedBy s st <;> rfl

/-! ## Guards -/

theorem lookup_endGuard (s : State) (r : Record) (p : PeerId) :
    (s.endGuard r).hub.lookup p =
      if p = r.peer ∧ r.guarded = true ∧ s.hub.lookup r.peer = some r.conn then none
      else s.hub.lookup p := by
  unfold State.endGuard
  split
  · next hg => simp only [Hub.lookup_leave, hg, true_and]
  · next hg => simp [hg]

/-- A record that is kept beside the others. -/
theorem holdsGuard_snoc (s : State) (h : Hub) (r : Record) (p : PeerId) (c : ConnId) :
    State.HoldsGuard { hub := h, records := s.records ++ [r] } p c ↔
      s.HoldsGuard p c ∨ (r.peer = p ∧ r.conn = c ∧ r.guarded = true) := by
  constructor
  · rintro ⟨q, hq, hg⟩
    rcases List.mem_append.1 hq with hq | hq
    · exact .inl ⟨q, hq, hg⟩
    · rw [List.mem_singleton.1 hq] at hg
      exact .inr hg
  · rintro (⟨q, hq, hg⟩ | hg)
    · exact ⟨q, List.mem_append_left _ hq, hg⟩
    · exact ⟨r, by simp, hg⟩

/-- A record that lost its guard. -/
theorem holdsGuard_clear {s : State} (k : Kept s) {r : Record} (hr : r ∈ s.records) (h : Hub)
    (p : PeerId) (c : ConnId) :
    (State.update { s with hub := h } r.name fun q => { q with guarded := false }).HoldsGuard p c ↔
      s.HoldsGuard p c ∧ c ≠ r.conn := by
  constructor
  · rintro ⟨a, ha, hp, hc, hg⟩
    obtain ⟨q, hq, rfl⟩ := List.mem_map.1 ha
    split at hp
    · next hn =>
      rw [if_pos hn] at hg
      cases hg
    · next hn =>
      rw [if_neg hn] at hc hg
      refine ⟨⟨q, hq, hp, hc, hg⟩, fun he => hn ?_⟩
      rw [k.eq_of_conn hq hr (hc.trans he)]
  · rintro ⟨⟨q, hq, hp, hc, hg⟩, hne⟩
    refine ⟨q, List.mem_map.2 ⟨q, hq, if_neg fun hn => hne ?_⟩, hp, hc, hg⟩
    rw [← hc, k.eq_of_name hq hr hn]

/-- A record that takes the place of another. -/
theorem holdsGuard_keep {s : State} (k : Kept s) {r old : Record}
    (hn : ∀ q ∈ s.records, q.conn ≠ r.conn) (hf : s.find? r.name = some old) (p : PeerId)
    (c : ConnId) :
    (s.keep r).HoldsGuard p c ↔
      State.HoldsGuard { s with records := s.records ++ [r] } p c ∧ c ≠ old.conn := by
  have ho := mem_of_find? hf
  have hon := name_of_find? hf
  have hrec : (s.keep r).records = s.records.map fun q => if q.name = r.name then r else q := by
    simp only [State.keep, hf, records_endGuard]
  unfold State.HoldsGuard
  rw [hrec]
  constructor
  · rintro ⟨a, ha, hp, hc, hg⟩
    obtain ⟨q, hq, rfl⟩ := List.mem_map.1 ha
    split at hp
    · next hqn =>
      rw [if_pos hqn] at hc hg
      refine ⟨⟨r, by simp, hp, hc, hg⟩, fun he => hn old ho ?_⟩
      rw [← he, hc]
    · next hqn =>
      rw [if_neg hqn] at hc hg
      refine ⟨⟨q, by simp [hq], hp, hc, hg⟩, fun he => hqn ?_⟩
      rw [k.eq_of_conn hq ho (hc.trans he), hon]
  · rintro ⟨⟨q, hq, hp, hc, hg⟩, hne⟩
    rcases List.mem_append.1 hq with hq | hq
    · refine ⟨q, List.mem_map.2 ⟨q, hq, if_neg fun hqn => hne ?_⟩, hp, hc, hg⟩
      rw [← hc, k.eq_of_name hq ho (hqn.trans hon.symm)]
    · obtain rfl := List.mem_singleton.1 hq
      exact ⟨q, List.mem_map.2 ⟨old, ho, if_pos hon⟩, hp, hc, hg⟩

/-! ## The invariant -/

/-- The table and the guards after the registrations `l`. -/
structure Tracked (l : List (PeerId × ConnId)) (s : State) : Prop where
  known : ∀ p c, Latest p c l → s.hub.IsOf c p
  held : ∀ p c, s.hub.lookup p = some c → Latest p c l ∧ s.HoldsGuard p c
  entered : ∀ p c, Latest p c l → s.HoldsGuard p c → s.hub.lookup p = some c
  closing : ∀ p c, s.HoldsGuard p c → s.hub.lookup p ≠ some c → s.hub.isClosing c = true
  sole : s.hub.policy.duplicates = .rejectNew → ∀ p c, s.HoldsGuard p c → s.hub.lookup p = some c

theorem tracked_start (p : Policy) : Tracked [] (start p) where
  known q c h := absurd h (not_latest_nil q c)
  held q c h := by cases h
  entered q c h := absurd h (not_latest_nil q c)
  closing := by
    rintro q c ⟨r, hr, -⟩
    cases hr
  sole _ := by
    rintro q c ⟨r, hr, -⟩
    cases hr

/-- Neither the table nor a guard is touched. -/
theorem Tracked.quiet {l : List (PeerId × ConnId)} {s s' : State} (t : Tracked l s)
    (hl : s.hub.Later s'.hub) (ht : ∀ p, s'.hub.lookup p = s.hub.lookup p)
    (hg : ∀ p c, s'.HoldsGuard p c ↔ s.HoldsGuard p c) : Tracked l s' where
  known p c h := hl.isOf (t.known p c h)
  held p c h := by
    rw [ht] at h
    rw [hg]
    exact t.held p c h
  entered p c h hp := by
    rw [ht]
    exact t.entered p c h ((hg p c).1 hp)
  closing p c hp h := by
    rw [ht] at h
    exact hl.isClosing (t.closing p c ((hg p c).1 hp) h)
  sole hd p c hp := by
    rw [ht]
    rw [hl.policy] at hd
    exact t.sole hd p c ((hg p c).1 hp)

/-- A registration comes about: its connection is the last one, entered and guarded. -/
theorem Tracked.accept {l : List (PeerId × ConnId)} {s s' : State} (t : Tracked l s)
    (hf : s.hub.Filed) {p : PeerId} {n : Nat}
    (he : (s.hub.openBox p n).Entered p s.hub.fresh s'.hub)
    (hg : ∀ q c, s'.HoldsGuard q c ↔ s.HoldsGuard q c ∨ (q = p ∧ c = s.hub.fresh)) :
    Tracked (l ++ [(p, s.hub.fresh)]) s' := by
  have ho := s.hub.still_openBox p n
  have hl : s.hub.Later s'.hub := (ho.trans he.still).toLater
  have hlook : ∀ q, s'.hub.lookup q = if q = p then some s.hub.fresh else s.hub.lookup q :=
    he.lookup
  constructor
  case known =>
    intro q c h
    rw [latest_snoc] at h
    split at h
    · next hqp =>
      rw [hqp, h]
      exact he.still.toLater.isOf (s.hub.isOf_openBox p n)
    · exact hl.isOf (t.known q c h)
  case held =>
    intro q c h
    rw [hlook] at h
    rw [latest_snoc, hg]
    split at h
    · next hqp =>
      obtain rfl := Option.some.inj h
      exact ⟨by rw [if_pos hqp], .inr ⟨hqp, rfl⟩⟩
    · next hqp =>
      rw [if_neg hqp]
      exact ⟨(t.held q c h).1, .inl (t.held q c h).2⟩
  case entered =>
    intro q c h hq
    rw [latest_snoc] at h
    rw [hlook]
    split at h
    · next hqp => rw [if_pos hqp, h]
    · next hqp =>
      rw [if_neg hqp]
      rcases (hg q c).1 hq with hq | ⟨hq, -⟩
      · exact t.entered q c h hq
      · exact absurd hq hqp
  case closing =>
    intro q c hq h
    rw [hlook] at h
    rcases (hg q c).1 hq with hq | ⟨rfl, rfl⟩
    · by_cases hc : s.hub.lookup q = some c
      -- the entry was there before, so it is the one that had to give way
      · by_cases hqp : q = p
        · subst hqp
          exact he.evicted c q hc (ho.toLater.isOf (hf q c hc))
        · rw [if_neg hqp] at h
          exact absurd hc h
      · exact hl.isClosing (t.closing q c hq hc)
    · rw [if_pos rfl] at h
      exact absurd rfl h
  case sole =>
    intro hd q c hq
    rw [hl.policy] at hd
    rw [hlook]
    rcases (hg q c).1 hq with hq | ⟨rfl, rfl⟩
    · have hfree : s.hub.lookup p = none := he.free hd
      have hin : s.hub.lookup q = some c := t.sole hd q c hq
      have hqp : q ≠ p := by
        rintro rfl
        rw [hfree] at hin
        cases hin
      rw [if_neg hqp]
      exact hin
    · rw [if_pos rfl]

/-- The guard of a record ends, and with it the entry that it holds. -/
theorem Tracked.endGuard {l : List (PeerId × ConnId)} {s s' : State} (t : Tracked l s)
    {r : Record} (hu : ∀ q ∈ s.records, q.conn = r.conn → q = r) (hr : r ∈ s.records)
    (hl : s.hub.Later s'.hub) (ht : ∀ p, s'.hub.lookup p = (s.endGuard r).hub.lookup p)
    (hg : ∀ p c, s'.HoldsGuard p c ↔ s.HoldsGuard p c ∧ c ≠ r.conn) : Tracked l s' := by
  have hstay : ∀ p c, c ≠ r.conn → s.hub.lookup p = some c → s'.hub.lookup p = some c := by
    intro p c hc h
    rw [ht, lookup_endGuard, if_neg ?_]
    · exact h
    · rintro ⟨rfl, -, hrc⟩
      rw [h] at hrc
      exact hc (Option.some.inj hrc)
  constructor
  case known =>
    intro p c h
    exact hl.isOf (t.known p c h)
  case held =>
    intro p c h
    rw [ht, lookup_endGuard] at h
    split at h
    · cases h
    · next hn =>
      obtain ⟨hlast, hheld⟩ := t.held p c h
      refine ⟨hlast, (hg p c).2 ⟨hheld, fun hc => hn ?_⟩⟩
      -- the record that holds the guard of its connection is the one whose guard ends
      obtain ⟨q, hq, hqp, hqc, hqg⟩ := hheld
      obtain rfl := hu q hq (hqc.trans hc)
      exact ⟨hqp.symm, hqg, by rw [hqp, h, hc]⟩
  case entered =>
    intro p c h hp
    obtain ⟨hheld, hc⟩ := (hg p c).1 hp
    exact hstay p c hc (t.entered p c h hheld)
  case closing =>
    intro p c hp h
    obtain ⟨hheld, hc⟩ := (hg p c).1 hp
    exact hl.isClosing (t.closing p c hheld fun h' => h (hstay p c hc h'))
  case sole =>
    intro hd p c hp
    rw [hl.policy] at hd
    obtain ⟨hheld, hc⟩ := (hg p c).1 hp
    exact hstay p c hc (t.sole hd p c hheld)

/-- A record is kept: it joins the others, and the one that had its name loses its guard. -/
theorem Tracked.keep {l : List (PeerId × ConnId)} {s : State} {r : Record} (k : Kept s)
    (hn : ∀ q ∈ s.records, q.conn ≠ r.conn)
    (t : Tracked l { s with records := s.records ++ [r] }) : Tracked l (s.keep r) := by
  cases hf : s.find? r.name with
  | none =>
    simp only [State.keep, hf]
    exact t
  | some old =>
    have ho := mem_of_find? hf
    refine t.endGuard (fun q hq hc => ?_) (List.mem_append_left _ ho) (still_keep s r).toLater
      (fun p => ?_) (holdsGuard_keep k hn hf)
    · rcases List.mem_append.1 hq with hq | hq
      · exact k.eq_of_conn hq ho hc
      · rw [List.mem_singleton.1 hq] at hc
        exact absurd hc.symm (hn old ho)
    · rw [lookup_endGuard]
      simp only [State.keep, hf, Hub.lookup_updateBox, lookup_endGuard]

theorem Tracked.register {l : List (PeerId × ConnId)} {s : State} (k : Kept s) (t : Tracked l s)
    (name : String) (p : PeerId) (capacity : Option Nat) :
    Tracked (l ++ (acceptedBy s (.register name p capacity)).toList)
      (register s name p capacity).state := by
  obtain ⟨h', hr, hen, he, -⟩ | ⟨old, -, -, hr, he, -⟩ := register_cases s name p capacity <;>
    rw [acceptedBy, hr, he]
  · have ht : Tracked (l ++ [(p, s.hub.fresh)])
        { hub := h', records := s.records ++ [⟨name, p, s.hub.fresh, true⟩] } := by
      refine t.accept k.filed hen fun q c => ?_
      rw [holdsGuard_snoc]
      simp only [and_true, eq_comm]
    exact ht.keep (k.entered hen) fun q hq => k.not_fresh hq
  · simp only [Option.toList_none, List.append_nil]
    exact t.quiet (s.hub.still_tally .rejection).toLater (fun _ => rfl) fun _ _ => .rfl

theorem Tracked.handle {l : List (PeerId × ConnId)} {s : State} (k : Kept s) (t : Tracked l s)
    (name : String) (p : PeerId) (capacity : Option Nat) :
    Tracked l (handle s name p capacity).state := by
  have ho := (s.hub.still_openBox p (capacityOr s capacity)).toLater
  have k' : Kept { s with hub := s.hub.openBox p (capacityOr s capacity) } :=
    k.narrow ho fun _ _ => id
  refine Tracked.keep k' (fun q hq => k.not_fresh hq) (t.quiet ho (fun _ => rfl) fun q c => ?_)
  rw [holdsGuard_snoc]
  exact or_iff_left fun hc => by cases hc.2.2

theorem Tracked.release {l : List (PeerId × ConnId)} {s : State} (k : Kept s) (t : Tracked l s)
    {r : Record} (hr : r ∈ s.records) (reason : CloseReason) :
    Tracked l (release s r reason).state := by
  rw [release_state]
  split
  · next hg =>
    refine t.endGuard (fun q hq => k.eq_of_conn hq hr) hr (still_release s.hub _ _).toLater
      (fun p => ?_) (holdsGuard_clear k hr _)
    simp only [State.update, Hub.release, Hub.lookup_tally, State.endGuard, hg, if_true]
  · exact t

theorem Tracked.onRecord {l : List (PeerId × ConnId)} {s : State} (k : Kept s) (t : Tracked l s)
    {r : Record} (hr : r ∈ s.records) (st : Step) (h : st.throughGuards = true) :
    Tracked l (onRecord s r st).state := by
  have hl := later_onRecord s r st
  cases st with
  | requestClose n => exact t.quiet hl (fun _ => rfl) fun _ _ => .rfl
  | deliver n f =>
    rw [Session.onRecord, deliver_state] at hl ⊢
    exact t.quiet hl (s.hub.lookup_deliver r.conn f) fun _ _ => .rfl
  | receive n most => exact t.quiet hl (s.hub.lookup_receive r.conn most) fun _ _ => .rfl
  | closeReceiver n => exact t.quiet hl (fun _ => rfl) fun _ _ => .rfl
  | dropReceiver n => exact t.quiet hl (fun _ => rfl) fun _ _ => .rfl
  | release n reason => exact t.release k hr reason
  | dropGuard n =>
    refine t.endGuard (fun q hq => k.eq_of_conn hq hr) hr hl (fun _ => rfl) fun p c => ?_
    have hc := holdsGuard_clear k hr (s.endGuard r).hub p c
    simp only [State.update] at hc
    simp only [Session.onRecord, tell, State.update, records_endGuard]
    exact hc
  | insert | acquire | unregisterConnection => cases h
  | _ => exact t

theorem Tracked.other {l : List (PeerId × ConnId)} {s : State} (k : Kept s) (t : Tracked l s)
    (st : Step) (h : st.throughGuards = true) (hr : ∀ n p m, st ≠ .register n p m) :
    Tracked l (step s st).state := by
  have hl := later_step s st
  apply step_state_of t
  · intro r hmem
    exact t.onRecord k hmem st h
  · intro hs
    cases st with
    | register n p m => exact absurd rfl (hr n p m)
    | handle n p m => exact t.handle k n p m
    | route bound f => exact t.quiet hl (fun p => s.hub.lookup_route bound p f) fun _ _ => .rfl
    | shutdown => exact t.quiet hl (fun _ => rfl) fun _ _ => .rfl
    | unregister => cases h
    | status | health | policy | count | contains | lookup => exact t
    | _ => cases hs

theorem Tracked.step {l : List (PeerId × ConnId)} {s : State} (k : Kept s) (t : Tracked l s)
    (st : Step) (h : st.throughGuards = true) :
    Tracked (l ++ (acceptedBy s st).toList) (step s st).state := by
  by_cases hr : ∃ n p m, st = .register n p m
  · obtain ⟨n, p, m, rfl⟩ := hr
    exact t.register k n p m
  · have hne : ∀ n p m, st ≠ .register n p m := fun n p m he => hr ⟨n, p, m, he⟩
    rw [acceptedBy_of_ne s st hne, Option.toList_none, List.append_nil]
    exact t.other k st h hne

theorem Tracked.run {l : List (PeerId × ConnId)} {s : State} (k : Kept s) (t : Tracked l s)
    (steps : List Step) (h : ∀ st ∈ steps, st.throughGuards = true) :
    Tracked (l ++ accepted s steps) (run s steps) := by
  induction steps generalizing l s with
  | nil =>
    rw [accepted, trace, List.filterMap_nil, List.append_nil]
    exact t
  | cons st rest ih =>
    rw [accepted_cons, ← List.append_assoc]
    exact ih (k.step st) (t.step k st (h st List.mem_cons_self))
      fun st' h' => h st' (List.mem_cons_of_mem _ h')

/-! ## Top theorem -/

/-- **Every live connection is accounted for.**  The table answers with the last connection that was
registered for an identifier as long as its guard lives, and with nothing else; a guard without an
entry has its close signal raised; and where newcomers are refused every guard has its entry, so
that no two guards share an identifier. -/
theorem lookup_iff_latest_guard (p : Policy) (steps : List Step)
    (h : ∀ st ∈ steps, st.throughGuards = true) :
    (∀ q c, (run (start p) steps).hub.lookup q = some c ↔
      Latest q c (accepted (start p) steps) ∧ (run (start p) steps).HoldsGuard q c) ∧
    (∀ q c, (run (start p) steps).HoldsGuard q c →
      (run (start p) steps).hub.lookup q ≠ some c →
      (run (start p) steps).hub.isClosing c = true) ∧
    (p.duplicates = .rejectNew →
      (∀ q c, (run (start p) steps).HoldsGuard q c →
        (run (start p) steps).hub.lookup q = some c) ∧
      ∀ r ∈ (run (start p) steps).records, ∀ r' ∈ (run (start p) steps).records,
        r.guarded = true → r'.guarded = true → r.peer = r'.peer → r = r') := by
  have k : Kept (run (start p) steps) := (kept_start p).run steps
  have t : Tracked (accepted (start p) steps) (run (start p) steps) :=
    (tracked_start p).run (kept_start p) steps h
  have hp : (run (start p) steps).hub.policy = p := (later_run (start p) steps).policy
  refine ⟨fun q c => ⟨t.held q c, fun hc => t.entered q c hc.1 hc.2⟩, t.closing, fun hd => ?_⟩
  rw [← hp] at hd
  refine ⟨t.sole hd, fun r hr r' hr' hg hg' hp => k.eq_of_conn hr hr' ?_⟩
  have hin := t.sole hd r.peer r.conn ⟨r, hr, rfl, rfl, hg⟩
  rw [hp, t.sole hd r'.peer r'.conn ⟨r', hr', rfl, rfl, hg'⟩] at hin
  exact (Option.some.inj hin).symm

/-- Three generations of one identifier; the first two end after they were superseded. -/
def threeGenerations : List Step :=
  [.register "a" 7 none, .register "b" 7 none, .requestClose "b", .register "c" 7 none,
    .dropGuard "a", .release "b" .superseded]

theorem lookup_threeGenerations :
    (∀ st ∈ threeGenerations, st.throughGuards = true) ∧
    (run (start evicting) threeGenerations).hub.lookup 7 = some 2 ∧
    Latest 7 2 (accepted (start evicting) threeGenerations) ∧
    (run (start evicting) threeGenerations).HoldsGuard 7 2 := by
  have hs : ∀ st ∈ threeGenerations, st.throughGuards = true := by decide
  have hl : (run (start evicting) threeGenerations).hub.lookup 7 = some 2 := by decide
  exact ⟨hs, hl, ((lookup_iff_latest_guard _ threeGenerations hs).1 7 2).1 hl⟩

end Switchboard.Session
