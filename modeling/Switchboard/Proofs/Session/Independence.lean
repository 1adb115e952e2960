import Switchboard.Proofs.Hub.Directory
import Switchboard.Proofs.Session.Reckoning
import Switchboard.Proofs.Session.Shares

/-!
# Operations on different peers are independent

Operations that touch different peers can be exchanged: they are answered the same, and the session
comes to the same.  So a run of operations can be put into any order that keeps the one in which
each peer is touched.  Only the numbers of connections tell of the order in which peers came, and
these are left out by comparing sessions share by share (`Alike`).

    Alike (run s [a, b]) (run s [b, a])
    (∀ i, ys.filter (touches i) = xs.filter (touches i)) → Alike (run s xs) (run s ys)
-/

namespace Switchboard.Session

/-! ## Specification -/

/-- Two sessions with the same counters, the same peers online, and the same entry, mailboxes and
records for each peer, but that connections of different peers may have come in another order. -/
structure Alike (s t : State) : Prop where
  counters : t.hub.counters = s.hub.counters
  online : t.hub.online = s.hub.online
  share : ∀ i, t.share i = s.share i

/-- The steps that touch the peer `i`. -/
def touching (home : String → PeerId) (i : PeerId) (steps : List Step) : List Step :=
  steps.filter fun st => st.touches home = some i

/-- The steps of a run, each with what it counts. -/
def receipts (s : State) (steps : List Step) : List (Step × List Tally) :=
  (trace s steps).map fun m => (m.2, billOf m.1 m.2)

variable {home : String → PeerId} {s : State} {i : PeerId}

/-! ## Records stay under their names -/

/-- What an operation does to the records: nothing, or a record loses its guard, or one is kept
under a name that stands for its peer. -/
theorem records_step {P : List Record → Prop} {st : Step} (ho : st.operates home = true)
    (hsame : P s.records)
    (hclear : ∀ name, P (s.update name fun q => { q with guarded := false }).records)
    (hkeep : ∀ h r, r.peer = home r.name → P (State.keep { s with hub := h } r).records) :
    P (step s st).state.records := by
  apply step_state_of (P := fun t => P t.records) hsame
  · intro r hr
    cases st with
    | release n reason =>
      rw [onRecord, release_state]
      split
      · exact hclear r.name
      · exact hsame
    | dropGuard n =>
      simp only [onRecord, tell, State.update, records_endGuard]
      exact hclear r.name
    | requestClose | unregisterConnection | register | unregister | route => exact hsame
    | _ => cases ho
  · intro hs
    cases st with
    | register name p capacity =>
      obtain ⟨h', -, -, he, -⟩ | ⟨old, -, -, -, he, -⟩ := register_cases s name p capacity <;>
        simp only [step, he]
      · exact hkeep h' _ (beq_iff_eq.1 ho).symm
      · exact hsame
    | unregister p =>
      obtain he | he := unregister_state s p <;> simp only [step, he] <;> exact hsame
    | route bound f => exact hsame
    | release | dropGuard | requestClose | unregisterConnection => cases hs
    | _ => cases ho

theorem mem_keep {r q : Record} (hq : q ∈ (s.keep r).records) : q = r ∨ q ∈ s.records := by
  unfold State.keep at hq
  split at hq
  · exact (List.mem_append.1 hq).symm.imp_left List.mem_singleton.1
  · obtain ⟨a, ha, rfl⟩ := List.mem_map.1 hq
    rw [records_endGuard] at ha
    split
    · exact .inl rfl
    · exact .inr ha

theorem exists_mem_keep {r q : Record} (hq : q ∈ s.records) :
    ∃ a ∈ (s.keep r).records, a.name = q.name := by
  unfold State.keep
  split
  · exact ⟨q, List.mem_append_left _ hq, rfl⟩
  · simp only [records_endGuard]
    refine ⟨_, List.mem_map.2 ⟨q, hq, rfl⟩, ?_⟩
    split
    · next hqn => exact hqn.symm
    · rfl

theorem State.Homed.step (hh : s.Homed home) {st : Step} (ho : st.operates home = true) :
    (step s st).state.Homed home := by
  refine records_step (P := fun rs => ∀ r ∈ rs, r.peer = home r.name) ho hh (fun name q hq => ?_)
    fun h r hr q hq => ?_
  · obtain ⟨a, ha, rfl⟩ := List.mem_map.1 hq
    split <;> exact hh a ha
  · rcases mem_keep hq with rfl | hq
    · exact hr
    · exact hh q hq

/-- A name keeps standing for a connection. -/
theorem find?_step {name : String} (hn : (s.find? name).isSome = true) {st : Step}
    (ho : st.operates home = true) : ((step s st).state.find? name).isSome = true := by
  unfold State.find? at hn ⊢
  rw [List.find?_isSome] at hn ⊢
  refine records_step (P := fun rs => ∃ r ∈ rs, (r.name == name) = true) ho hn (fun other => ?_)
    fun h r hr => ?_
  · obtain ⟨q, hq, hname⟩ := hn
    refine ⟨_, List.mem_map.2 ⟨q, hq, rfl⟩, ?_⟩
    split <;> exact hname
  · obtain ⟨q, hq, hname⟩ := hn
    obtain ⟨a, ha, hqa⟩ := exists_mem_keep (s := { s with hub := h }) (r := r) hq
    exact ⟨a, ha, hqa ▸ hname⟩

/-! ## Runs in a share -/

theorem run_recount (s : State) (k : Counters) (steps : List Step) :
    run (s.recount k) steps = (run s steps).recount (k.countAll (bill s steps)) := by
  induction steps generalizing s k with
  | nil => rfl
  | cons st rest ih =>
    rw [run_cons, run_cons, bill_cons, Counters.countAll_append, ← ih, step_recount]
    rfl

theorem billOf_recount (s : State) (k : Counters) (st : Step) :
    billOf (s.recount k) st = billOf s st := by
  have hevicts : evicts (s.recount k) st = evicts s st := by cases st <;> rfl
  rw [billOf, step_recount, hevicts]
  rfl

theorem touching_cons (home : String → PeerId) (i : PeerId) (st : Step) (rest : List Step) :
    touching home i (st :: rest) =
      if st.touches home = some i then st :: touching home i rest else touching home i rest := by
  unfold touching
  rw [List.filter_cons]
  simp only [decide_eq_true_eq]

/-- What a run comes to for a peer is what the steps that touch the peer come to in its share. -/
theorem share_run (k : Kept s) (hh : s.Homed home) (steps : List Step)
    (ho : ∀ st ∈ steps, st.operates home = true) :
    (run s steps).share i = (run (s.share i) (touching home i steps)).recount {} := by
  induction steps generalizing s with
  | nil => rfl
  | cons st rest ih =>
    have hst := ho st List.mem_cons_self
    have hrest := ih (k.step st) (hh.step hst) fun a ha => ho a (List.mem_cons_of_mem _ ha)
    rw [run_cons, hrest, touching_cons]
    split
    · next ht =>
      rw [run_cons, share_of_touches k hh hst ht, run_recount]
      rfl
    · next ht => rw [share_of_not_touches k hh hst ht]

/-! ## Receipts in a share -/

theorem bill_eq_flatMap_receipts (s : State) (steps : List Step) :
    bill s steps = (receipts s steps).flatMap (·.2) := by
  rw [receipts, List.flatMap_map]
  rfl

theorem receipts_cons (s : State) (st : Step) (rest : List Step) :
    receipts s (st :: rest) = (st, billOf s st) :: receipts (step s st).state rest := rfl

theorem receipts_recount (s : State) (k : Counters) (steps : List Step) :
    receipts (s.recount k) steps = receipts s steps := by
  induction steps generalizing s k with
  | nil => rfl
  | cons st rest ih =>
    rw [receipts_cons, receipts_cons, billOf_recount, step_recount, ← ih]
    rfl

theorem evicts_share {st : Step} (ht : st.touches home = some i) :
    evicts (s.share i) st = evicts s st := by
  cases st with
  | register name p capacity =>
    obtain rfl := Option.some.inj ht
    have hl : (s.share p).hub.lookup p = (s.hub.lookup p).map (s.hub.rank p) :=
      s.hub.lookup_share p
    rw [evicts, hl, Option.isSome_map, evicts]
  | _ => rfl

/-- In the share of the peer that it touches an operation counts what it counts in the session. -/
theorem billOf_share (k : Kept s) (hh : s.Homed home) {st : Step}
    (ho : st.operates home = true) (ht : st.touches home = some i) :
    billOf (s.share i) st = billOf s st := by
  cases hs : st.strays home with
  | false =>
    rw [billOf, evicts_share ht, ← (within_of_touches k hh ho ht hs).answer, billOf]
  | true =>
    cases st with
    | unregisterConnection name p => rfl
    | _ => cases hs

/-- What touches nobody is the routing of a frame that is a violation. -/
theorem violation_of_touches_none {st : Step} (ho : st.operates home = true)
    (ht : st.touches home = none) :
    ∃ bound f v, st = .route bound f ∧ Hub.accept bound f = .error v := by
  cases st with
  | route bound f =>
    simp only [Step.touches] at ht
    split at ht
    · cases ht
    · next v ha => exact ⟨bound, f, v, rfl, ha⟩
  | register | unregister | release | dropGuard | requestClose | unregisterConnection => cases ht
  | _ => cases ho

theorem answer_violation (s : State) {bound : PeerId} {f : Frame} {v : Violation}
    (ha : Hub.accept bound f = .error v) : (step s (.route bound f)).answer = .violated v := by
  simp [step, route, Hub.route_of_violation ha]

theorem billOf_of_touches_none (s : State) {st : Step} (ho : st.operates home = true)
    (ht : st.touches home = none) : billOf s st = [.received, .violation] := by
  obtain ⟨bound, f, v, rfl, ha⟩ := violation_of_touches_none ho ht
  simp [billOf, answer_violation s ha, tallies, routeTallies]

theorem receipts_touching (k : Kept s) (hh : s.Homed home) (steps : List Step)
    (ho : ∀ st ∈ steps, st.operates home = true) :
    (receipts s steps).filter (fun e => e.1.touches home = some i) =
      receipts (s.share i) (touching home i steps) := by
  induction steps generalizing s with
  | nil => rfl
  | cons st rest ih =>
    have hst := ho st List.mem_cons_self
    have hrest := ih (k.step st) (hh.step hst) fun a ha => ho a (List.mem_cons_of_mem _ ha)
    rw [receipts_cons, List.filter_cons, hrest, touching_cons]
    simp only [decide_eq_true_eq]
    split
    · next ht =>
      rw [receipts_cons, billOf_share k hh hst ht, share_of_touches k hh hst ht, receipts_recount]
    · next ht => rw [share_of_not_touches k hh hst ht]

theorem receipts_touching_none (s : State) (steps : List Step)
    (ho : ∀ st ∈ steps, st.operates home = true) :
    (receipts s steps).filter (fun e => e.1.touches home = none) =
      (steps.filter fun st => st.touches home = none).map (·, [.received, .violation]) := by
  induction steps generalizing s with
  | nil => rfl
  | cons st rest ih =>
    have hrest := ih (step s st).state fun a ha => ho a (List.mem_cons_of_mem _ ha)
    rw [receipts_cons, List.filter_cons, List.filter_cons, hrest]
    simp only [decide_eq_true_eq]
    split
    · next ht => rw [List.map_cons, billOf_of_touches_none s (ho st List.mem_cons_self) ht]
    · rfl

/-- Lists are permutations of each other if their parts of each kind are. -/
theorem perm_of_filter {α κ : Type} [DecidableEq κ] (kind : α → κ) {l l' : List α}
    (h : ∀ c, (l.filter (kind · = c)).Perm (l'.filter (kind · = c))) : l.Perm l' := by
  classical
  refine List.perm_iff_count.2 fun a => ?_
  have ha := List.perm_iff_count.1 (h (kind a)) a
  rwa [List.count_filter (by simp), List.count_filter (by simp)] at ha

/-- Reordered operations count the same things. -/
theorem bill_perm (k : Kept s) (hh : s.Homed home) {xs ys : List Step}
    (ho : ∀ st ∈ xs, st.operates home = true) (hp : ys.Perm xs)
    (ht : ∀ i, touching home i ys = touching home i xs) : (bill s ys).Perm (bill s xs) := by
  have ho' : ∀ st ∈ ys, st.operates home = true := fun st hst => ho st (hp.mem_iff.1 hst)
  rw [bill_eq_flatMap_receipts, bill_eq_flatMap_receipts]
  refine List.Perm.flatMap_right _ (perm_of_filter (fun e => e.1.touches home) fun c => ?_)
  cases c with
  | none =>
    -- violations count the same wherever they are
    rw [receipts_touching_none s ys ho', receipts_touching_none s xs ho]
    exact (hp.filter _).map _
  | some i => rw [receipts_touching k hh ys ho', receipts_touching k hh xs ho, ht]

/-! ## Operations on different peers -/

theorem online_of_share {s t : State} (h : ∀ i, t.share i = s.share i) :
    t.hub.online = s.hub.online := by
  have hsome : ∀ p, (t.hub.lookup p).isSome = (s.hub.lookup p).isSome := by
    intro p
    have hl : (t.hub.share p).lookup p = (s.hub.share p).lookup p :=
      congrArg (fun u : State => u.hub.lookup p) (h p)
    rw [Hub.lookup_share, Hub.lookup_share] at hl
    rw [← Option.isSome_map, hl, Option.isSome_map]
  have hmem : ∀ p, p ∈ t.hub.table.ids ↔ p ∈ s.hub.table.ids.toFinset := by
    intro p
    rw [List.mem_toFinset, Peers.mem_ids_iff, Peers.mem_ids_iff]
    exact Bool.eq_iff_iff.1 (hsome p)
  have ht := Peers.ids_eq_sort t.hub.table _ hmem
  have hs := Peers.ids_eq_sort s.hub.table s.hub.table.ids.toFinset fun p => List.mem_toFinset.symm
  exact ht.trans hs.symm

/-- Reordered operations come to the same. -/
theorem alike_of_perm {d : Nat} (k : Kept s) (hh : s.Homed home) (b : Balanced d s)
    {xs ys : List Step} (ho : ∀ st ∈ xs, st.operates home = true) (hp : ys.Perm xs)
    (ht : ∀ i, touching home i ys = touching home i xs)
    (hlt : s.guards + d + xs.length ≤ Bounds.word64) : Alike (run s xs) (run s ys) := by
  have ho' : ∀ st ∈ ys, st.operates home = true := fun st hst => ho st (hp.mem_iff.1 hst)
  have hacquire : ∀ zs : List Step, (∀ st ∈ zs, st.operates home = true) →
      ∀ n, Step.acquire n ∉ zs := by
    intro zs hzs n hn
    cases hzs _ hn
  have hshare : ∀ i, (run s ys).share i = (run s xs).share i := by
    intro i
    rw [share_run k hh ys ho', share_run k hh xs ho, ht]
  refine ⟨?_, online_of_share hshare, hshare⟩
  exact counters_run_of_perm k b (hacquire xs ho) (hacquire ys ho') hlt (hp.length_eq ▸ hlt)
    (bill_perm k hh ho hp ht)

/-- An operation is answered as before if another one touched another peer. -/
theorem answer_of_apart (k : Kept s) (hh : s.Homed home) {a b : Step}
    (ha : a.operates home = true) (hb : b.operates home = true)
    (hd : ∀ i, a.touches home = some i → b.touches home ≠ some i)
    (hn : ∀ n, a.subject = some n → (s.find? n).isSome = true) :
    (step (step s b).state a).answer = (step s a).answer := by
  have k' := k.step b
  have hh' := hh.step hb
  cases ht : a.touches home with
  | none =>
    obtain ⟨bound, f, v, rfl, haccept⟩ := violation_of_touches_none ha ht
    rw [answer_violation _ haccept, answer_violation _ haccept]
  | some i =>
    have hshare := share_of_not_touches k hh hb (hd i ht)
    cases hs : a.strays home with
    | false =>
      rw [(within_of_touches k' hh' ha ht hs).answer, hshare,
        (within_of_touches k hh ha ht hs).answer]
    | true =>
      -- the share of `i` has no record of the name, but the answer only asks whether there is one
      cases a with
      | unregisterConnection name p =>
        have hp : p.getD (home name) ≠ home name := by simpa [Step.strays] using hs
        rw [step_of_strays k' hh' hp, step_of_strays k hh hp, hn name rfl,
          find?_step (hn name rfl) hb]
        rfl
      | _ => cases hs

theorem touching_pair {a b : Step}
    (hd : ∀ i, a.touches home = some i → b.touches home ≠ some i) (i : PeerId) :
    touching home i [b, a] = touching home i [a, b] := by
  simp only [touching_cons]
  by_cases ha : a.touches home = some i
  · simp [ha, hd i ha]
  · simp [ha]

theorem Alike.refl (s : State) : Alike s s := ⟨rfl, rfl, fun _ => rfl⟩

/-- Operations that follow a run in which guards come from registrations alone. -/
theorem alike_run (p : Policy) (past : List Step) (hpast : ∀ n, Step.acquire n ∉ past)
    (hh : (run (start p) past).Homed home) {xs ys : List Step}
    (ho : ∀ st ∈ xs, st.operates home = true) (hp : ys.Perm xs)
    (ht : ∀ i, touching home i ys = touching home i xs)
    (hlt : (accepted (start p) past).length + xs.length ≤ Bounds.word64) :
    Alike (run (run (start p) past) xs) (run (run (start p) past) ys) := by
  cases xs with
  | nil =>
    -- nothing follows, so the gauge may be beyond its top
    rw [hp.eq_nil]
    exact .refl _
  | cons st rest =>
    have hguards := guards_run_le (kept_start p) 0 past hpast
    have hstart : (start p).guards = 0 := rfl
    have hlength : (st :: rest).length = rest.length + 1 := rfl
    have hb := (balanced_start p).run (kept_start p) past hpast (by omega)
    exact alike_of_perm ((kept_start p).run past) hh hb ho hp ht (by omega)

/-! ## Top theorem -/

/-- **Independent operations commute.**  After any run in which guards come from registrations
alone, and with names that stand for one peer each, as they can be chosen for any session: two
operations that touch different peers, on connections that are there, are answered the same in
either order and come to the same; and so does any number of operations in every order that keeps
the one in which each peer is touched.  For the gauge there must be room: before each of the
operations there were fewer than `2 ^ 64` registrations, as there are if there were fewer than
`2 ^ 64` steps. -/
theorem operations_commute (p : Policy) (past : List Step) (home : String → PeerId)
    (hpast : ∀ n, Step.acquire n ∉ past) (hh : (run (start p) past).Homed home) :
    let s := run (start p) past
    (∀ a b, a.operates home = true → b.operates home = true →
      (∀ i, a.touches home = some i → b.touches home ≠ some i) →
      (∀ n, a.subject = some n ∨ b.subject = some n → (s.find? n).isSome = true) →
      (accepted (start p) past).length + 2 ≤ Bounds.word64 →
      (step (step s b).state a).answer = (step s a).answer ∧
      (step (step s a).state b).answer = (step s b).answer ∧
      Alike (run s [a, b]) (run s [b, a])) ∧
    ∀ xs ys, (∀ st ∈ xs, st.operates home = true) → ys.Perm xs →
      (∀ i, touching home i ys = touching home i xs) →
      (accepted (start p) past).length + xs.length ≤ Bounds.word64 →
      Alike (run s xs) (run s ys) := by
  intro s
  have k : Kept s := (kept_start p).run past
  refine ⟨fun a b ha hb hd hn hlt => ⟨?_, ?_, ?_⟩, fun xs ys ho hp ht hlt => ?_⟩
  · exact answer_of_apart k hh ha hb hd fun n h => hn n (.inl h)
  · exact answer_of_apart k hh hb ha (fun i hi hi' => hd i hi' hi) fun n h => hn n (.inr h)
  · exact alike_run p past hpast hh (by simp [ha, hb]) (.swap a b []) (touching_pair hd) hlt
  · exact alike_run p past hpast hh ho hp ht hlt

/-- Two peers, of which the first takes over from itself while the second is released. -/
def twoPeers : List Step := [.register "a" 1 none, .register "b" 2 none]

def homeOfTwo (name : String) : PeerId := if name = "b" then 2 else 1

theorem commute_twoPeers :
    (step (step (run (start evicting) twoPeers) (.release "b" .clientClosed)).state
      (.register "c" 1 none)).answer =
        (step (run (start evicting) twoPeers) (.register "c" 1 none)).answer ∧
    Alike
      (run (run (start evicting) twoPeers)
        [.register "c" 1 none, .dropGuard "a", .release "b" .clientClosed])
      (run (run (start evicting) twoPeers)
        [.release "b" .clientClosed, .register "c" 1 none, .dropGuard "a"]) := by
  have hpast : ∀ n, Step.acquire n ∉ twoPeers := by simp [twoPeers]
  have hh : (run (start evicting) twoPeers).Homed homeOfTwo := by
    unfold State.Homed
    decide
  have hlt : (accepted (start evicting) twoPeers).length + 3 ≤ Bounds.word64 :=
    Nat.le_trans (Nat.add_le_add_right (length_accepted_le _ twoPeers) 3) (by decide)
  obtain ⟨hpair, hrun⟩ := operations_commute evicting twoPeers homeOfTwo hpast hh
  have hd : ∀ i, (Step.register "c" 1 none).touches homeOfTwo = some i →
      (Step.release "b" .clientClosed).touches homeOfTwo ≠ some i := by
    simp [Step.touches, homeOfTwo]
  have hheld : ∀ n, (Step.register "c" 1 none).subject = some n ∨
      (Step.release "b" .clientClosed).subject = some n →
      ((run (start evicting) twoPeers).find? n).isSome = true := by
    rintro n (h | h)
    · cases h
    · obtain rfl := Option.some.inj h
      decide
  refine ⟨(hpair _ _ rfl rfl hd hheld (by omega)).1, hrun _ _ (by decide) ?_ (fun i => ?_) hlt⟩
  · exact @List.perm_append_comm _ [Step.release "b" .clientClosed]
      [.register "c" 1 none, .dropGuard "a"]
  · by_cases hi : (1 : PeerId) = i
    · subst hi
      rfl
    · simp [touching_cons, Step.touches, homeOfTwo, hi]

end Switchboard.Session
