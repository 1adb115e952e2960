import Switchboard.Proofs.Session.Recount

/-!
# Refused registrations leave no trace

A registration that is refused counts as that and does nothing else.  So one can strike all of them
from a run, and with them the reads of the queues that were meant for them: every other step is
answered as before, and at every point the session is the same but for the count of refusals, which
is that of the registrations struck before it.

    run (start p) (kept names (start p) steps) = (run (start p) steps).forgiven
    (run (start p) steps).hub.counters.rejected = ofNat (refusals (start p) steps)
-/

namespace Switchboard

/-- The counters as if nothing had been refused. -/
def Counters.forgiven (c : Counters) : Counters := { c with rejected := 0 }

namespace Session

/-- The session as if nothing had been refused. -/
def State.forgiven (s : State) : State := s.recount s.hub.counters.forgiven

/-- The step is a registration that is refused. -/
def refused (s : State) (st : Step) : Bool :=
  match st, (step s st).answer with
  | .register .., .taken _ => true
  | _, _ => false

/-- The step reads the queue of one of these names, and there is no connection of that name. -/
def unread (names : List String) (s : State) : Step → Bool
  | .receive name _ => names.contains name && (s.find? name).isNone
  | _ => false

def struck (names : List String) (s : State) (st : Step) : Bool :=
  refused s st || unread names s st

/-- The steps that are not struck from a run. -/
def kept (names : List String) (s : State) (steps : List Step) : List Step :=
  ((trace s steps).filter fun m => !struck names m.1 m.2).map (·.2)

/-- The registrations that a run refuses. -/
def refusals (s : State) (steps : List Step) : Nat :=
  (trace s steps).countP fun m => refused m.1 m.2

/-- A step of a run with its answer and what was reported of it. -/
def told (m : State × Step) : Step × Answer × List Event :=
  (m.2, (step m.1 m.2).answer, (step m.1 m.2).events)

/-! ## Counters without refusals -/

theorem forgiven_count (c : Counters) {t : Tally} (h : t ≠ .rejection) :
    c.forgiven.count t = (c.count t).forgiven := by
  cases t with
  | rejection => exact absurd rfl h
  | _ => rfl

theorem forgiven_countAll (c : Counters) (ts : List Tally) (h : .rejection ∉ ts) :
    c.forgiven.countAll ts = (c.countAll ts).forgiven := by
  induction ts generalizing c with
  | nil => rfl
  | cons t rest ih =>
    rw [List.mem_cons, not_or] at h
    calc c.forgiven.countAll (t :: rest)
        = (c.forgiven.count t).countAll rest := rfl
      _ = (c.count t).forgiven.countAll rest := by rw [forgiven_count c (Ne.symm h.1)]
      _ = (c.countAll (t :: rest)).forgiven := ih (c.count t) h.2

/-! ## One step -/

/-- Refused registrations are counted, and nothing else is as a refusal. -/
theorem count_rejection_billOf (s : State) (st : Step) :
    (billOf s st).count .rejection = (refused s st).toNat := by
  unfold billOf refused
  generalize (step s st).answer = a
  cases st with
  | register name p capacity =>
    cases a with
    | done => cases evicts s (.register name p capacity) <;> rfl
    | _ => rfl
  | route bound f =>
    cases a with
    | routed o => cases o <;> rfl
    | _ => rfl
  | release name reason => cases a <;> rfl
  | _ => rfl

theorem step_forgiven {s : State} {st : Step} (h : refused s st = false) :
    step s.forgiven st =
      (step s st).recount (step s st).state.hub.counters.forgiven := by
  have hnone : .rejection ∉ billOf s st := by
    rw [← List.count_eq_zero, count_rejection_billOf, h]
    rfl
  rw [State.forgiven, step_recount, forgiven_countAll _ _ hnone, counters_step]

theorem forgiven_of_refused {s : State} {st : Step} (h : refused s st = true) :
    (step s st).state.forgiven = s.forgiven := by
  cases st with
  | register name p capacity =>
    obtain ⟨h', -, -, -, ha⟩ | ⟨old, -, -, -, he, -⟩ := register_cases s name p capacity
    · simp [refused, step, ha] at h
    · simp only [step, he]
      rfl
  | _ => cases h

theorem state_of_unread {names : List String} {s : State} {st : Step}
    (h : unread names s st = true) : (step s st).state = s := by
  cases st with
  | receive name most =>
    simp only [unread, Bool.and_eq_true, Option.isNone_iff_eq_none] at h
    rw [step_of_subject s _ name rfl, h.2]
    rfl
  | _ => cases h

/-- What is struck does nothing but to be counted. -/
theorem forgiven_of_struck {names : List String} {s : State} {st : Step}
    (h : struck names s st = true) : (step s st).state.forgiven = s.forgiven := by
  rcases Bool.or_eq_true _ _ ▸ h with h | h
  · exact forgiven_of_refused h
  · rw [state_of_unread h]

theorem told_forgiven {s : State} {st : Step} (h : refused s st = false) :
    told (s.forgiven, st) = told (s, st) := by
  simp only [told, step_forgiven h, Result.recount]

/-! ## Runs -/

theorem refused_of_not_struck {names : List String} {s : State} {st : Step}
    (h : struck names s st = false) : refused s st = false := (Bool.or_eq_false_iff.1 h).1

theorem kept_cons (names : List String) (s : State) (st : Step) (rest : List Step) :
    kept names s (st :: rest) =
      if struck names s st then kept names (step s st).state rest
      else st :: kept names (step s st).state rest := by
  unfold kept
  rw [trace, List.filter_cons]
  cases struck names s st <;> rfl

theorem kept_append (names : List String) (s : State) (before after : List Step) :
    kept names s (before ++ after) = kept names s before ++ kept names (run s before) after := by
  induction before generalizing s with
  | nil => rfl
  | cons st rest ih =>
    rw [List.cons_append, kept_cons, kept_cons, ih, run_cons]
    split <;> rfl

/-- The shortened run leads to the same, refusals forgiven. -/
theorem run_kept (names : List String) (s : State) (steps : List Step) :
    run s.forgiven (kept names s steps) = (run s steps).forgiven := by
  induction steps generalizing s with
  | nil => rfl
  | cons st rest ih =>
    rw [kept_cons, run_cons, ← ih]
    cases hs : struck names s st with
    | true => rw [if_pos rfl, forgiven_of_struck hs]
    | false =>
      rw [if_neg Bool.false_ne_true, run_cons, step_forgiven (refused_of_not_struck hs)]
      rfl

theorem told_kept (names : List String) (s : State) (steps : List Step) :
    (trace s.forgiven (kept names s steps)).map told =
      ((trace s steps).filter fun m => !struck names m.1 m.2).map told := by
  induction steps generalizing s with
  | nil => rfl
  | cons st rest ih =>
    rw [kept_cons, trace, List.filter_cons]
    cases hs : struck names s st with
    | true =>
      rw [if_pos rfl, ← forgiven_of_struck hs]
      exact ih _
    | false =>
      have hr := refused_of_not_struck hs
      have hafter : (step s.forgiven st).state = (step s st).state.forgiven := by
        rw [step_forgiven hr]
        rfl
      rw [if_neg Bool.false_ne_true, trace, hafter, List.map_cons, told_forgiven hr, ih]
      rfl

theorem count_rejection_bill (s : State) (steps : List Step) :
    (bill s steps).count .rejection = refusals s steps := by
  induction steps generalizing s with
  | nil => rfl
  | cons st rest ih =>
    rw [bill_cons, List.count_append, ih, count_rejection_billOf, refusals, refusals, trace,
      List.countP_cons, Nat.add_comm]
    cases refused s st <;> rfl

theorem rejected_run (p : Policy) (steps : List Step) :
    (run (start p) steps).hub.counters.rejected = UInt64.ofNat (refusals (start p) steps) := by
  have hcount := @Counters.countAll_eq_add Counters.rejected .rejection
    (fun c t => by cases t <;> rfl) (start p).hub.counters (bill (start p) steps)
  rw [counters_run, hcount, count_rejection_bill]
  exact UInt64.zero_add _

/-! ## Top theorem -/

/-- **A refused registration leaves no trace.**  Take any run and strike the registrations that were
refused, and the reads under some names, whichever these are, while there was no connection of that
name.  At every point the shortened run has come to the same table, queues, close signals, records,
guards and counters, but that it counts no refusals, and the steps that are left from there on are
answered as before, with the same events; and the refusals that the run counts are the registrations
that were struck. -/
theorem refusals_leave_no_trace (p : Policy) (names : List String) (before after : List Step) :
    let s := run (start p) before
    kept names (start p) (before ++ after) = kept names (start p) before ++ kept names s after ∧
    run (start p) (kept names (start p) before) = s.forgiven ∧
    (trace s.forgiven (kept names s after)).map told =
      ((trace s after).filter fun m => !struck names m.1 m.2).map told ∧
    s.hub.counters.rejected = UInt64.ofNat (refusals (start p) before) :=
  ⟨kept_append names (start p) before after, run_kept names (start p) before,
    told_kept names _ after, rejected_run p before⟩

end Session

end Switchboard
