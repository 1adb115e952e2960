import Switchboard.Stage

/-!
# Stages only move forward

Whatever moves are asked for, in whatever order, those that are accepted are the beginning of one of
the courses that lead on from where they start (`courses`), and the last of them is where the
connection is.

    t :: c is a course from s if s allows t and c is a course from t
    accepted s ts <+: a course from s
-/

namespace Switchboard.Stage

/-! ## Specification -/

/-- The ways that lead from a stage to the last one. -/
def courses : Stage → List (List Stage)
  | connecting => [[established, closing, closed], [closing, closed]]
  | established => [[closing, closed]]
  | closing => [[closed]]
  | closed => [[]]

variable {s t : Stage} {c : List Stage}

/-! ## Courses -/

theorem cons_mem_courses : t :: c ∈ courses s ↔ s.allows t = true ∧ c ∈ courses t := by
  cases s <;> cases t <;> simp [allows, courses]

theorem courses_ne_nil (s : Stage) : courses s ≠ [] := by cases s <;> exact List.cons_ne_nil _ _

/-- No course comes to a stage twice, or back to where it starts. -/
theorem nodup_of_mem_courses (hc : c ∈ courses s) : (s :: c).Nodup := by
  revert c
  cases s <;> decide

theorem length_le_of_mem_courses (hc : c ∈ courses s) : c.length ≤ 3 := by
  revert c
  cases s <;> decide

/-- All that a course goes through is accepted. -/
theorem accepted_of_prefix {ts : List Stage} (hc : c ∈ courses s) (h : ts <+: c) :
    s.accepted ts = ts := by
  induction ts generalizing s c with
  | nil => rfl
  | cons t ts ih =>
    obtain ⟨c, rfl, hrest⟩ := List.cons_prefix_iff.1 h
    obtain ⟨hallows, hc⟩ := cons_mem_courses.1 hc
    rw [accepted, if_pos hallows, ih hc hrest]

/-! ## One move -/

theorem advance_of_allows (h : s.allows t = true) : s.advance t = t := if_pos h

theorem advance_of_refused (h : s.allows t = false) : s.advance t = s := by
  rw [advance, h]
  rfl

/-- Only a connection that is being taken down is gone after a move. -/
theorem advance_eq_closed (h : s.advance t = closed) : s = closing ∨ s = closed := by
  cases s <;> cases t <;> simp_all [advance, allows]

theorem advance_closed (t : Stage) : closed.advance t = closed := by cases t <;> rfl

/-! ## Many moves -/

theorem run_concat (s : Stage) (us : List Stage) (t : Stage) :
    s.run (us ++ [t]) = (s.run us).advance t := by
  rw [run, List.foldl_append]
  rfl

theorem accepted_concat (s : Stage) (us : List Stage) (t : Stage) :
    s.accepted (us ++ [t]) = s.accepted us ++ if (s.run us).allows t then [t] else [] := by
  induction us generalizing s with
  | nil => rfl
  | cons u us ih =>
    have hrun : s.run (u :: us) = (s.advance u).run us := rfl
    rw [List.cons_append, accepted, accepted, hrun]
    cases h : s.allows u with
    | true =>
      rw [if_pos rfl, if_pos rfl, advance_of_allows h, ih, List.cons_append]
    | false =>
      rw [if_neg Bool.false_ne_true, if_neg Bool.false_ne_true, advance_of_refused h, ih]

/-- **The accepted targets begin a course.** -/
theorem accepted_prefix (s : Stage) (ts : List Stage) : ∃ c ∈ courses s, s.accepted ts <+: c := by
  induction ts generalizing s with
  | nil =>
    obtain ⟨c, hc⟩ := List.exists_mem_of_ne_nil _ (courses_ne_nil s)
    exact ⟨c, hc, List.nil_prefix⟩
  | cons t ts ih =>
    rw [accepted]
    split
    · next h =>
      obtain ⟨c, hc, hprefix⟩ := ih t
      exact ⟨t :: c, cons_mem_courses.2 ⟨h, hc⟩, (List.prefix_cons_inj t).2 hprefix⟩
    · exact ih s

/-- **A run ends in the last target that was accepted.** -/
theorem run_eq_getLastD (s : Stage) (ts : List Stage) : s.run ts = (s.accepted ts).getLastD s := by
  induction ts generalizing s with
  | nil => rfl
  | cons t ts ih =>
    have hrun : s.run (t :: ts) = (s.advance t).run ts := rfl
    rw [hrun, accepted, ih]
    cases h : s.allows t with
    | true => rw [advance_of_allows h, if_pos rfl, List.getLastD_cons]
    | false => rw [advance_of_refused h, if_neg Bool.false_ne_true]

/-! ## Top theorem -/

/-- **Which histories a connection can have.**  Of any moves that are asked for, the accepted targets
begin one of the two courses, and every beginning of one comes about; so no stage is entered twice
and three moves are accepted at most.  The connection is where the last accepted move led.  Each call
is accepted, and leads to its target, or it changes nothing; the last stage is entered from the one
before it alone, and never left. -/
theorem forward_only (ts : List Stage) :
    let entered := accepted connecting ts
    (entered <+: [established, closing, closed] ∨ entered <+: [closing, closed]) ∧
      (∀ us, us <+: [established, closing, closed] ∨ us <+: [closing, closed] →
        accepted connecting us = us) ∧
      (connecting :: entered).Nodup ∧ entered.length ≤ 3 ∧
      run connecting ts = entered.getLastD connecting ∧
      ∀ us t, us ++ [t] <+: ts →
        let s := run connecting us
        let s' := run connecting (us ++ [t])
        (s.allows t = true ∧ s' = t ∧
            accepted connecting (us ++ [t]) = accepted connecting us ++ [t] ∨
          s.allows t = false ∧ s' = s ∧
            accepted connecting (us ++ [t]) = accepted connecting us) ∧
        (s' = closed → s = closing ∨ s = closed) ∧ (s = closed → s' = closed) := by
  intro entered
  obtain ⟨c, hc, hprefix⟩ := accepted_prefix connecting ts
  have htwo : entered <+: [established, closing, closed] ∨ entered <+: [closing, closed] := by
    rcases List.mem_cons.1 hc with rfl | hc
    · exact .inl hprefix
    · exact .inr (List.mem_singleton.1 hc ▸ hprefix)
  refine ⟨htwo, ?_, ?_, ?_, run_eq_getLastD connecting ts, ?_⟩
  · rintro us (h | h)
    · exact accepted_of_prefix List.mem_cons_self h
    · exact accepted_of_prefix (List.mem_cons_of_mem _ List.mem_cons_self) h
  · exact (nodup_of_mem_courses hc).sublist ((List.prefix_cons_inj connecting).2 hprefix).sublist
  · exact Nat.le_trans hprefix.length_le (length_le_of_mem_courses hc)
  · intro us t _ s s'
    have hs' : s' = s.advance t := run_concat connecting us t
    have haccepted : accepted connecting (us ++ [t]) =
        accepted connecting us ++ if s.allows t then [t] else [] := accepted_concat connecting us t
    rw [hs', haccepted]
    refine ⟨?_, advance_eq_closed, fun h => h ▸ advance_closed t⟩
    cases h : s.allows t with
    | true => exact .inl ⟨rfl, advance_of_allows h, by rw [if_pos rfl]⟩
    | false =>
      refine .inr ⟨rfl, advance_of_refused h, ?_⟩
      rw [if_neg Bool.false_ne_true, List.append_nil]

end Switchboard.Stage
