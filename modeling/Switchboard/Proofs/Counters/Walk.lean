import Mathlib.Data.List.Induction
import Mathlib.Order.Bounds.Basic
import Switchboard.Proofs.Hub.Tallies

/-!
# Counters in any order

Whatever is counted, in whatever order, each counter shows how often its kind came.  The gauge of
open connections is a walk that goes up with a connection and down with a disconnection, and is held
at zero; what it shows is the most by which connections outnumber disconnections at the end of what
was counted.

    gauge after ts = greatest excess of a suffix of ts
    gauge = accepted - closed ↔ no prefix of ts has more disconnections than connections
-/

namespace Switchboard.Counters

/-! ## Specification -/

/-- The counter of a kind. -/
def of (c : Counters) : Tally → UInt64
  | .connection => c.accepted
  | .disconnection => c.closed
  | .rejection => c.rejected
  | .eviction => c.evicted
  | .received => c.received
  | .forwarded => c.forwarded
  | .unroutable => c.unroutable
  | .dropped => c.dropped
  | .violation => c.violations

/-- By how much connections outnumber disconnections. -/
def excess (ts : List Tally) : Int := ts.count .connection - ts.count .disconnection

/-- One step of the gauge, over all natural numbers. -/
def held (n : Nat) : Tally → Nat
  | .connection => n + 1
  | .disconnection => n - 1
  | _ => n

/-- The gauge after what was counted, over all natural numbers. -/
def walk (ts : List Tally) : Nat := ts.foldl held 0

/-! ## Each kind by itself -/

theorem of_count (k : Tally) (c : Counters) (t : Tally) :
    (c.count t).of k = if t = k then c.of k + 1 else c.of k := by
  cases t <;> cases k <;> rfl

theorem toNat_of_countAll (k : Tally) {ts : List Tally} (h : ts.count k < Bounds.word64) :
    ((countAll {} ts).of k).toNat = ts.count k := by
  have hzero : ({} : Counters).of k = 0 := by cases k <;> rfl
  have hadd : (countAll {} ts).of k = ({} : Counters).of k + UInt64.ofNat (ts.count k) :=
    @countAll_eq_add (of · k) k (of_count k) {} ts
  rw [hadd, hzero, UInt64.zero_add]
  exact UInt64.toNat_ofNat_of_lt' h

/-! ## The walk -/

theorem walk_concat (ts : List Tally) (t : Tally) : walk (ts ++ [t]) = held (walk ts) t := by
  rw [walk, List.foldl_append]
  rfl

theorem walk_le_count (ts : List Tally) : walk ts ≤ ts.count .connection := by
  induction ts using List.reverseRecOn with
  | nil => exact Nat.le_refl 0
  | append_singleton ts t ih =>
    rw [walk_concat, List.count_append]
    cases t <;> simp [held] <;> omega

/-- **The gauge never wraps**: it is the walk over all natural numbers. -/
theorem toNat_active_countAll {ts : List Tally} (h : ts.count .connection < Bounds.word64) :
    (countAll {} ts).active.toNat = walk ts := by
  induction ts using List.reverseRecOn with
  | nil => rfl
  | append_singleton ts t ih =>
    rw [List.count_append] at h
    have hih := ih (by omega)
    have hle := walk_le_count ts
    have hconcat : countAll {} (ts ++ [t]) = (countAll {} ts).count t := countAll_append {} ts [t]
    rw [hconcat, walk_concat, ← hih]
    cases t with
    | connection =>
      rw [List.count_singleton_self] at h
      exact toNat_active_connection _ (by omega)
    | disconnection => exact toNat_active_disconnection _
    | _ => rfl

/-! ## What the walk shows -/

theorem excess_append (ts us : List Tally) : excess (ts ++ us) = excess ts + excess us := by
  simp only [excess, List.count_append, Int.natCast_add]
  omega

/-- The walk stays at zero or goes on by the excess of the step. -/
theorem held_eq_max (n : Nat) (t : Tally) : (held n t : Int) = max 0 (n + excess [t]) := by
  cases t <;> simp [held, excess] <;> omega

/-- **The walk is the greatest excess at the end.**  A suffix of what was counted is empty, or it is
a suffix of what was counted before, with the last step. -/
theorem walk_isGreatest (ts : List Tally) :
    IsGreatest {n : Int | ∃ us, us <:+ ts ∧ n = excess us} (walk ts) := by
  induction ts using List.reverseRecOn with
  | nil =>
    refine ⟨⟨[], List.suffix_rfl, rfl⟩, ?_⟩
    rintro n ⟨us, hus, rfl⟩
    rw [List.suffix_nil.1 hus]
    rfl
  | append_singleton ts t ih =>
    obtain ⟨⟨vs, hvs, hwalk⟩, hupper⟩ := ih
    rw [walk_concat, held_eq_max]
    constructor
    · rcases le_total 0 ((walk ts : Int) + excess [t]) with hpos | hneg
      · refine ⟨vs ++ [t], List.suffix_concat_iff.2 (.inr ⟨vs, rfl, hvs⟩), ?_⟩
        rw [max_eq_right hpos, excess_append, hwalk]
      · exact ⟨[], List.nil_suffix, max_eq_left hneg⟩
    · rintro n ⟨us, hus, rfl⟩
      obtain rfl | ⟨us, rfl, hbefore⟩ := List.suffix_concat_iff.1 hus
      · exact le_max_left 0 _
      · rw [excess_append]
        have hle : excess us ≤ walk ts := hupper ⟨us, hbefore, rfl⟩
        exact (Int.add_le_add_right hle _).trans (le_max_right 0 _)

theorem excess_le_walk (ts : List Tally) : excess ts ≤ walk ts :=
  (walk_isGreatest ts).2 ⟨ts, List.suffix_rfl, rfl⟩

/-- Nothing is lost at zero exactly if the excess never was below zero: what comes behind a prefix
has at most the excess that the walk shows. -/
theorem walk_eq_excess_iff (ts : List Tally) :
    (walk ts : Int) = excess ts ↔ ∀ us, us <+: ts → 0 ≤ excess us := by
  obtain ⟨⟨vs, ⟨us, hsplit⟩, hwalk⟩, hupper⟩ := walk_isGreatest ts
  constructor
  · rintro heq us ⟨vs, rfl⟩
    have hle : excess vs ≤ walk (us ++ vs) := hupper ⟨vs, List.suffix_append us vs, rfl⟩
    rw [heq, excess_append] at hle
    omega
  · intro h
    have hus := h us ⟨vs, hsplit⟩
    have hle := excess_le_walk ts
    rw [← hsplit, excess_append] at hle ⊢
    rw [hsplit] at hle ⊢
    omega

/-! ## Top theorem -/

/-- **Counters under any order.**  Of fewer than 2^64 of each kind every counter shows the number;
the gauge is at all times the walk that is held at zero, and shows the greatest excess of a suffix.
So it is at least what was accepted less what was closed, and the same exactly if at no time there
were more disconnections than connections. -/
theorem counted_in_any_order (ts : List Tally) (h : ∀ k, ts.count k < Bounds.word64) :
    let c := countAll {} ts
    (∀ k, (c.of k).toNat = ts.count k) ∧
      IsGreatest {n : Int | ∃ us, us <:+ ts ∧ n = excess us} c.active.toNat ∧
      (∀ us, us <+: ts → (countAll {} us).active.toNat = walk us) ∧
      (c.accepted.toNat : Int) - c.closed.toNat ≤ c.active.toNat ∧
      ((c.active.toNat : Int) = c.accepted.toNat - c.closed.toNat ↔
        ∀ us, us <+: ts → us.count .disconnection ≤ us.count .connection) := by
  intro c
  have hof : ∀ k, (c.of k).toNat = ts.count k := fun k => toNat_of_countAll k (h k)
  have haccepted : c.accepted.toNat = ts.count .connection := hof .connection
  have hclosed : c.closed.toNat = ts.count .disconnection := hof .disconnection
  have hactive : c.active.toNat = walk ts := toNat_active_countAll (h .connection)
  rw [haccepted, hclosed, hactive]
  refine ⟨hof, walk_isGreatest ts, fun us hus => ?_, excess_le_walk ts, ?_⟩
  · exact toNat_active_countAll (Nat.lt_of_le_of_lt (hus.sublist.count_le _) (h .connection))
  · refine (walk_eq_excess_iff ts).trans (forall₂_congr fun us _ => ?_)
    rw [excess]
    omega

/-- A disconnection too many, and then two connections of which one is closed. -/
def closedTooOften : List Tally :=
  [.disconnection, .connection, .received, .connection, .disconnection]

/-- The first disconnection is lost on the gauge, which shows one more than the difference. -/
theorem counted_closedTooOften :
    (∀ k, closedTooOften.count k < Bounds.word64) ∧
      (countAll {} closedTooOften).active.toNat = 1 ∧
      ((countAll {} closedTooOften).active.toNat : Int) ≠
        (countAll {} closedTooOften).accepted.toNat - (countAll {} closedTooOften).closed.toNat := by
  have hfew : ∀ k, closedTooOften.count k < Bounds.word64 := by
    intro k
    exact Nat.lt_of_le_of_lt List.count_le_length (by decide)
  obtain ⟨-, -, hwalk, -, hdifference⟩ := counted_in_any_order closedTooOften hfew
  refine ⟨hfew, hwalk closedTooOften List.prefix_rfl, fun heq => ?_⟩
  have hfirst := hdifference.1 heq [.disconnection] (by decide)
  exact absurd hfirst (by decide)

end Switchboard.Counters
