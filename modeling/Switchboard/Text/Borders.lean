/-!
# Sets of code points as lists of borders

A set is the rising list of the points where membership changes: out of the set before the first
border, in it from there to the second, and so on.

    within [a, b] n ↔ a ≤ n < b
-/

namespace Switchboard.Text

/-- Is `n` behind an odd number of borders? -/
def within (borders : List Nat) (n : Nat) : Bool :=
  (borders.takeWhile (· ≤ n)).length % 2 == 1

/-! ## Lemmas -/

theorem within_nil (n : Nat) : within [] n = false := rfl

theorem within_pair (a b n : Nat) : within [a, b] n = true ↔ a ≤ n ∧ n < b := by
  by_cases ha : a ≤ n <;> by_cases hb : b ≤ n <;> simp [within, List.takeWhile, ha, hb]; omega

end Switchboard.Text
