/-!
# Bounds

Powers of two that end the ranges of numbers of a fixed width.

    word n = 2 ^ n
-/

namespace Switchboard.Bounds

/-- The number of values that `n` bits have. -/
def word (n : Nat) : Nat := Nat.pow 2 n

def word16 : Nat := 65536

def word64 : Nat := 18446744073709551616

/-- The number of values that are not negative among those of 64 bits with a sign. -/
def half64 : Nat := 9223372036854775808

/-- An eighth of the numbers that 64 bits hold. -/
def eighth64 : Nat := 2305843009213693952

/-! ## Lemmas -/

theorem word16_eq : word16 = word 16 := rfl

theorem word64_eq : word64 = word 64 := rfl

theorem half64_eq : half64 = word 63 := rfl

theorem eighth64_eq : eighth64 = word 61 := rfl

end Switchboard.Bounds
