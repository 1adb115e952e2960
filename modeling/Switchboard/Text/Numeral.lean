import Switchboard.Bounds

/-!
# Numerals

Whole numbers as people type them: digits, with leading zeros if they like, and maybe a sign.

    integer? s = some n ↔ s is a sign or none and then digits, they denote n, and n fits 64 bits
-/

namespace Switchboard.Text

/-! ## Algorithm -/

def isDigit (c : Char) : Bool := '0' ≤ c && c ≤ '9'

def digitsValue (ds : List Char) : Nat := ds.foldl (fun n c => n * 10 + (c.toNat - 48)) 0

/-- The number that digits denote; there must be one digit at least. -/
def digits? (ds : List Char) : Option Nat :=
  if ds.isEmpty || !ds.all isDigit then none else some (digitsValue ds)

/-- A number that may have a plus sign. -/
def natural? : List Char → Option Nat
  | '+' :: ds => digits? ds
  | ds => digits? ds

/-- A number with a sign or without, of any size. -/
def signed? : List Char → Option Int
  | '-' :: ds => (digits? ds).map fun n => -(n : Int)
  | ds => (natural? ds).map fun n => (n : Int)

/-- A number with a sign or without that fits 64 bits. -/
def integer? (s : List Char) : Option Int :=
  (signed? s).filter fun n => -Bounds.half64 ≤ n && n < Bounds.half64

/-! ## Lemmas -/

theorem integer?_eq_some_iff (s : List Char) (n : Int) :
    integer? s = some n ↔ signed? s = some n ∧ -Bounds.half64 ≤ n ∧ n < Bounds.half64 := by
  simp [integer?, Option.filter_eq_some_iff]

end Switchboard.Text
