/-!
# Binary floating-point values in exact arithmetic

A double is a sign and `mantissa · 2 ^ exponent` with at most 53 bits; sums and products of the
reader are taken exactly and rounded once, to the nearest double, ties to the even mantissa.

    round? num den = the double nearest to num / den, none from 2 ^ 1024 on
-/

namespace Switchboard

structure Double where
  negative : Bool
  mantissa : Nat
  exponent : Int
  deriving DecidableEq, Repr

namespace Double

/-! ## Algorithm -/

def leastExponent : Int := -1074

def zero (negative : Bool) : Double := ⟨negative, 0, leastExponent⟩

def isZero (d : Double) : Bool := d.mantissa == 0

/-- `num / den` scaled by `2 ^ -e`, as a ratio again. -/
def scaled (num den : Nat) (e : Int) : Nat × Nat :=
  if 0 ≤ e then (num, den * Nat.pow 2 e.toNat) else (num * Nat.pow 2 (-e).toNat, den)

/-- The exponent at which `num / den` has a mantissa of 53 bits, or the least one. -/
def exponentOf (num den : Nat) : Int :=
  let e : Int := (Nat.log2 num : Int) - (Nat.log2 den : Int) - 52
  let (a, b) := scaled num den e
  max leastExponent (if a / b < Nat.pow 2 52 then e - 1 else e)

/-- A quotient rounded to the nearest integer, ties to even. -/
def roundQuotient (a b : Nat) : Nat :=
  let q := a / b
  let r := a % b
  if 2 * r < b then q
  else if b < 2 * r then q + 1
  else if q % 2 = 0 then q else q + 1

/-- The size of the double nearest to `num / den`, for positive `den`. -/
def round? (num den : Nat) : Option (Nat × Int) :=
  if num = 0 then some (0, leastExponent)
  else
    let e := exponentOf num den
    let (a, b) := scaled num den e
    let m := roundQuotient a b
    let (m, e) := if m = Nat.pow 2 53 then (Nat.pow 2 52, e + 1) else (m, e)
    if 971 < e then none else some (m, e)

/-- The double's size as a ratio. -/
def ratio (d : Double) : Nat × Nat :=
  if 0 ≤ d.exponent then (d.mantissa * Nat.pow 2 d.exponent.toNat, 1)
  else (d.mantissa, Nat.pow 2 (-d.exponent).toNat)

def ofRatio? (negative : Bool) (num den : Nat) : Option Double :=
  (round? num den).map fun (m, e) => ⟨negative, m, e⟩

def ofNat? (n : Nat) : Option Double := ofRatio? false n 1

def mul? (x y : Double) : Option Double :=
  let (a, b) := x.ratio
  let (c, d) := y.ratio
  ofRatio? (x.negative != y.negative) (a * c) (b * d)

/-- The quotient, for `y` other than zero. -/
def div? (x y : Double) : Option Double :=
  let (a, b) := x.ratio
  let (c, d) := y.ratio
  ofRatio? (x.negative != y.negative) (a * d) (b * c)

def neg (d : Double) : Double := { d with negative := !d.negative }

end Double

end Switchboard
