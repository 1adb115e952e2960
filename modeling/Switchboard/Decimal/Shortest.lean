import Switchboard.Decimal.Double

/-!
# Shortest decimal text of a double

The fewest digits that read back as the same double, and of those the nearest to it.  Numbers from
10^-5 to below 10^16 are written positionally and keep one decimal; all others with an exponent.

    text 1 = "1.0",  text 10^30 = "1e+30",  text -0 = "-0.0"
-/

namespace Switchboard

/-- The number `0.d₁d₂… · 10 ^ point`, `digits` being `d₁d₂…` read as one numeral. -/
structure Decimal where
  digits : Nat
  point : Int
  deriving DecidableEq, Repr

namespace Decimal

/-! ## Algorithm -/

def digitCount (n : Nat) : Nat := (Nat.toDigits 10 n).length

/-- `n · 10 ^ k` as a ratio. -/
def powerRatio (n : Nat) (k : Int) : Nat × Nat :=
  if 0 ≤ k then (n * Nat.pow 10 k.toNat, 1) else (n, Nat.pow 10 (-k).toNat)

/-- The `p` with `10 ^ (p - 1) ≤ num / den < 10 ^ p`, for a positive ratio. -/
def pointOf (num den : Nat) : Int :=
  let p : Int := (digitCount num : Int) - (digitCount den : Int)
  let (a, b) := powerRatio 1 p
  if a * den ≤ num * b then p + 1 else p

/-- Does `n · 10 ^ k` read as this size? -/
def readsAs (m : Nat) (e : Int) (n : Nat) (k : Int) : Bool :=
  let (a, b) := powerRatio n k
  Double.round? a b == some (m, e)

/-- Of the two neighbours of `num / den` among the multiples of `10 ^ k`, the nearer one that reads
as `m · 2 ^ e`. -/
def neighbour (m : Nat) (e : Int) (num den : Nat) (k : Int) : Option Nat :=
  let (a, b) := powerRatio 1 k
  let below := num * b / (den * a)
  let twiceRest := 2 * (num * b % (den * a))
  let nearFirst :=
    if twiceRest < den * a || (twiceRest == den * a && below % 2 == 0) then [below, below + 1]
    else [below + 1, below]
  nearFirst.find? fun n => readsAs m e n k

def stripZeros : Nat → Nat → Nat
  | 0, n => n
  | fuel + 1, n => if n ≠ 0 ∧ n % 10 = 0 then stripZeros fuel (n / 10) else n

/-- Tries ever more digits, up to seventeen. -/
def search (m : Nat) (e : Int) (num den : Nat) (p : Int) : Nat → Nat → Decimal
  | 0, _ => ⟨0, 0⟩
  | fuel + 1, count =>
    match neighbour m e num den (p - count) with
    | some n => ⟨stripZeros (count + 1) n, p + digitCount n - count⟩
    | none => search m e num den p fuel (count + 1)

/-- The shortest decimal of a positive double's size. -/
def shortest (d : Double) : Decimal :=
  let (num, den) := d.ratio
  search d.mantissa d.exponent num den (pointOf num den) 17 1

def numeral (n : Nat) : List Char := Nat.toDigits 10 n

def signedExponent (e : Int) : List Char :=
  if e < 0 then '-' :: numeral e.natAbs else '+' :: numeral e.natAbs

/-- The digits with a point or an exponent. -/
def chars (x : Decimal) : List Char :=
  let ds := numeral x.digits
  let count : Int := ds.length
  if x.point ≤ -5 || 16 < x.point then
    let mantissa := match ds with
      | [d] => [d]
      | d :: rest => d :: '.' :: rest
      | [] => []
    mantissa ++ 'e' :: signedExponent (x.point - 1)
  else if x.point ≤ 0 then '0' :: '.' :: List.replicate (-x.point).toNat '0' ++ ds
  else if count ≤ x.point then ds ++ List.replicate (x.point - count).toNat '0' ++ ['.', '0']
  else ds.take x.point.toNat ++ '.' :: ds.drop x.point.toNat

end Decimal

/-- The shortest text that reads back as the double. -/
def Double.text (d : Double) : String :=
  let size := if d.isZero then ['0', '.', '0'] else (Decimal.shortest d).chars
  String.ofList (if d.negative then '-' :: size else size)

end Switchboard
