import Mathlib.Algebra.Order.Field.Power
import Mathlib.Data.Rat.Cast.Order
import Mathlib.Tactic.FieldSimp
import Mathlib.Tactic.GCongr
import Mathlib.Tactic.Linarith
import Mathlib.Tactic.Positivity
import Mathlib.Tactic.Ring
import Switchboard.Decimal.Double

/-!
# How far a double is from what it stands for

A quotient is rounded to a double that is half a unit away at most: a part in `2 ^ 53` of the
quotient, or half of the least double.  There is none only for quotients beyond the greatest double.

    ofRatio? s num den = some d → |d.size - num / den| ≤ num / den / 2 ^ 53 + 2 ^ (-1075)
    num / den ≤ maxSize → (ofRatio? s num den).isSome
-/

namespace Switchboard.Double

/-! ## Specification -/

/-- The size of a double. -/
def size (d : Double) : ℚ := d.mantissa * 2 ^ d.exponent

/-- Mantissa and exponent are those of a double. -/
structure Proper (d : Double) : Prop where
  mantissa : d.mantissa < 2 ^ 53
  least : leastExponent ≤ d.exponent
  greatest : d.exponent ≤ 971

/-- The size of the greatest double. -/
def maxSize : ℚ := 2 ^ (1024 : ℤ) - 2 ^ (971 : ℤ)

/-- `x` is `q`, up to the part `ε` of it and up to `δ` besides. -/
def Close (ε δ x q : ℚ) : Prop := |x - q| ≤ ε * q + δ

/-- Half a unit in the last place, as a part of the double. -/
def roundoff : ℚ := 2 ^ (-53 : ℤ)

/-- Half of the least double. -/
def underflow : ℚ := 2 ^ (-1075 : ℤ)

variable {num den a b : Nat} {e : Int} {d x y : Double}

/-! ## Quotients -/

theorem roundQuotient_bounds (hb : 0 < b) :
    2 * a ≤ 2 * (roundQuotient a b * b) + b ∧ 2 * (roundQuotient a b * b) ≤ 2 * a + b := by
  have hsplit := Nat.div_add_mod a b
  have hlt := Nat.mod_lt a hb
  have hcomm : a / b * b = b * (a / b) := Nat.mul_comm _ _
  unfold roundQuotient
  dsimp only
  repeat' split
  all_goals
    first
    | (rw [hcomm]; omega)
    | (rw [Nat.add_mul, hcomm]; omega)

/-- A quotient is rounded to an integer at most one half away. -/
theorem abs_roundQuotient_sub_le (hb : 0 < b) : |(roundQuotient a b : ℚ) - a / b| ≤ 1 / 2 := by
  have hb' : (0 : ℚ) < b := Nat.cast_pos.2 hb
  obtain ⟨hlow, hhigh⟩ := roundQuotient_bounds (a := a) hb
  have hlow' : (2 * a : ℚ) ≤ 2 * (roundQuotient a b * b) + b := by exact_mod_cast hlow
  have hhigh' : (2 * (roundQuotient a b * b) : ℚ) ≤ 2 * a + b := by exact_mod_cast hhigh
  have hcancel : (a : ℚ) / b * b = a := div_mul_cancel₀ _ hb'.ne'
  rw [abs_le]
  constructor
  · refine le_of_mul_le_mul_right ?_ hb'
    rw [sub_mul, hcancel]
    linarith
  · refine le_of_mul_le_mul_right ?_ hb'
    rw [sub_mul, hcancel]
    linarith

/-! ## Exponents -/

theorem two_zpow_pos (e : Int) : (0 : ℚ) < 2 ^ e := zpow_pos (by norm_num) e

theorem two_zpow_add (e k : Int) : (2 : ℚ) ^ (e + k) = 2 ^ e * 2 ^ k := zpow_add₀ (by norm_num) e k

theorem two_zpow_le {e k : Int} (h : e ≤ k) : (2 : ℚ) ^ e ≤ 2 ^ k :=
  zpow_le_zpow_right₀ (by norm_num) h

/-- A scaled ratio is the quotient by the power of two. -/
theorem scaled_spec (num : Nat) (hd : 0 < den) (e : Int) : 0 < (scaled num den e).2 ∧
    ((scaled num den e).1 : ℚ) / (scaled num den e).2 = num / den / 2 ^ e := by
  unfold scaled
  split
  · next he =>
    refine ⟨Nat.mul_pos hd (Nat.pow_pos (by decide)), ?_⟩
    obtain ⟨k, rfl⟩ := Int.eq_ofNat_of_zero_le he
    rw [Int.toNat_natCast, zpow_natCast, div_div]
    push_cast [Nat.pow_eq]
    rfl
  · next he =>
    refine ⟨hd, ?_⟩
    obtain ⟨k, hk⟩ := Int.eq_ofNat_of_zero_le (Int.le_of_lt (Int.neg_pos.2 (Int.not_le.1 he)))
    obtain rfl : e = -(k : Int) := by omega
    rw [Int.neg_neg, Int.toNat_natCast, zpow_neg, zpow_natCast, div_inv_eq_mul, div_mul_eq_mul_div]
    push_cast [Nat.pow_eq]
    rfl

/-- Where the exponent of a quotient lies: the mantissa has 53 bits, unless it is the least one. -/
structure Exponent (q : ℚ) (e : Int) : Prop where
  least : leastExponent ≤ e
  upper : q < 2 ^ (e + 53)
  lower : e = leastExponent ∨ 2 ^ (e + 52) ≤ q

theorem log2_bounds (hn : 0 < num) (hd : 0 < den) :
    (2 : ℚ) ^ ((num.log2 : Int) - den.log2 - 1) ≤ num / den ∧
      (num / den : ℚ) < 2 ^ ((num.log2 : Int) - den.log2 + 1) := by
  have hd' : (0 : ℚ) < den := Nat.cast_pos.2 hd
  have low : ∀ {n : Nat}, 0 < n → (2 : ℚ) ^ (n.log2 : Int) ≤ n := fun h => by
    exact_mod_cast Nat.log2_self_le h.ne'
  have high : ∀ {n : Nat}, (n : ℚ) < 2 ^ ((n.log2 : Int) + 1) := by
    intro n
    exact_mod_cast Nat.lt_log2_self
  have split : ∀ a b c : Int, (2 : ℚ) ^ (a - b + c) * 2 ^ b = 2 ^ (a + c) := by
    intro a b c
    rw [← two_zpow_add]
    congr 1
    omega
  constructor
  · rw [le_div_iff₀ hd']
    calc (2 : ℚ) ^ ((num.log2 : Int) - den.log2 - 1) * den
        ≤ 2 ^ ((num.log2 : Int) - den.log2 - 1) * 2 ^ ((den.log2 : Int) + 1) :=
          mul_le_mul_of_nonneg_left high.le (two_zpow_pos _).le
      _ = 2 ^ (num.log2 : Int) := by rw [← two_zpow_add]; congr 1; omega
      _ ≤ num := low hn
  · rw [div_lt_iff₀ hd']
    calc (num : ℚ) < 2 ^ ((num.log2 : Int) + 1) := high
      _ = 2 ^ ((num.log2 : Int) - den.log2 + 1) * 2 ^ (den.log2 : Int) := (split _ _ _).symm
      _ ≤ 2 ^ ((num.log2 : Int) - den.log2 + 1) * den :=
          mul_le_mul_of_nonneg_left (low hd) (two_zpow_pos _).le

theorem exponent_exponentOf (hn : 0 < num) (hd : 0 < den) :
    Exponent (num / den) (exponentOf num den) := by
  obtain ⟨hlow, hhigh⟩ := log2_bounds hn hd
  let e₀ : Int := (num.log2 : Int) - den.log2 - 52
  obtain ⟨hpos, hscaled⟩ := scaled_spec num hd e₀
  -- whether the quotient has 53 bits at the exponent that is tried first
  have hbits : (scaled num den e₀).1 / (scaled num den e₀).2 < Nat.pow 2 52 ↔
      (num / den : ℚ) < 2 ^ (e₀ + 52) := by
    rw [two_zpow_add, mul_comm ((2 : ℚ) ^ e₀), ← div_lt_iff₀ (two_zpow_pos e₀), ← hscaled,
      div_lt_iff₀ (Nat.cast_pos.2 hpos), Nat.div_lt_iff_lt_mul hpos, ← Nat.cast_lt (α := ℚ)]
    push_cast [Nat.pow_eq]
    rfl
  have hof : exponentOf num den =
      max leastExponent (if (num / den : ℚ) < 2 ^ (e₀ + 52) then e₀ - 1 else e₀) := by
    unfold exponentOf
    simp only [← hbits]
    rfl
  have hfirst : ∃ e₁ : Int, exponentOf num den = max leastExponent e₁ ∧
      (2 : ℚ) ^ (e₁ + 52) ≤ num / den ∧ (num / den : ℚ) < 2 ^ (e₁ + 53) := by
    rw [hof]
    split
    · next hlt =>
      refine ⟨_, rfl, ?_, ?_⟩
      · have heq : e₀ - 1 + 52 = (num.log2 : Int) - den.log2 - 1 := by omega
        rw [heq]
        exact hlow
      · have heq : e₀ - 1 + 53 = e₀ + 52 := by omega
        rw [heq]
        exact hlt
    · next hge =>
      refine ⟨_, rfl, not_lt.1 hge, ?_⟩
      have heq : e₀ + 53 = (num.log2 : Int) - den.log2 + 1 := by omega
      rw [heq]
      exact hhigh
  obtain ⟨e₁, heq, hlower, hupper⟩ := hfirst
  rw [heq]
  refine ⟨le_max_left _ _, hupper.trans_le (two_zpow_le ?_), ?_⟩
  · have := le_max_right leastExponent e₁
    omega
  · rcases le_total e₁ leastExponent with h | h
    · exact .inl (max_eq_left h)
    · rw [max_eq_right h]
      exact .inr hlower

/-! ## One rounding -/

theorem underflow_pos : 0 < underflow := two_zpow_pos _

theorem roundoff_pos : 0 < roundoff := two_zpow_pos _

/-- The mantissa before it is carried, with the exponent. -/
def roundedAt (num den : Nat) : Nat × Int :=
  let e := exponentOf num den
  (roundQuotient (scaled num den e).1 (scaled num den e).2, e)

theorem round?_eq (hn : 0 < num) : round? num den =
    let (m, e) := if (roundedAt num den).1 = 2 ^ 53 then (2 ^ 52, (roundedAt num den).2 + 1)
      else roundedAt num den
    if 971 < e then none else some (m, e) := by
  rw [round?, if_neg hn.ne']
  rfl

/-- What is rounded before it is carried: one half of a unit away, and of 53 bits or the next. -/
structure Rounded (q : ℚ) (m : Nat) (e : Int) : Prop where
  exponent : Exponent q e
  half : |(m : ℚ) * 2 ^ e - q| ≤ 2 ^ e / 2
  bits : m ≤ 2 ^ 53

theorem rounded_roundedAt (hn : 0 < num) (hd : 0 < den) :
    Rounded (num / den) (roundedAt num den).1 (roundedAt num den).2 := by
  have hexp := exponent_exponentOf hn hd
  obtain ⟨hpos, hscaled⟩ := scaled_spec num hd (exponentOf num den)
  have hround := abs_roundQuotient_sub_le (a := (scaled num den (exponentOf num den)).1) hpos
  have hunit := two_zpow_pos (exponentOf num den)
  rw [hscaled] at hround
  refine ⟨hexp, ?_, ?_⟩
  · have hscale := mul_le_mul_of_nonneg_right hround hunit.le
    rw [← abs_of_pos hunit, ← abs_mul, sub_mul, abs_of_pos hunit, div_mul_cancel₀ _ hunit.ne'] at hscale
    refine hscale.trans_eq ?_
    show 1 / 2 * (2 : ℚ) ^ exponentOf num den = 2 ^ exponentOf num den / 2
    ring
  · have hupper : (num / den : ℚ) / 2 ^ exponentOf num den < 2 ^ 53 := by
      rw [div_lt_iff₀ hunit, ← zpow_natCast, ← two_zpow_add, add_comm]
      exact hexp.upper
    have hle := (abs_le.1 hround).2
    have hlt : ((roundedAt num den).1 : ℚ) < 2 ^ 53 + 1 := by
      show (roundQuotient _ _ : ℚ) < _
      linarith
    exact Nat.lt_succ_iff.1 (by exact_mod_cast hlt)

variable {q : ℚ} {m : Nat}

/-- Half a unit is a part of the quotient, or half of the least double. -/
theorem Rounded.close (h : Rounded q m e) (hq : 0 ≤ q) :
    Close roundoff underflow (m * 2 ^ e) q := by
  have hunit : (2 : ℚ) ^ e / 2 ≤ roundoff * q + underflow := by
    rcases h.exponent.lower with hleast | hlower
    · have heq : (2 : ℚ) ^ e / 2 = underflow := by
        rw [hleast, underflow, leastExponent, div_eq_mul_inv, ← zpow_neg_one, ← two_zpow_add]
        rfl
      have hnonneg := mul_nonneg roundoff_pos.le hq
      linarith
    · have heq : (2 : ℚ) ^ e / 2 = roundoff * 2 ^ (e + 52) := by
        rw [roundoff, ← two_zpow_add, div_eq_mul_inv, ← zpow_neg_one, ← two_zpow_add]
        congr 1
        omega
      have hmul := mul_le_mul_of_nonneg_left hlower roundoff_pos.le
      have hpos := underflow_pos
      linarith
  exact h.half.trans hunit

/-- What is rounded is half a unit away at most. -/
theorem close_of_round? (hd : 0 < den) (h : round? num den = some (m, e)) :
    m < 2 ^ 53 ∧ leastExponent ≤ e ∧ e ≤ 971 ∧
      Close roundoff underflow (m * 2 ^ e) (num / den) := by
  rcases Nat.eq_zero_or_pos num with rfl | hn
  · cases h
    refine ⟨by decide, le_refl _, by decide, ?_⟩
    simp only [Close, Nat.cast_zero, zero_mul, zero_div, mul_zero, sub_zero, abs_zero, zero_add]
    exact underflow_pos.le
  · have hq : (0 : ℚ) ≤ num / den := by positivity
    have hrounded := rounded_roundedAt hn hd
    rw [round?_eq hn] at h
    split at h
    next m' e' hcarried =>
      split at h
      · cases h
      · next hle =>
        cases h
        split at hcarried
        · next hcarry =>
          -- the mantissa was carried: half of it at the next exponent is as much
          obtain ⟨rfl, rfl⟩ := Prod.mk.inj hcarried
          have hsame : ((2 ^ 52 : Nat) : ℚ) * 2 ^ ((roundedAt num den).2 + 1) =
              (roundedAt num den).1 * 2 ^ (roundedAt num den).2 := by
            rw [hcarry, two_zpow_add]
            push_cast
            ring
          refine ⟨by decide, (hrounded.exponent.least).trans (Int.le_add_one (le_refl _)),
            Int.not_lt.1 hle, ?_⟩
          rw [hsame]
          exact hrounded.close hq
        · next hcarry =>
          rw [hcarried] at hrounded hcarry
          exact ⟨Nat.lt_of_le_of_ne hrounded.bits hcarry, hrounded.exponent.least,
            Int.not_lt.1 hle, hrounded.close hq⟩

/-- Nothing up to the greatest double is too great. -/
theorem round?_isSome (hd : 0 < den) (h : (num / den : ℚ) ≤ maxSize) :
    (round? num den).isSome = true := by
  rcases Nat.eq_zero_or_pos num with rfl | hn
  · rfl
  · obtain ⟨hexp, hhalf, -⟩ := rounded_roundedAt hn hd
    have hlast := two_zpow_pos 971
    rw [maxSize] at h
    have hexponent : (roundedAt num den).2 ≤ 971 := by
      by_contra hlt
      rcases hexp.lower with hleast | hlower
      · rw [hleast, leastExponent] at hlt
        omega
      · have hle : (2 : ℚ) ^ (1024 : ℤ) ≤ 2 ^ ((roundedAt num den).2 + 52) :=
          two_zpow_le (by omega)
        exact absurd ((hle.trans hlower).trans h) (not_le.2 (sub_lt_self _ hlast))
    rw [round?_eq hn]
    split
    next m' e' hcarried =>
      split at hcarried
      · next hcarry =>
        obtain ⟨rfl, rfl⟩ := Prod.mk.inj hcarried
        have hnext : ¬ 971 < (roundedAt num den).2 + 1 := by
          intro hlt
          have heq : (roundedAt num den).2 = 971 := by omega
          have hle := (abs_le.1 hhalf).2
          have htop : ((2 ^ 53 : Nat) : ℚ) * 2 ^ (971 : ℤ) = 2 ^ (1024 : ℤ) := by
            rw [Nat.cast_pow, Nat.cast_ofNat, ← zpow_natCast, ← two_zpow_add]
            rfl
          rw [hcarry, heq, htop] at hle
          -- the powers are too great to be worked out
          generalize (2 : ℚ) ^ (1024 : ℤ) = top at h hle
          generalize (2 : ℚ) ^ (971 : ℤ) = unit at h hle hlast
          linarith
        rw [if_neg hnext]
        rfl
      · rw [hcarried] at hexponent
        rw [if_neg (Int.not_lt.2 hexponent)]
        rfl

/-! ## Arithmetic -/

/-- The double is one, and as close to the quotient as a rounding leaves it. -/
structure Nearest (q : ℚ) (d : Double) : Prop where
  proper : d.Proper
  close : Close roundoff underflow d.size q

theorem nearest_of_ofRatio? {s : Bool} (hd : 0 < den) (h : ofRatio? s num den = some d) :
    Nearest (num / den) d := by
  obtain ⟨⟨m, e⟩, hround, rfl⟩ := Option.map_eq_some_iff.1 h
  obtain ⟨hm, hleast, hgreatest, hclose⟩ := close_of_round? hd hround
  exact ⟨⟨hm, hleast, hgreatest⟩, hclose⟩

theorem ofRatio?_isSome (s : Bool) (hd : 0 < den) (h : (num / den : ℚ) ≤ maxSize) :
    (ofRatio? s num den).isSome = true := by
  rw [ofRatio?, Option.isSome_map]
  exact round?_isSome hd h

theorem size_nonneg (d : Double) : 0 ≤ d.size :=
  mul_nonneg (Nat.cast_nonneg _) (two_zpow_pos _).le

theorem ratio_spec (d : Double) : 0 < d.ratio.2 ∧ (d.ratio.1 : ℚ) / d.ratio.2 = d.size := by
  unfold ratio size
  split
  · next he =>
    obtain ⟨k, hk⟩ := Int.eq_ofNat_of_zero_le he
    rw [hk, Int.toNat_natCast, zpow_natCast]
    refine ⟨Nat.one_pos, ?_⟩
    push_cast [Nat.pow_eq]
    exact div_one _
  · next he =>
    obtain ⟨k, hk⟩ := Int.eq_ofNat_of_zero_le (Int.le_of_lt (Int.neg_pos.2 (Int.not_le.1 he)))
    have he : d.exponent = -(k : Int) := by omega
    rw [he, Int.neg_neg, Int.toNat_natCast, zpow_neg, zpow_natCast]
    refine ⟨Nat.pow_pos (by decide), ?_⟩
    push_cast [Nat.pow_eq]
    exact div_eq_mul_inv _ _

theorem Proper.size_le (h : d.Proper) : d.size ≤ maxSize := by
  have hmantissa : (d.mantissa : ℚ) ≤ 2 ^ (53 : ℤ) - 1 := by
    have hlt := h.mantissa
    have hle : d.mantissa + 1 ≤ 2 ^ 53 := hlt
    have hcast : (d.mantissa + 1 : ℚ) ≤ 2 ^ (53 : ℤ) := by exact_mod_cast hle
    linarith
  calc d.size ≤ (2 ^ (53 : ℤ) - 1) * 2 ^ (971 : ℤ) :=
        mul_le_mul hmantissa (two_zpow_le h.greatest) (two_zpow_pos _).le
          ((Nat.cast_nonneg _).trans hmantissa)
    _ = maxSize := by
        rw [sub_mul, one_mul, ← two_zpow_add]
        rfl

theorem isZero_iff : d.isZero = true ↔ d.size = 0 := by
  rw [isZero, beq_iff_eq, size, mul_eq_zero, Nat.cast_eq_zero]
  exact ⟨.inl, fun h => h.resolve_right (two_zpow_pos _).ne'⟩

/-- An integer as a double. -/
theorem nearest_of_ofNat? {n : Nat} (h : ofNat? n = some d) : Nearest n d := by
  have hnear := nearest_of_ofRatio? (by decide) h
  rwa [Nat.cast_one, div_one] at hnear

theorem ofNat?_isSome {n : Nat} (h : (n : ℚ) ≤ maxSize) : (ofNat? n).isSome = true := by
  refine ofRatio?_isSome false (by decide) ?_
  rwa [Nat.cast_one, div_one]

theorem mul?_eq (x y : Double) : ∃ num den : Nat, 0 < den ∧ (num / den : ℚ) = x.size * y.size ∧
    x.mul? y = ofRatio? (x.negative != y.negative) num den := by
  obtain ⟨hx, hxs⟩ := x.ratio_spec
  obtain ⟨hy, hys⟩ := y.ratio_spec
  refine ⟨x.ratio.1 * y.ratio.1, x.ratio.2 * y.ratio.2, Nat.mul_pos hx hy, ?_, rfl⟩
  rw [Nat.cast_mul, Nat.cast_mul, mul_div_mul_comm, hxs, hys]

theorem div?_eq (x : Double) (hy : 0 < y.size) : ∃ num den : Nat, 0 < den ∧
    (num / den : ℚ) = x.size / y.size ∧
      x.div? y = ofRatio? (x.negative != y.negative) num den := by
  obtain ⟨hx, hxs⟩ := x.ratio_spec
  obtain ⟨hden, hys⟩ := y.ratio_spec
  have hnum : 0 < y.ratio.1 := by
    refine Nat.pos_of_ne_zero fun hzero => hy.ne' ?_
    rw [← hys, hzero, Nat.cast_zero, zero_div]
  refine ⟨x.ratio.1 * y.ratio.2, x.ratio.2 * y.ratio.1, Nat.mul_pos hx hnum, ?_, rfl⟩
  rw [Nat.cast_mul, Nat.cast_mul, mul_div_mul_comm, hxs, ← hys, div_div_eq_mul_div, mul_div_assoc]

/-- **A product is rounded once**, and there is one up to the greatest double. -/
theorem nearest_of_mul? (h : x.mul? y = some d) : Nearest (x.size * y.size) d := by
  obtain ⟨num, den, hden, heq, hmul⟩ := mul?_eq x y
  rw [← heq]
  exact nearest_of_ofRatio? hden (hmul ▸ h)

theorem mul?_isSome (h : x.size * y.size ≤ maxSize) : (x.mul? y).isSome = true := by
  obtain ⟨num, den, hden, heq, hmul⟩ := mul?_eq x y
  rw [hmul]
  exact ofRatio?_isSome _ hden (heq ▸ h)

/-- **A quotient is rounded once**, and there is one up to the greatest double. -/
theorem nearest_of_div? (hy : 0 < y.size) (h : x.div? y = some d) :
    Nearest (x.size / y.size) d := by
  obtain ⟨num, den, hden, heq, hdiv⟩ := div?_eq x hy
  rw [← heq]
  exact nearest_of_ofRatio? hden (hdiv ▸ h)

theorem div?_isSome (hy : 0 < y.size) (h : x.size / y.size ≤ maxSize) :
    (x.div? y).isSome = true := by
  obtain ⟨num, den, hden, heq, hdiv⟩ := div?_eq x hy
  rw [hdiv]
  exact ofRatio?_isSome _ hden (heq ▸ h)

/-! ## Errors that add up -/

section Errors

variable {ε δ ε' δ' x y p q r : ℚ}

theorem Close.mono (h : Close ε δ x q) (hε : ε ≤ ε') (hδ : δ ≤ δ') (hq : 0 ≤ q) :
    Close ε' δ' x q :=
  h.trans (add_le_add (mul_le_mul_of_nonneg_right hε hq) hδ)

theorem Close.trans (h : Close ε δ x y) (h' : Close ε' δ' y q) (hε : 0 ≤ ε) :
    Close (ε + ε' + ε * ε') (δ + δ' + ε * δ') x q := by
  have hy : y ≤ q + (ε' * q + δ') := by linarith [(abs_le.1 h').2]
  calc |x - q| ≤ |x - y| + |y - q| := abs_sub_le x y q
    _ ≤ (ε * y + δ) + (ε' * q + δ') := add_le_add h h'
    _ ≤ (ε * (q + (ε' * q + δ')) + δ) + (ε' * q + δ') := by gcongr
    _ = (ε + ε' + ε * ε') * q + (δ + δ' + ε * δ') := by ring

theorem Close.mul (h : Close ε 0 x q) (h' : Close ε' 0 p r) (hq : 0 ≤ q) (hp : 0 ≤ p)
    (hε : 0 ≤ ε) : Close (ε + ε' + ε * ε') 0 (x * p) (q * r) := by
  have hle : p ≤ r + ε' * r := by linarith [(abs_le.1 h').2]
  have hx : |x - q| ≤ ε * q := h.trans_eq (add_zero _)
  have hr : |p - r| ≤ ε' * r := h'.trans_eq (add_zero _)
  calc |x * p - q * r| = |(x - q) * p + q * (p - r)| := by ring_nf
    _ ≤ |x - q| * p + q * |p - r| := by
        refine (abs_add_le _ _).trans_eq ?_
        rw [abs_mul, abs_mul, abs_of_nonneg hp, abs_of_nonneg hq]
    _ ≤ ε * q * (r + ε' * r) + q * (ε' * r) := by gcongr
    _ = (ε + ε' + ε * ε') * (q * r) + 0 := by ring

/-- What is divided by about `r` loses no more than what it lacked and `r` lacks. -/
theorem Close.div (h : Close ε δ x q) (h' : Close ε' 0 p r) (hq : 0 ≤ q) (hr : 1 ≤ r)
    (hε : 0 ≤ ε + ε') (hδ : 0 ≤ δ) (hε' : ε' ≤ 1 / 10) :
    0 < p ∧ Close (9 / 8 * (ε + ε')) (9 / 8 * δ) (x / p) (q / r) := by
  have hr0 : 0 < r := one_pos.trans_le hr
  have hdist : |p - r| ≤ ε' * r := h'.trans_eq (add_zero _)
  have hp : 8 / 9 * r ≤ p := by
    have hlow := (abs_le.1 hdist).1
    have hpart : ε' * r ≤ 1 / 10 * r := mul_le_mul_of_nonneg_right hε' hr0.le
    linarith
  have hp0 : 0 < p := (mul_pos (by norm_num) hr0).trans_le hp
  refine ⟨hp0, ?_⟩
  have hsplit : x / p - q / r = ((x - q) + q * (r - p) / r) / p := by
    field_simp
    ring
  have hpart : q * (ε' * r) / r = ε' * q := by field_simp
  have herror : |x / p - q / r| ≤ ((ε + ε') * q + δ) / p := by
    rw [hsplit, abs_div, abs_of_pos hp0]
    refine div_le_div_of_nonneg_right ?_ hp0.le
    calc |(x - q) + q * (r - p) / r| ≤ |x - q| + q * |p - r| / r := by
          refine (abs_add_le _ _).trans_eq ?_
          rw [abs_div, abs_mul, abs_of_nonneg hq, abs_of_pos hr0, abs_sub_comm r p]
      _ ≤ (ε * q + δ) + q * (ε' * r) / r := by gcongr; exact h
      _ = (ε + ε') * q + δ := by rw [hpart]; ring
  have hnum : 0 ≤ (ε + ε') * q + δ := by positivity
  have hinv : ((ε + ε') * q + δ) / p ≤ ((ε + ε') * q + δ) / (8 / 9 * r) :=
    div_le_div_of_nonneg_left hnum (mul_pos (by norm_num) hr0) hp
  have hδr : δ / r ≤ δ := div_le_self hδ hr
  calc |x / p - q / r| ≤ ((ε + ε') * q + δ) / (8 / 9 * r) := herror.trans hinv
    _ = 9 / 8 * (ε + ε') * (q / r) + 9 / 8 * (δ / r) := by field_simp
    _ ≤ 9 / 8 * (ε + ε') * (q / r) + 9 / 8 * δ := by gcongr

end Errors

end Switchboard.Double
