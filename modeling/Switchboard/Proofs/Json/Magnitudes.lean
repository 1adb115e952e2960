import Switchboard.Proofs.Json.Numerals
import Switchboard.Proofs.Json.Scaling

/-!
# What numerals are read as

A numeral amounts to a number, told from its digits alone (`Amounts`).  It is read as itself if it is
an integer of 64 bits, and else as a double of its sign that is about what it amounts to (`Stands`).
It is read as long as it stays within the doubles (`Moderate`) and not at all beyond them (`Beyond`);
at the border it may be either.

    scanNumber t = ok (n, []) → Stands t n
    Moderate t → ∃ n, scanNumber t = ok (n, [])
    Beyond t → scanNumber t ≠ ok _
-/

namespace Switchboard.Json

open Double

/-! ## Specification -/

/-- A fraction and its digits. -/
inductive FractionOf : Bytes → Bytes → Prop
  | absent : FractionOf [] []
  | point {ds : Bytes} (hd : Digits ds) : FractionOf (46 :: ds) ds

/-- An exponent and the power that it stands for. -/
inductive ExponentOf : Bytes → Int → Prop
  | absent : ExponentOf [] 0
  | bare {e : UInt8} {ds : Bytes} (he : e = 101 ∨ e = 69) (hd : Digits ds) :
      ExponentOf (e :: ds) (valueOf ds)
  | plus {e : UInt8} {ds : Bytes} (he : e = 101 ∨ e = 69) (hd : Digits ds) :
      ExponentOf (e :: 43 :: ds) (valueOf ds)
  | minus {e : UInt8} {ds : Bytes} (he : e = 101 ∨ e = 69) (hd : Digits ds) :
      ExponentOf (e :: 45 :: ds) (-valueOf ds)

/-- The parts of a numeral: its sign, the digits of both sides of the point as one integer, how many
of them are behind the point, and the power of ten. -/
inductive Parts : Bytes → Bool → Nat → Nat → Int → Prop
  | mk (negative : Bool) {ds f fs e : Bytes} {k : Int} (hd : Whole ds) (hf : FractionOf f fs)
      (he : ExponentOf e k) :
      Parts (sign negative ++ (ds ++ (f ++ e))) negative (valueOf (ds ++ fs)) fs.length k

/-- The size of what a numeral amounts to, with its sign.  A power that has more than 31 bits counts
as an infinite one. -/
inductive Amounts (t : Bytes) (negative : Bool) : ℚ → Prop
  | finite {n places : Nat} {k : Int} (h : Parts t negative n places k) (hk : k.natAbs < 2 ^ 31) :
      Amounts t negative (n * 10 ^ (k - places))
  | zero {n places : Nat} {k : Int} (h : Parts t negative n places k) (hk : 2 ^ 31 ≤ k.natAbs)
      (hz : n = 0 ∨ k < 0) : Amounts t negative 0

/-- How far a double may be from what its numeral amounts to, as a part of it. -/
def slack : ℚ := 2 ^ (-48 : ℤ)

/-- How far it may be away besides: twice the least double. -/
def residue : ℚ := 2 ^ (-1073 : ℤ)

/-- Integers of 64 bits, with a sign or without. -/
def FitsWord (m : Int) : Prop := -(Bounds.half64 : Int) ≤ m ∧ m < Bounds.word64

/-- What a numeral stands for. -/
inductive Stands (t : Bytes) : Number → Prop
  | integer {m : Int} (h : Denotes t m) (hm : FitsWord m) : Stands t (.integer m)
  | double {d : Double} {q : ℚ} (hno : ∀ m, Denotes t m → ¬ FitsWord m)
      (h : Amounts t d.negative q) (hd : d.Proper) (hq : Close slack residue d.size q) :
      Stands t (.double d)

/-- Within the doubles. -/
def Moderate (t : Bytes) : Prop :=
  ∃ negative q, Amounts t negative q ∧ q ≤ (1 - slack) * 2 ^ (1024 : ℤ)

/-- Beyond the doubles. -/
inductive Beyond (t : Bytes) : Prop
  | finite {negative : Bool} {q : ℚ} (h : Amounts t negative q)
      (hq : 2 ^ (1024 : ℤ) ≤ (1 - slack) * q) : Beyond t
  | infinite {negative : Bool} {n places : Nat} {k : Int} (h : Parts t negative n places k)
      (hk : 2 ^ 31 ≤ k) (hn : n ≠ 0) : Beyond t

/-! ## Digits -/

variable {t s ds fs f e : Bytes} {negative : Bool} {n places bound : Nat} {k start : Int} {m : Number}
  {x q : ℚ}

theorem foldl_appendDigit (n : Nat) (ds : Bytes) :
    ds.foldl appendDigit n = n * 10 ^ ds.length + valueOf ds := by
  induction ds generalizing n with
  | nil => simp [valueOf]
  | cons d ds ih =>
    rw [valueOf, List.foldl_cons, List.foldl_cons, ih, ih (appendDigit 0 d), List.length_cons,
      appendDigit, appendDigit, Nat.pow_succ]
    ring

theorem valueOf_append (ds fs : Bytes) :
    valueOf (ds ++ fs) = valueOf ds * 10 ^ fs.length + valueOf fs := by
  rw [valueOf, List.foldl_append]
  exact foldl_appendDigit _ fs

theorem valueOf_lt (hd : ∀ d ∈ ds, isDigit d = true) : valueOf ds < 10 ^ ds.length := by
  induction ds with
  | nil => exact Nat.one_pos
  | cons d ds ih =>
    have hdigit := isDigit_iff.1 (hd d List.mem_cons_self)
    have hrest := ih fun c hc => hd c (List.mem_cons_of_mem d hc)
    have hvalue : digitValue d ≤ 9 := by
      rw [digitValue]
      omega
    have hfirst : valueOf [d] = digitValue d := by simp [valueOf, appendDigit]
    rw [← List.singleton_append, valueOf_append, hfirst, List.length_append, Nat.pow_add]
    show _ < 10 * 10 ^ ds.length
    nlinarith

/-- Digits are taken in as long as they fit. -/
theorem absorb_split (hn : n < bound) (ds : Bytes) :
    ∃ taken, ds = taken ++ (absorb bound n ds).2 ∧
      (absorb bound n ds).1 = taken.foldl appendDigit n ∧ (absorb bound n ds).1 < bound ∧
      ((absorb bound n ds).2 ≠ [] → ∃ d ∈ (absorb bound n ds).2,
        bound ≤ (absorb bound n ds).1 * 10 + digitValue d) := by
  induction ds generalizing n with
  | nil => exact ⟨[], rfl, rfl, hn, fun h => absurd rfl h⟩
  | cons d ds ih =>
    by_cases hd : n * 10 + digitValue d < bound
    · rw [absorb, if_pos hd]
      obtain ⟨taken, hsplit, hvalue, hlt, hfull⟩ := ih hd
      refine ⟨d :: taken, ?_, hvalue, hlt, hfull⟩
      rw [List.cons_append, ← hsplit]
    · rw [absorb, if_neg hd]
      exact ⟨[], rfl, rfl, hn, fun _ => ⟨d, List.mem_cons_self, Nat.not_lt.1 hd⟩⟩

/-- What is taken in of digits is great if any are left over. -/
theorem absorb_word64 (hn : n < Bounds.word64) (hd : ∀ d ∈ ds, isDigit d = true)
    (hleft : (absorb Bounds.word64 n ds).2 ≠ []) : 2 ^ 60 ≤ (absorb Bounds.word64 n ds).1 := by
  obtain ⟨taken, hsplit, -, -, hfull⟩ := absorb_split hn ds
  obtain ⟨d, hmem, hle⟩ := hfull hleft
  have hdigit := isDigit_iff.1 (hd d (hsplit ▸ List.mem_append_right taken hmem))
  have hvalue : digitValue d ≤ 9 := by
    rw [digitValue]
    omega
  have hword : Bounds.word64 = 2 ^ 64 := rfl
  omega

/-! ## What is kept of the digits -/

/-- Both of the numbers are inside one unit, of which there are many. -/
theorem close_of_within {c u : ℚ} (hc : 2 ^ 60 ≤ c) (hu : 0 < u)
    (hx : c * u ≤ x ∧ x ≤ (c + 1) * u) (hq : c * u ≤ q ∧ q ≤ (c + 1) * u) :
    Close (1 / 2 ^ 60) 0 x q := by
  have hdist : |x - q| ≤ u := by
    rw [abs_le]
    constructor <;> linarith [hx.1, hx.2, hq.1, hq.2]
  have hunit : u ≤ 1 / 2 ^ 60 * q := by
    have hscale := mul_le_mul_of_nonneg_right hc hu.le
    linarith [hq.1]
  exact (hdist.trans hunit).trans_eq (add_zero _).symm

/-- The integer and the power that are kept of a numeral are about what its digits say. -/
structure Keeps (n : Nat) (places : Nat) (m : Nat) (start : Int) : Prop where
  bound : m < Bounds.word64
  zero : m = 0 ↔ n = 0
  close : Close (1 / 2 ^ 60) 0 (m * 10 ^ start) (n * 10 ^ (-(places : Int)))

/-- Digits behind others are less than one unit of these. -/
theorem tail_bounds (hd : ∀ d ∈ ds, isDigit d = true) (u : Int) :
    (0 : ℚ) ≤ valueOf ds * 10 ^ (u - ds.length) ∧
      (valueOf ds * 10 ^ (u - ds.length) : ℚ) ≤ 10 ^ u := by
  have hpos : (0 : ℚ) < 10 ^ (u - ds.length) := zpow_pos (by norm_num) _
  have hlt : (valueOf ds : ℚ) ≤ 10 ^ (ds.length : Int) := by
    rw [zpow_natCast]
    exact_mod_cast (valueOf_lt hd).le
  refine ⟨mul_nonneg (Nat.cast_nonneg _) hpos.le, ?_⟩
  calc (valueOf ds * 10 ^ (u - ds.length) : ℚ)
      ≤ 10 ^ (ds.length : Int) * 10 ^ (u - ds.length) := by gcongr
    _ = 10 ^ u := by rw [← zpow_add₀ (by norm_num)]; congr 1; omega

/-- The digits in front as so many units, and the ones behind them. -/
theorem value_split (ds fs : Bytes) (u : Int) : (valueOf (ds ++ fs) * 10 ^ (u - fs.length) : ℚ) =
    valueOf ds * 10 ^ u + valueOf fs * 10 ^ (u - fs.length) := by
  have hunit : (10 : ℚ) ^ u = 10 ^ fs.length * 10 ^ (u - fs.length) := by
    rw [← zpow_natCast, ← zpow_add₀ (by norm_num)]
    congr 1
    omega
  rw [valueOf_append, hunit]
  push_cast
  ring

/-- Whatever stands behind many units, it makes no great difference. -/
theorem close_of_tails (hgreat : 2 ^ 60 ≤ valueOf ds) (hf : ∀ d ∈ fs, isDigit d = true)
    (he : ∀ d ∈ e, isDigit d = true) (u : Int) :
    Close (1 / 2 ^ 60) 0 (valueOf (ds ++ fs) * 10 ^ (u - fs.length))
      (valueOf (ds ++ e) * 10 ^ (u - e.length)) := by
  have hmany : (2 : ℚ) ^ 60 ≤ valueOf ds := by exact_mod_cast hgreat
  have hunit : (0 : ℚ) < 10 ^ u := zpow_pos (by norm_num) u
  rw [value_split, value_split]
  refine close_of_within hmany hunit ?_ ?_
  · obtain ⟨hlow, hhigh⟩ := tail_bounds hf u
    constructor <;> linarith
  · obtain ⟨hlow, hhigh⟩ := tail_bounds he u
    constructor <;> linarith

theorem le_valueOf_append (ds fs : Bytes) : valueOf ds ≤ valueOf (ds ++ fs) := by
  rw [valueOf_append]
  exact (Nat.le_mul_of_pos_right _ (Nat.pow_pos (by decide))).trans (Nat.le_add_right _ _)

/-- Digits may be left out behind many units, of both sides of the point. -/
theorem keeps_of_split {ds₁ ds₂ fs₁ fs₂ : Bytes} (hds : ∀ d ∈ ds₁ ++ ds₂, isDigit d = true)
    (hfs : ∀ d ∈ fs₁ ++ fs₂, isDigit d = true) (hbound : valueOf (ds₁ ++ fs₁) < Bounds.word64)
    (hgreat : ds₂ ≠ [] → 2 ^ 60 ≤ valueOf ds₁)
    (hgreat' : fs₂ ≠ [] → 2 ^ 60 ≤ valueOf (ds₁ ++ fs₁)) :
    Keeps (valueOf (ds₁ ++ ds₂ ++ (fs₁ ++ fs₂))) (fs₁ ++ fs₂).length (valueOf (ds₁ ++ fs₁))
      (ds₂.length - fs₁.length) := by
  have hfs₁ : ∀ d ∈ fs₁, isDigit d = true := fun d hd => hfs d (List.mem_append_left _ hd)
  have positive : ∀ {c b}, 2 ^ 60 ≤ valueOf c → c <+: b → valueOf b ≠ 0 := by
    rintro c _ hc ⟨x, rfl⟩
    have hle := le_valueOf_append c x
    omega
  rcases eq_or_ne ds₂ [] with rfl | hds₂
  · rcases eq_or_ne fs₂ [] with rfl | hfs₂
    · refine ⟨hbound, by simp, ?_⟩
      simp [Close]
    · have hmany := hgreat' hfs₂
      have hfs₂ : ∀ d ∈ fs₂, isDigit d = true := fun d hd => hfs d (List.mem_append_right _ hd)
      have hnone : ∀ d ∈ ([] : Bytes), isDigit d = true := fun _ hd => by cases hd
      have hclose := close_of_tails hmany hnone hfs₂ (-fs₁.length)
      refine ⟨hbound, iff_of_false (positive hmany ⟨[], List.append_nil _⟩)
        (positive hmany ⟨fs₂, by simp⟩), ?_⟩
      simpa [sub_eq_add_neg, add_comm] using hclose
  · have hmany := hgreat hds₂
    have hrest : ∀ d ∈ ds₂ ++ (fs₁ ++ fs₂), isDigit d = true := fun d hd =>
      (List.mem_append.1 hd).elim (fun hd => hds d (List.mem_append_right _ hd)) (hfs d)
    have hclose := close_of_tails hmany hfs₁ hrest ds₂.length
    refine ⟨hbound, iff_of_false (positive hmany ⟨fs₁, rfl⟩)
      (positive hmany ⟨ds₂ ++ (fs₁ ++ fs₂), by simp⟩), ?_⟩
    have hplaces : (ds₂.length : Int) - (ds₂ ++ (fs₁ ++ fs₂)).length = -(fs₁ ++ fs₂).length := by
      rw [List.length_append]
      omega
    rw [hplaces, ← List.append_assoc] at hclose
    exact hclose

/-- **Few digits are lost**, and none if all fit. -/
theorem keeps_digits (hd : ∀ d ∈ ds, isDigit d = true) (hf : ∀ d ∈ fs, isDigit d = true) :
    Keeps (valueOf (ds ++ fs)) fs.length
      (fractionDigits (absorb Bounds.word64 0 ds).1 (absorb Bounds.word64 0 ds).2.length fs).1
      (fractionDigits (absorb Bounds.word64 0 ds).1 (absorb Bounds.word64 0 ds).2.length fs).2 := by
  obtain ⟨ds₁, hds, hn, hlt, -⟩ := absorb_split (by decide : 0 < Bounds.word64) ds
  obtain ⟨fs₁, hfs, hm, hbound, -⟩ := absorb_split hlt fs
  have hgreat := absorb_word64 (by decide : 0 < Bounds.word64) hd
  have hgreat' := absorb_word64 hlt hf
  simp only [fractionDigits]
  generalize (absorb Bounds.word64 0 ds).1 = n at *
  generalize (absorb Bounds.word64 0 ds).2 = ds₂ at *
  generalize (absorb Bounds.word64 n fs).1 = m at *
  generalize (absorb Bounds.word64 n fs).2 = fs₂ at *
  obtain rfl : m = valueOf (ds₁ ++ fs₁) := by
    rw [hm, hn]
    exact List.foldl_append.symm
  subst hds hfs hn
  have hstart : (ds₂.length : Int) - ((fs₁ ++ fs₂).length - fs₂.length : Nat) =
      ds₂.length - fs₁.length := by
    rw [List.length_append, Nat.add_sub_cancel]
  rw [hstart]
  exact keeps_of_split hd hf hbound hgreat hgreat'

/-! ## What comes of them -/

theorem FractionOf.fraction (h : FractionOf f fs) : Fraction f := by
  cases h with
  | absent => exact .absent
  | point hd => exact .point hd

theorem FractionOf.digits (h : FractionOf f fs) : ∀ d ∈ fs, isDigit d = true := by
  cases h with
  | absent => exact fun _ hd => by cases hd
  | point hd => exact hd.2

theorem ExponentOf.exponent (h : ExponentOf e k) : Exponent e := by
  cases h with
  | absent => exact .absent
  | bare he hd => exact .bare he hd
  | plus he hd => exact .signed he (.inl rfl) hd
  | minus he hd => exact .signed he (.inr rfl) hd

theorem ExponentOf.eq_zero (h : ExponentOf [] k) : k = 0 := by
  cases h with
  | absent => rfl

/-- Every numeral has its parts. -/
theorem Numeral.parts (h : Numeral t) : ∃ negative n places k, Parts t negative n places k := by
  cases h with
  | @mk negative ds f e hd hf he =>
    have hfraction : ∃ fs, FractionOf f fs := by
      cases hf with
      | absent => exact ⟨_, .absent⟩
      | point hd => exact ⟨_, .point hd⟩
    have hexponent : ∃ k, ExponentOf e k := by
      cases he with
      | absent => exact ⟨_, .absent⟩
      | bare he hd => exact ⟨_, .bare he hd⟩
      | signed he hs hd =>
        rcases hs with rfl | rfl
        · exact ⟨_, .plus he hd⟩
        · exact ⟨_, .minus he hd⟩
    obtain ⟨fs, hfs⟩ := hfraction
    obtain ⟨k, hk⟩ := hexponent
    exact ⟨negative, _, _, k, .mk negative hd hfs hk⟩

theorem Parts.numeral (h : Parts t negative n places k) : Numeral t := by
  cases h with
  | mk negative hd hf he => exact .mk negative hd hf.fraction he.exponent

/-- What is read of the digits of a numeral, scaled by `10 ^ start`, with the power `10 ^ k`. -/
structure Powered (negative : Bool) (n : Nat) (start k : Int) (r : Scan Number) : Prop where
  finite : k.natAbs < 2 ^ 31 → r = doubleOf negative n (start + k) []
  zero : 2 ^ 31 ≤ k.natAbs → n = 0 ∨ k < 0 → r = .ok (.double (.zero negative), [])
  none : 2 ^ 31 ≤ k → n ≠ 0 → ∃ fault, r = .error fault

theorem powered_doubleOf (negative : Bool) (n : Nat) (start : Int) :
    Powered negative n start 0 (doubleOf negative n start []) :=
  ⟨fun _ => by rw [Int.add_zero], fun h => absurd h (by decide), fun h => absurd h (by decide)⟩

/-- The power of ten that digits stand for. -/
def powerOf (down : Bool) (ds : Bytes) : Int := if down then -valueOf ds else valueOf ds

theorem natAbs_powerOf (down : Bool) (ds : Bytes) : (powerOf down ds).natAbs = valueOf ds := by
  cases down <;> simp [powerOf]

/-- The digits of a power, which may be too many. -/
theorem powered_scanPower (down : Bool) (hd : Digits ds) (negative : Bool) (n : Nat) (start : Int) :
    Powered negative n start (powerOf down ds) (scanPower negative n start down (ds ++ [])) := by
  have hspec : if valueOf ds < 2 ^ 31 then absorb exponentBound 0 ds = (valueOf ds, [])
      else (absorb exponentBound 0 ds).2 ≠ [] := absorb_spec (by decide) ds
  have hnone : ∀ c, ([] : Bytes).head? = some c → isDigit c = false := fun _ hc => by cases hc
  rw [scanPower_digits negative n start down hd hnone]
  have habs := natAbs_powerOf down ds
  by_cases hlt : valueOf ds < 2 ^ 31
  · rw [if_pos hlt] at hspec
    rw [hspec]
    refine ⟨fun _ => ?_, fun h => ?_, fun h => ?_⟩
    · cases down <;> rfl
    · omega
    · omega
  · rw [if_neg hlt] at hspec
    rw [if_neg fun h => hspec (List.isEmpty_iff.1 h)]
    refine ⟨fun h => by omega, fun _ hzero => ?_, fun h hn => ?_⟩
    · have hcond : ¬ (decide (n ≠ 0) && !down) = true := by
        rcases hzero with rfl | hneg
        · simp
        · cases down with
          | true => simp
          | false => exact absurd hneg (Int.not_lt.2 (Int.natCast_nonneg _))
      rw [if_neg hcond]
    · have hup : down = false := by
        cases down with
        | false => rfl
        | true =>
          have hnonpos : powerOf true ds ≤ 0 := Int.neg_nonpos_of_nonneg (Int.natCast_nonneg _)
          omega
      rw [hup, if_pos (by simpa using hn)]
      exact ⟨_, rfl⟩

theorem powered_scanExponent {c : UInt8} (he : ExponentOf (c :: e) k) (negative : Bool) (n : Nat)
    (start : Int) : Powered negative n start k (scanExponent negative n start (e ++ [])) := by
  rw [scanExponent_eq]
  cases he with
  | bare _ hd =>
    rw [powerSign_digits hd]
    exact powered_scanPower false hd negative n start
  | plus _ hd => exact powered_scanPower false hd negative n start
  | minus _ hd => exact powered_scanPower true hd negative n start

/-- Digits alone are an integer as long as all of them are taken in. -/
theorem scanNumber_whole (negative : Bool) (hd : Whole ds)
    (hleft : (absorb Bounds.word64 0 ds).2 = []) :
    scanNumber (sign negative ++ (ds ++ ([] ++ []))) =
      .ok (integerOf negative (absorb Bounds.word64 0 ds).1, []) := by
  have hscan := scanUnsigned_digits negative hd .absent .absent ends_nil
  simp only [List.append_nil] at hscan ⊢
  have hsign := scanNumber_sign negative hd []
  rw [List.append_nil] at hsign
  rw [hsign, hscan, scanTail_nothing ends_nil, hleft]
  rfl

/-- Any other numeral is told from what is kept of its digits. -/
theorem powered_scanNumber (negative : Bool) (hd : Whole ds) (hf : FractionOf f fs)
    (he : ExponentOf e k) (h : f ≠ [] ∨ e ≠ [] ∨ (absorb Bounds.word64 0 ds).2 ≠ []) :
    Powered negative
      (fractionDigits (absorb Bounds.word64 0 ds).1 (absorb Bounds.word64 0 ds).2.length fs).1
      (fractionDigits (absorb Bounds.word64 0 ds).1 (absorb Bounds.word64 0 ds).2.length fs).2 k
      (scanNumber (sign negative ++ (ds ++ (f ++ e)))) := by
  have hscan := scanUnsigned_digits negative hd hf.fraction he.exponent ends_nil
  rw [List.append_nil] at hscan
  rw [scanNumber_sign negative hd, hscan]
  generalize (absorb Bounds.word64 0 ds).1 = n
  generalize (absorb Bounds.word64 0 ds).2 = left at *
  cases hf with
  | absent =>
    have hstart : fractionDigits n left.length [] = (n, (left.length : Int)) := by
      simp [fractionDigits, absorb]
    rw [hstart, List.nil_append]
    cases e with
    | nil =>
      obtain rfl := he.eq_zero
      have hleft : left ≠ [] := by simpa using h
      rw [scanTail_nothing ends_nil, if_neg fun h => hleft (List.length_eq_zero_iff.1 h)]
      exact powered_doubleOf negative n _
    | cons c e =>
      have hpower := powered_scanExponent he negative n left.length
      rw [← scanTail_exponent he.exponent, List.append_nil] at hpower
      exact hpower
  | point hds =>
    show Powered _ _ _ _ (scanFraction negative n left.length (fs ++ e))
    cases e with
    | nil =>
      obtain rfl := he.eq_zero
      have hdouble := powered_doubleOf negative (fractionDigits n left.length fs).1
        (fractionDigits n left.length fs).2
      rwa [← scanFraction_nothing negative n _ hds ends_nil] at hdouble
    | cons c e =>
      have hpower := powered_scanExponent he negative (fractionDigits n left.length fs).1
        (fractionDigits n left.length fs).2
      rwa [← scanFraction_exponent negative n _ hds he.exponent, List.append_nil] at hpower

/-! ## Doubles -/

theorem slack_eq : slack = 32 * roundoff := by norm_num [slack, roundoff]

theorem residue_eq : residue = 4 * underflow := by
  have hfour : (4 : ℚ) = 2 ^ (2 : ℤ) := by norm_num
  rw [residue, underflow, hfour, ← two_zpow_add]
  rfl

/-- The digits that are left out hardly change the scaled numeral. -/
theorem Keeps.scaled {m : Nat} (h : Keeps n places m start) (k : Int) :
    Close (1 / 2 ^ 60) 0 (m * 10 ^ (start + k)) (n * 10 ^ (k - places)) := by
  have hten : (0 : ℚ) < 10 ^ k := zpow_pos (by norm_num) k
  have hleft : (m * 10 ^ (start + k) : ℚ) = m * 10 ^ start * 10 ^ k := by
    rw [zpow_add₀ (by norm_num), mul_assoc]
  have hright : (n * 10 ^ (k - places) : ℚ) = n * 10 ^ (-(places : Int)) * 10 ^ k := by
    rw [sub_eq_neg_add, zpow_add₀ (by norm_num), mul_assoc]
  rw [hleft, hright, Close, ← sub_mul, abs_mul, abs_of_pos hten, add_zero, ← mul_assoc]
  exact mul_le_mul_of_nonneg_right (h.close.trans_eq (add_zero _)) hten.le

theorem Scaled.close_slack {d : Double} (h : Scaled x d) (hx : Close (1 / 2 ^ 60) 0 x q)
    (hq : 0 ≤ q) : Close slack residue d.size q := by
  have hε : 0 ≤ 30 * roundoff := mul_nonneg (by norm_num) roundoff_pos.le
  refine (h.close.trans hx hε).mono ?_ ?_ hq
  · rw [slack_eq, roundoff_eq]
    norm_num
  · rw [residue_eq]
    linarith

/-- What is close to a size beyond the doubles is no double. -/
theorem not_close_of_beyond {d : Double} (hd : d.Proper) (hq : Close slack residue d.size q) :
    ¬ 2 ^ (1024 : ℤ) ≤ (1 - slack) * q := by
  intro hle
  have hlow := (abs_le.1 hq).1
  have hmax := hd.size_le
  have hlast : residue < 2 ^ (971 : ℤ) := zpow_lt_zpow_right₀ (by norm_num) (by decide)
  rw [maxSize] at hmax
  -- the powers are too great to be worked out
  generalize (2 : ℚ) ^ (1024 : ℤ) = top at hle hmax
  generalize (2 : ℚ) ^ (971 : ℤ) = unit at hmax hlast
  linarith

/-- **What comes of the digits of a numeral**: a double that is about what they amount to, as far as
doubles go. -/
structure Reads (t : Bytes) (negative : Bool) (n places : Nat) (k : Int) (r : Scan Number) :
    Prop where
  about : ∀ {x}, r = .ok (x, []) → ∃ d q, x = .double d ∧ d.negative = negative ∧
    Amounts t negative q ∧ d.Proper ∧ Close slack residue d.size q
  within : k.natAbs < 2 ^ 31 → (n : ℚ) * 10 ^ (k - places) ≤ (1 - slack) * 2 ^ (1024 : ℤ) →
    ∃ x, r = .ok (x, [])
  vanishes : 2 ^ 31 ≤ k.natAbs → n = 0 ∨ k < 0 → ∃ x, r = .ok (x, [])
  beyond : k.natAbs < 2 ^ 31 → 2 ^ (1024 : ℤ) ≤ (1 - slack) * ((n : ℚ) * 10 ^ (k - places)) →
    ∀ x, r ≠ .ok (x, [])
  infinite : 2 ^ 31 ≤ k → n ≠ 0 → ∀ x, r ≠ .ok (x, [])

theorem proper_zero (negative : Bool) : (Double.zero negative).Proper :=
  ⟨Nat.two_pow_pos 53, le_rfl, (by decide : leastExponent ≤ 971)⟩

theorem Powered.reads {m : Nat} {r : Scan Number} (h : Powered negative m start k r)
    (hkeeps : Keeps n places m start) (hparts : Parts t negative n places k) :
    Reads t negative n places k r := by
  have hq : (0 : ℚ) ≤ n * 10 ^ (k - places) :=
    mul_nonneg (Nat.cast_nonneg n) (zpow_pos (by norm_num) _).le
  have hclose := hkeeps.scaled k
  obtain ⟨habout, hwithin⟩ := doubleOf_spec hkeeps.bound negative (start + k) []
  have finite : k.natAbs < 2 ^ 31 → ∀ {x}, r = .ok (x, []) → ∃ d, x = .double d ∧
      d.negative = negative ∧ d.Proper ∧ Close slack residue d.size (n * 10 ^ (k - places)) := by
    intro hk x hx
    rw [h.finite hk] at hx
    obtain ⟨d, rfl, hnegative, hscaled⟩ := habout x [] hx
    exact ⟨d, rfl, hnegative, hscaled.proper, hscaled.close_slack hclose hq⟩
  refine ⟨fun {x} hx => ?_, fun hk hle => ?_, fun hk hz => ?_, fun hk hle x hx => ?_,
    fun hk hn x hx => ?_⟩
  · rcases Nat.lt_or_ge k.natAbs (2 ^ 31) with hk | hk
    · obtain ⟨d, rfl, hnegative, hproper, hnear⟩ := finite hk hx
      exact ⟨d, _, rfl, hnegative, .finite hparts hk, hproper, hnear⟩
    · by_cases hz : n = 0 ∨ k < 0
      · rw [h.zero hk (hz.imp_left hkeeps.zero.2)] at hx
        cases hx
        refine ⟨_, 0, rfl, rfl, .zero hparts hk hz, proper_zero _, ?_⟩
        have hresidue : 0 ≤ residue := (two_zpow_pos _).le
        simpa [Close, size, Double.zero] using hresidue
      · obtain ⟨hn, hpos⟩ := not_or.1 hz
        obtain ⟨fault, hfault⟩ := h.none (by omega) (mt hkeeps.zero.1 hn)
        cases hfault.symm.trans hx
  · rw [h.finite hk]
    refine hwithin ?_
    have hhigh := (abs_le.1 hclose).2
    have hpos := two_zpow_pos 1024
    rw [slack_eq] at hle
    -- the power is too great to be worked out
    generalize (2 : ℚ) ^ (1024 : ℤ) = top at hle hpos ⊢
    rw [roundoff_eq] at hle ⊢
    linarith
  · exact ⟨_, h.zero hk (hz.imp_left hkeeps.zero.2)⟩
  · obtain ⟨d, -, -, hproper, hnear⟩ := finite hk hx
    exact not_close_of_beyond hproper hnear hle
  · obtain ⟨fault, hfault⟩ := h.none hk (mt hkeeps.zero.1 hn)
    cases hfault.symm.trans hx

/-! ## Integers that are no integers of 64 bits -/

theorem ofNat?_word64 (hn : n < Bounds.word64) : ∃ d, ofNat? n = some d ∧ d.negative = false ∧
    d.Proper ∧ Close slack residue d.size n := by
  obtain ⟨d, hd⟩ := Option.isSome_iff_exists.1 (ofNat?_isSome (word64_le_maxSize hn))
  have hnegative : d.negative = false := by
    obtain ⟨x, -, rfl⟩ := Option.map_eq_some_iff.1 hd
    rfl
  refine ⟨d, hd, hnegative, (nearest_of_ofNat? hd).proper, ?_⟩
  have hroundoff := roundoff_pos
  refine (close_of_ofNat? hd).mono ?_ (two_zpow_pos _).le (Nat.cast_nonneg n)
  rw [slack_eq]
  linarith

/-- Minus zero and what is below the integers of 64 bits are doubles. -/
theorem integerOf_double {d : Double} (hn : n < Bounds.word64)
    (h : integerOf negative n = .double d) :
    d.negative = negative ∧ d.Proper ∧ Close slack residue d.size n := by
  obtain ⟨d', hd', hsign, hproper, hclose⟩ := ofNat?_word64 hn
  unfold integerOf at h
  rw [hd'] at h
  cases negative with
  | false => cases h
  | true =>
    split at h
    · next hneg => cases hneg
    · split at h
      · cases h
        refine ⟨?_, ⟨hproper.mantissa, hproper.least, hproper.greatest⟩, hclose⟩
        show (!d'.negative) = true
        rw [hsign]
        rfl
      · cases h

theorem reads_whole (negative : Bool) (hd : Whole ds) (hvalue : valueOf ds < Bounds.word64) :
    Reads (sign negative ++ (ds ++ ([] ++ []))) negative (valueOf ds) 0 0
      (.ok (integerOf negative (valueOf ds), [])) ∨
    ∃ m, Denotes (sign negative ++ (ds ++ ([] ++ []))) m ∧ FitsWord m ∧
      integerOf negative (valueOf ds) = .integer m := by
  have hsmall : Bounds.half64 < Bounds.word64 := by decide
  cases hof : integerOf negative (valueOf ds) with
  | integer m =>
    refine .inr ⟨m, ?_, ?_, rfl⟩
    · obtain ⟨rfl, rfl⟩ | ⟨rfl, hz, -, rfl⟩ := integerOf_eq_iff.1 hof
      · simpa [sign] using Denotes.plain hd
      · simpa [sign] using Denotes.minus hd fun h0 => hz ((valueOf_eq_zero_iff hd).2 h0)
    · rw [FitsWord]
      obtain ⟨-, rfl⟩ | ⟨-, -, hle, rfl⟩ := integerOf_eq_iff.1 hof <;> omega
  | double d =>
    obtain ⟨hsign, hproper, hclose⟩ := integerOf_double hvalue hof
    have hparts := Parts.mk negative hd .absent .absent
    rw [List.append_nil ds] at hparts
    have hq : (valueOf ds : ℚ) = valueOf ds * 10 ^ ((0 : Int) - (0 : Nat)) := by simp
    refine .inl ⟨fun {x} hx => ?_, fun _ _ => ⟨_, rfl⟩, fun _ _ => ⟨_, rfl⟩, fun _ hle _ _ => ?_,
      fun h => absurd h (by decide)⟩
    · cases hx
      rw [hq] at hclose
      exact ⟨d, _, rfl, hsign, .finite hparts (by decide), hproper, hclose⟩
    · rw [← hq] at hle
      exact not_close_of_beyond hproper hclose hle

/-! ## One amount for one numeral -/

theorem ExponentOf.unique {k' : Int} (h : ExponentOf e k) (h' : ExponentOf e k') : k = k' := by
  have digit : ∀ {b : UInt8} {r : Bytes}, Digits (b :: r) → isDigit b = true :=
    fun hd => hd.2 _ List.mem_cons_self
  cases h with
  | absent => exact h'.eq_zero.symm
  | bare he hd =>
    cases h' with
    | bare => rfl
    | plus => cases digit hd
    | minus => cases digit hd
  | plus =>
    cases h' with
    | bare _ hd => cases digit hd
    | plus => rfl
  | minus =>
    cases h' with
    | bare _ hd => cases digit hd
    | minus => rfl

theorem sign_unique {negative' : Bool} {ds' : Bytes} (hd : Whole ds) (hd' : Whole ds')
    (h : sign negative ++ (ds ++ s) = sign negative' ++ (ds' ++ e)) : negative = negative' := by
  have plain : ∀ {ds r x : Bytes}, Whole ds → ds ++ r ≠ 45 :: x := by
    intro ds r x hd heq
    obtain ⟨d, ds, rfl⟩ := List.exists_cons_of_ne_nil hd.1.1
    exact hd.ne_minus (congrArg (· :: ds) (List.cons.inj heq).1)
  cases negative <;> cases negative'
  · rfl
  · exact absurd (List.nil_append (ds ++ s) ▸ h) (plain hd)
  · exact absurd (List.nil_append (ds' ++ e) ▸ h.symm) (plain hd')
  · rfl

theorem digits_unique {ds' s' : Bytes} (hd : ∀ d ∈ ds, isDigit d = true)
    (hd' : ∀ d ∈ ds', isDigit d = true) (hs : ∀ b, s.head? = some b → isDigit b = false)
    (hs' : ∀ b, s'.head? = some b → isDigit b = false) (h : ds ++ s = ds' ++ s') :
    ds = ds' ∧ s = s' := by
  obtain ⟨htake, hdrop⟩ := takeDigits_append hd hs
  obtain ⟨htake', hdrop'⟩ := takeDigits_append hd' hs'
  rw [h] at htake hdrop
  exact ⟨htake.symm.trans htake', hdrop.symm.trans hdrop'⟩

theorem ExponentOf.stop (h : ExponentOf e k) : ∀ b, e.head? = some b → isDigit b = false ∧ b ≠ 46 :=
  fun b hb => h.exponent.stops ends_nil b ((List.append_nil e).symm ▸ hb)

theorem FractionOf.stop (h : FractionOf f fs) (he : ExponentOf e k) :
    ∀ b, (f ++ e).head? = some b → isDigit b = false :=
  fun b hb => h.fraction.stops he.exponent ends_nil b ((List.append_nil e).symm ▸ hb)

/-- What is behind the digits of the integer part is a fraction and an exponent in one way. -/
theorem fraction_unique {f' fs' e' : Bytes} {k' : Int} (hf : FractionOf f fs) (he : ExponentOf e k)
    (hf' : FractionOf f' fs') (he' : ExponentOf e' k') (h : f ++ e = f' ++ e') :
    fs = fs' ∧ k = k' := by
  cases hf with
  | absent =>
    cases hf' with
    | absent =>
      rw [List.nil_append, List.nil_append] at h
      subst h
      exact ⟨rfl, he.unique he'⟩
    | point =>
      rw [List.nil_append] at h
      exact absurd rfl (he.stop 46 (by rw [h]; rfl)).2
  | point hd =>
    cases hf' with
    | absent =>
      rw [List.nil_append] at h
      exact absurd rfl (he'.stop 46 (by rw [← h]; rfl)).2
    | point hd' =>
      obtain ⟨rfl, rfl⟩ := digits_unique hd.2 hd'.2 (fun b hb => (he.stop b hb).1)
        (fun b hb => (he'.stop b hb).1) (List.cons.inj h).2
      exact ⟨rfl, he.unique he'⟩

/-- A numeral has its parts in one way. -/
theorem Parts.unique {negative' : Bool} {n' places' : Nat} {k' : Int}
    (h : Parts t negative n places k) (h' : Parts t negative' n' places' k') :
    negative = negative' ∧ n = n' ∧ places = places' ∧ k = k' := by
  obtain @⟨negative, ds, f, fs, e, k, hd, hf, he⟩ := h
  generalize ht : sign negative ++ (ds ++ (f ++ e)) = t at h'
  obtain @⟨negative', ds', f', fs', e', k', hd', hf', he'⟩ := h'
  obtain rfl := sign_unique hd hd' ht
  obtain ⟨rfl, hbehind⟩ := digits_unique hd.1.2 hd'.1.2 (hf.stop he) (hf'.stop he')
    (List.append_cancel_left ht)
  obtain ⟨rfl, rfl⟩ := fraction_unique hf he hf' he' hbehind
  exact ⟨rfl, rfl, rfl, rfl⟩

/-- A numeral amounts to one number at most. -/
theorem Amounts.unique {negative' : Bool} {x : ℚ} (h : Amounts t negative q)
    (h' : Amounts t negative' x) : negative = negative' ∧ q = x := by
  cases h with
  | finite hp hk =>
    cases h' with
    | finite hp' =>
      obtain ⟨rfl, rfl, rfl, rfl⟩ := hp.unique hp'
      exact ⟨rfl, rfl⟩
    | zero hp' hk' =>
      obtain ⟨-, -, -, rfl⟩ := hp.unique hp'
      omega
  | zero hp hk =>
    cases h' with
    | finite hp' hk' =>
      obtain ⟨-, -, -, rfl⟩ := hp.unique hp'
      omega
    | zero hp' =>
      obtain ⟨rfl, -⟩ := hp.unique hp'
      exact ⟨rfl, rfl⟩

/-- No double is close to what is beyond the doubles. -/
theorem Beyond.not_close {d : Double} (h : Beyond t) (ha : Amounts t negative q) (hd : d.Proper) :
    ¬ Close slack residue d.size q := by
  intro hq
  cases h with
  | finite ha' hle =>
    obtain ⟨-, rfl⟩ := ha.unique ha'
    exact not_close_of_beyond hd hq hle
  | infinite hp hk hn =>
    cases ha with
    | finite hp' hk' =>
      obtain ⟨-, -, -, rfl⟩ := hp.unique hp'
      omega
    | zero hp' hk' hz =>
      obtain ⟨-, rfl, -, rfl⟩ := hp.unique hp'
      rcases hz with hz | hz
      · exact hn hz
      · omega

/-! ## Top theorems -/

/-- A numeral is read from its parts, or is an integer. -/
theorem reads_scanNumber (h : Parts t negative n places k) :
    Reads t negative n places k (scanNumber t) ∨ k = 0 ∧ places = 0 ∧ n < Bounds.word64 ∧
      ∃ m, Denotes t m ∧ FitsWord m ∧ scanNumber t = .ok (.integer m, []) := by
  cases h with
  | @mk negative ds f fs e k hd hf he =>
    by_cases hparts : f ≠ [] ∨ e ≠ [] ∨ (absorb Bounds.word64 0 ds).2 ≠ []
    · exact .inl ((powered_scanNumber negative hd hf he hparts).reads
        (keeps_digits hd.1.2 hf.digits) (.mk negative hd hf he))
    · obtain ⟨rfl, rfl, hleft⟩ : f = [] ∧ e = [] ∧ (absorb Bounds.word64 0 ds).2 = [] := by
        simpa using hparts
      obtain rfl := he.eq_zero
      cases hf with
      | absent =>
        have hspec := absorb_valueOf ds
        split at hspec
        · next hlt =>
          have hscan := scanNumber_whole negative hd hleft
          rw [hspec] at hscan
          rw [hscan, List.append_nil ds]
          rcases reads_whole negative hd hlt with hreads | ⟨m, hm, hfits, hof⟩
          · exact .inl hreads
          · exact .inr ⟨rfl, rfl, hlt, m, hm, hfits, by rw [hof]⟩
        · exact absurd hleft hspec

/-- **Numerals are read as what they stand for.** -/
theorem stands_of_scanNumber (h : scanNumber t = .ok (m, [])) : Stands t m := by
  have hdenotes : ∀ {i : Int}, Denotes t i → FitsWord i → m = .integer i := by
    intro i hi hfits
    have hscan : scanNumber t = .ok (.integer i, []) :=
      scanNumber_eq_ok_iff.2 ⟨t, hi, (List.append_nil t).symm, ends_nil, hfits.1, hfits.2⟩
    cases h.symm.trans hscan
    rfl
  obtain ⟨v, hv, heq⟩ := numeral_of_scanNumber h
  rw [List.append_nil] at heq
  subst heq
  obtain ⟨negative, n, places, k, hparts⟩ := hv.parts
  rcases reads_scanNumber hparts with hreads | ⟨-, -, -, i, hi, hfits, -⟩
  · obtain ⟨d, q, rfl, rfl, hamounts, hproper, hclose⟩ := hreads.about h
    refine .double (fun i hi hfits => ?_) hamounts hproper hclose
    cases hdenotes hi hfits
  · rw [hdenotes hi hfits]
    exact .integer hi hfits

/-- **Numerals within the doubles are read.** -/
theorem scanNumber_of_moderate (h : Moderate t) : ∃ m, scanNumber t = .ok (m, []) := by
  obtain ⟨negative, q, hamounts, hq⟩ := h
  cases hamounts with
  | finite hparts hk =>
    rcases reads_scanNumber hparts with hreads | ⟨-, -, -, i, -, -, hscan⟩
    · exact hreads.within hk hq
    · exact ⟨_, hscan⟩
  | zero hparts hk hz =>
    rcases reads_scanNumber hparts with hreads | ⟨-, -, -, i, -, -, hscan⟩
    · exact hreads.vanishes hk hz
    · exact ⟨_, hscan⟩

/-- **Numerals beyond the doubles are not read.** -/
theorem scanNumber_of_beyond (h : Beyond t) : scanNumber t ≠ .ok (m, []) := by
  cases h with
  | @finite negative q hamounts hq =>
    cases hamounts with
    | finite hparts hk =>
      rcases reads_scanNumber hparts with hreads | ⟨rfl, rfl, hn, -⟩
      · exact hreads.beyond hk hq m
      · obtain ⟨d, -, -, hproper, hclose⟩ := ofNat?_word64 hn
        refine absurd ?_ (not_close_of_beyond hproper hclose)
        simpa using hq
    | zero =>
      rw [mul_zero] at hq
      exact absurd hq (not_le.2 (two_zpow_pos 1024))
  | infinite hparts hk hn =>
    rcases reads_scanNumber hparts with hreads | ⟨rfl, -⟩
    · exact hreads.infinite hk hn m
    · exact absurd hk (by decide)

/-- A numeral beyond the doubles stands for nothing. -/
theorem Beyond.not_stands (h : Beyond t) : ¬ Stands t m := by
  rintro (⟨hi, hfits⟩ | ⟨-, ha, hproper, hclose⟩)
  · exact scanNumber_of_beyond h (scanNumber_eq_ok_iff.2
      ⟨t, hi, (List.append_nil t).symm, ends_nil, hfits.1, hfits.2⟩)
  · exact h.not_close ha hproper hclose

end Switchboard.Json
