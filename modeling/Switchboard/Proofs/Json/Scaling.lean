import Switchboard.Json.Scan
import Switchboard.Proofs.Decimal.Rounding

/-!
# Doubles that are scaled by powers of ten

A double `± n · 10 ^ e` is worked out with a rounding for each step, two or three in all; it is as
close to that as these few roundings leave it, and it is missing only where `n · 10 ^ e` comes near
the greatest double.

    doubleOf negative n e rest = ok (double d, rest) → d.size is n · 10 ^ e, but for a part in 2 ^ 48
    n · 10 ^ e ≤ (1 - 2 ^ (-48)) · 2 ^ 1024 → doubleOf negative n e rest = ok _
-/

namespace Switchboard.Json

open Double

/-! ## Powers of ten -/

theorem roundoff_eq : roundoff = 1 / 9007199254740992 := by norm_num [roundoff]

theorem underflow_le_roundoff : underflow ≤ roundoff := two_zpow_le (by decide)

variable {f d : Double} {n k fuel : Nat} {e : Int} {ε δ q : ℚ}

/-- An integer is a part in `2 ^ 52` away from its double. -/
theorem close_of_ofNat? (h : ofNat? n = some d) : Close (2 * roundoff) 0 d.size n := by
  rcases Nat.eq_zero_or_pos n with rfl | hn
  · cases h
    simp [Close, size]
  · have hone : (1 : ℚ) ≤ n := Nat.one_le_cast.2 hn
    have hpart := mul_le_mul_of_nonneg_left hone roundoff_pos.le
    have hle := underflow_le_roundoff
    refine le_trans (nearest_of_ofNat? h).close ?_
    linarith

theorem ten_pow_le_maxSize : (10 : ℚ) ^ 308 ≤ maxSize := by
  have hle : (10 ^ 308 + 2 ^ 971 : Nat) ≤ 2 ^ 1024 := by decide +kernel
  have hcast : (10 : ℚ) ^ 308 + 2 ^ 971 ≤ 2 ^ 1024 := by exact_mod_cast hle
  rw [maxSize, zpow_ofNat, zpow_ofNat]
  exact le_sub_iff_add_le.2 hcast

theorem word64_le_maxSize (hn : n < Bounds.word64) : (n : ℚ) ≤ maxSize := by
  have hword : (n : ℚ) ≤ 2 ^ 64 := by exact_mod_cast (Nat.le_of_lt hn : n ≤ 2 ^ 64)
  have hpow : (2 : ℚ) ^ 64 ≤ 10 ^ 64 := by norm_num
  exact (hword.trans hpow).trans ((pow_le_pow_right₀ (by norm_num) (by decide)).trans
    ten_pow_le_maxSize)

theorem powerOfTen_spec (hk : k ≤ 308) : Close (2 * roundoff) 0 (powerOfTen k).size (10 ^ k) := by
  have hle : ((10 ^ k : Nat) : ℚ) ≤ maxSize := by
    push_cast
    exact (pow_le_pow_right₀ (by norm_num) hk).trans ten_pow_le_maxSize
  obtain ⟨d, hd⟩ := Option.isSome_iff_exists.1 (ofNat?_isSome hle)
  have hclose := close_of_ofNat? hd
  have hpower : powerOfTen k = d := by
    rw [powerOfTen, Nat.pow_eq, hd]
    rfl
  rw [hpower]
  exact_mod_cast hclose

theorem powerOfTen_pos (hk : k ≤ 308) : 0 < (powerOfTen k).size := by
  have hlow := (abs_le.1 (powerOfTen_spec hk)).1
  have hten : (0 : ℚ) < 10 ^ k := pow_pos (by norm_num) k
  rw [roundoff_eq] at hlow
  linarith

/-- Nothing becomes greater by a division. -/
theorem one_le_powerOfTen (hk : k ≤ 308) (hpos : 0 < k) : 8 ≤ (powerOfTen k).size := by
  have hlow := (abs_le.1 (powerOfTen_spec hk)).1
  have hten : (10 : ℚ) ≤ 10 ^ k := le_self_pow₀ (by norm_num) hpos.ne'
  rw [roundoff_eq] at hlow
  linarith

/-! ## One scaling -/

/-- Upwards there is a double as far as doubles go. -/
theorem mul_powerOfTen (hk : k ≤ 308) (hf : Close (2 * roundoff) 0 f.size q) (hq : 0 ≤ q) :
    (q * 10 ^ k ≤ (1 - 30 * roundoff) * 2 ^ (1024 : ℤ) → (f.mul? (powerOfTen k)).isSome = true) ∧
      ∀ d, f.mul? (powerOfTen k) = some d →
        d.Proper ∧ Close (8 * roundoff) underflow d.size (q * 10 ^ k) := by
  have hten : (0 : ℚ) ≤ q * 10 ^ k := by positivity
  have hproduct := hf.mul (powerOfTen_spec hk) hq (powerOfTen_pos hk).le
    (mul_nonneg two_pos.le roundoff_pos.le)
  constructor
  · intro hle
    refine mul?_isSome ?_
    have hhigh := (abs_le.1 hproduct).2
    have htop : maxSize = (1 - roundoff) * 2 ^ (1024 : ℤ) := by
      rw [maxSize, sub_mul, one_mul, roundoff, ← two_zpow_add]
      rfl
    rw [htop]
    have hpos := two_zpow_pos 1024
    -- the power is too great to be worked out
    generalize (2 : ℚ) ^ (1024 : ℤ) = top at hle hpos ⊢
    rw [roundoff_eq] at hle hhigh ⊢
    linarith
  · intro d hd
    obtain ⟨hproper, hnear⟩ := nearest_of_mul? hd
    refine ⟨hproper, (hnear.trans hproduct roundoff_pos.le).mono ?_ ?_ hten⟩
    · rw [roundoff_eq]
      norm_num
    · linarith

/-- Downwards there is a double always. -/
theorem div_powerOfTen (hk : k ≤ 308) (hpos : 0 < k) (hp : f.Proper) (hf : Close ε δ f.size q)
    (hq : 0 ≤ q) (hε : 0 ≤ ε) (hδ : 0 ≤ δ) : ∃ d, f.div? (powerOfTen k) = some d ∧ d.Proper ∧
      Close roundoff underflow d.size (f.size / (powerOfTen k).size) ∧
      Close (2 * ε + 6 * roundoff) (2 * δ + underflow) d.size (q / 10 ^ k) := by
  have hten : (1 : ℚ) ≤ 10 ^ k := one_le_pow₀ (by norm_num)
  have hdivisor := one_le_powerOfTen hk hpos
  have hnonneg := roundoff_pos.le
  obtain ⟨hpower, hquotient⟩ := hf.div (powerOfTen_spec hk) hq hten
    (add_nonneg hε (mul_nonneg two_pos.le hnonneg)) hδ (by rw [roundoff_eq]; norm_num)
  have hsmaller : f.size / (powerOfTen k).size ≤ maxSize :=
    (div_le_self f.size_nonneg (by linarith)).trans hp.size_le
  obtain ⟨d, hd⟩ := Option.isSome_iff_exists.1 (div?_isSome hpower hsmaller)
  obtain ⟨hproper, hnear⟩ := nearest_of_div? hpower hd
  refine ⟨d, hd, hproper, hnear, (hnear.trans hquotient hnonneg).mono ?_ ?_ (by positivity)⟩
  · rw [roundoff_eq]
    linarith
  · rw [roundoff_eq]
    linarith

/-! ## Scalings one after the other -/

/-- The double is one, and as close to `q` as four roundings leave it. -/
structure Scaled (q : ℚ) (d : Double) : Prop where
  proper : d.Proper
  close : Close (30 * roundoff) (4 * underflow) d.size q

theorem scaleDown_last (he : e < 0) (hle : e.natAbs ≤ 308) :
    scaleDown (fuel + 1) f e = f.div? (powerOfTen e.natAbs) := by
  rw [scaleDown, if_pos hle, if_neg (Int.not_le.2 he)]

theorem scaleDown_more (he : e < 0) (hlt : 308 < e.natAbs) (hf : f.isZero = false)
    (hd : f.div? (powerOfTen 308) = some d) :
    scaleDown (fuel + 1) f e = scaleDown fuel d (e + 308) := by
  rw [scaleDown, if_neg (Nat.not_le.2 hlt), hf, if_neg Bool.false_ne_true,
    if_neg (Int.not_le.2 he), hd, Option.bind_some]

theorem scaleDown_zero (hlt : 308 < e.natAbs) (hf : f.isZero = true) :
    scaleDown (fuel + 1) f e = some f := by
  rw [scaleDown, if_neg (Nat.not_le.2 hlt), if_pos hf]

/-- What is hardly a double any more does not become greater. -/
theorem div_small (hp : f.Proper) (hf : f.size ≤ 4 * underflow) (hk : k ≤ 308) (hpos : 0 < k) :
    ∃ d, f.div? (powerOfTen k) = some d ∧ d.Proper ∧ d.size ≤ 4 * underflow := by
  have hself : Close 0 0 f.size f.size := by simp [Close]
  obtain ⟨d, hd, hproper, hnear, -⟩ := div_powerOfTen hk hpos hp hself f.size_nonneg le_rfl le_rfl
  have hleast := underflow_pos
  have hpart : f.size / (powerOfTen k).size ≤ 4 * underflow / 8 :=
    div_le_div₀ (by positivity) hf (by norm_num) (one_le_powerOfTen hk hpos)
  have hhigh := (abs_le.1 hnear).2
  rw [roundoff_eq] at hhigh
  exact ⟨d, hd, hproper, by linarith⟩

theorem scaleDown_small (hp : f.Proper) (hf : f.size ≤ 4 * underflow) (he : e < 0) :
    ∃ d, scaleDown fuel f e = some d ∧ d.Proper ∧ d.size ≤ 4 * underflow := by
  induction fuel generalizing f e with
  | zero =>
    refine ⟨_, rfl, ⟨Nat.two_pow_pos 53, le_rfl, (by decide : leastExponent ≤ 971)⟩, ?_⟩
    simp only [size, Nat.cast_zero, zero_mul]
    exact mul_nonneg (by norm_num) underflow_pos.le
  | succ fuel ih =>
    rcases Nat.lt_or_ge 308 e.natAbs with hlt | hle
    · cases hzero : f.isZero with
      | true => exact ⟨f, scaleDown_zero hlt hzero, hp, hf⟩
      | false =>
        obtain ⟨d, hd, hproper, hsmall⟩ := div_small hp hf (Nat.le_refl 308) (by decide)
        rw [scaleDown_more he hlt hzero hd]
        exact ih hproper hsmall (by omega)
    · obtain ⟨d, hd, hproper, hsmall⟩ := div_small hp hf hle (by omega)
      exact ⟨d, (scaleDown_last he hle).trans hd, hproper, hsmall⟩

theorem ten_zpow_neg (he : e < 0) (q : ℚ) : q * 10 ^ e = q / 10 ^ e.natAbs := by
  obtain ⟨k, hk⟩ := Int.eq_ofNat_of_zero_le (Int.le_of_lt (Int.neg_pos.2 he))
  obtain rfl : e = -(k : Int) := by omega
  rw [Int.natAbs_neg, Int.natAbs_natCast, zpow_neg, zpow_natCast, div_eq_mul_inv]

theorem ten_zpow_split (e : Int) (q : ℚ) : q * 10 ^ e = q / 10 ^ 308 * 10 ^ (e + 308) := by
  rw [zpow_add₀ (by norm_num), zpow_ofNat]
  field_simp

/-- Numerals of 64 bits leave the doubles where they are divided by so much. -/
theorem vanishing (hn : n < Bounds.word64) (he : e ≤ -616) :
    (n : ℚ) * 10 ^ e ≤ underflow / 2 := by
  have hpow : (2 ^ 65 * 2 ^ 1075 : Nat) ≤ 10 ^ 616 := by decide +kernel
  have hcast : (2 : ℚ) ^ 65 * 2 ^ 1075 ≤ 10 ^ 616 := by exact_mod_cast hpow
  have hn' : (n : ℚ) ≤ 2 ^ 64 := by exact_mod_cast (Nat.le_of_lt hn : n ≤ 2 ^ 64)
  have hten : (10 : ℚ) ^ e ≤ 10 ^ (-616 : ℤ) := zpow_le_zpow_right₀ (by norm_num) he
  have hpos : (0 : ℚ) < 10 ^ (-616 : ℤ) := zpow_pos (by norm_num) _
  have hunder : (2 : ℚ) ^ 65 * 10 ^ (-616 : ℤ) ≤ underflow := by
    rw [underflow, zpow_neg, zpow_neg, zpow_ofNat, zpow_ofNat, ← div_eq_mul_inv, ← one_div,
      div_le_div_iff₀ (pow_pos (by norm_num) _) (pow_pos (by norm_num) _), one_mul]
    exact hcast
  calc (n : ℚ) * 10 ^ e ≤ 2 ^ 64 * 10 ^ (-616 : ℤ) := by gcongr
    _ = 2 ^ 65 * 10 ^ (-616 : ℤ) / 2 := by ring
    _ ≤ underflow / 2 := by gcongr

/-- Only a zero is close to zero. -/
theorem eq_zero_of_close (hf : Close (2 * roundoff) 0 f.size q) (hzero : f.isZero = true)
    (hq : 0 ≤ q) : q = 0 := by
  have hlow := (abs_le.1 hf).1
  rw [isZero_iff.1 hzero, roundoff_eq] at hlow
  linarith

theorem scaled_of_small (hp : d.Proper) (hd : d.size ≤ 4 * underflow) (hq : 0 ≤ q)
    (hle : q ≤ underflow) : Scaled q d := by
  refine ⟨hp, abs_le.2 ⟨?_, ?_⟩⟩
  all_goals
    have hsize := d.size_nonneg
    have hpart := mul_nonneg (mul_nonneg (by norm_num : (0 : ℚ) ≤ 30) roundoff_pos.le) hq
    linarith

/-- Whatever comes out when a numeral is divided more than twice, it is hardly a double. -/
theorem scaleDown_gone (fuel : Nat) (hn : n < Bounds.word64) (hp : f.Proper)
    (hf : Close (10 * roundoff) underflow f.size (n / 10 ^ 308)) (he : e < 0)
    (hlt : 308 < e.natAbs) :
    ∃ d, scaleDown (fuel + 1) f e = some d ∧ d.Proper ∧ d.size ≤ 4 * underflow := by
  have hδ := underflow_pos
  cases hzero : f.isZero with
  | true =>
    exact ⟨f, scaleDown_zero hlt hzero, hp, by rw [isZero_iff.1 hzero]; linarith⟩
  | false =>
    obtain ⟨d, hd, hproper, -, hclose⟩ := div_powerOfTen (Nat.le_refl 308) (by decide) hp hf
      (div_nonneg (Nat.cast_nonneg n) (pow_nonneg (by norm_num) _))
      (mul_nonneg (by norm_num) roundoff_pos.le) hδ.le
    have hleft : (n : ℚ) / 10 ^ 308 / 10 ^ 308 ≤ underflow / 2 := by
      have hvanishing := vanishing hn (le_refl (-616))
      rwa [ten_zpow_split, ten_zpow_neg (by decide : (-616 + 308 : Int) < 0)] at hvanishing
    have hhigh := (abs_le.1 hclose).2
    rw [roundoff_eq] at hhigh
    -- the power is too great to be worked out
    generalize (n : ℚ) / 10 ^ 308 / 10 ^ 308 = left at hleft hhigh
    rw [scaleDown_more he hlt hzero hd]
    exact scaleDown_small hproper (by linarith) (by omega)

/-- **Downwards** every numeral becomes a double. -/
theorem scaleDown_down (hn : n < Bounds.word64) (hp : f.Proper)
    (hf : Close (2 * roundoff) 0 f.size n) (he : e < 0) :
    ∃ d, scaleDown 4 f e = some d ∧ Scaled (n * 10 ^ e) d := by
  have hq : (0 : ℚ) ≤ n := Nat.cast_nonneg n
  have hroundoff := roundoff_pos
  have hδ := underflow_pos
  have hpart : ∀ k, (0 : ℚ) ≤ n / 10 ^ k := fun k => div_nonneg hq (pow_nonneg (by norm_num) k)
  have quotient : ∀ {k}, k ≤ 308 → 0 < k → ∃ d, f.div? (powerOfTen k) = some d ∧ d.Proper ∧
      Close (10 * roundoff) underflow d.size (n / 10 ^ k) := by
    intro k hk hpos
    obtain ⟨d, hd, hproper, -, hclose⟩ := div_powerOfTen hk hpos hp hf hq (by linarith) le_rfl
    exact ⟨d, hd, hproper, hclose.mono (by linarith) (by linarith) (hpart k)⟩
  rcases Nat.lt_or_ge 308 e.natAbs with hlt | hle
  · cases hzero : f.isZero with
    | true =>
      rw [eq_zero_of_close hf hzero hq, zero_mul]
      exact ⟨f, scaleDown_zero hlt hzero,
        scaled_of_small hp (by rw [isZero_iff.1 hzero]; linarith) le_rfl hδ.le⟩
    | false =>
      obtain ⟨f₁, h₁, hp₁, hf₁⟩ := quotient (Nat.le_refl 308) (by decide)
      have he₁ : e + 308 < 0 := by omega
      rw [scaleDown_more he hlt hzero h₁]
      rcases Nat.lt_or_ge 308 (e + 308).natAbs with hlt₁ | hle₁
      · obtain ⟨d, hd, hproper, hsize⟩ := scaleDown_gone 2 hn hp₁ hf₁ he₁ hlt₁
        have hleft := vanishing hn (e := e) (by omega)
        exact ⟨d, hd, scaled_of_small hproper hsize
          (mul_nonneg hq (zpow_pos (by norm_num) e).le) (by linarith)⟩
      · obtain ⟨d, hd, hproper, -, hclose⟩ := div_powerOfTen hle₁ (by omega) hp₁ hf₁ (hpart 308)
          (by linarith) hδ.le
        rw [ten_zpow_split, ten_zpow_neg he₁]
        exact ⟨d, (scaleDown_last he₁ hle₁).trans hd, hproper, hclose.mono (by linarith)
          (by linarith) (div_nonneg (hpart 308) (pow_nonneg (by norm_num) _))⟩
  · obtain ⟨d, hd, hproper, hclose⟩ := quotient hle (by omega)
    rw [ten_zpow_neg he]
    exact ⟨d, (scaleDown_last he hle).trans hd, hproper,
      hclose.mono (by linarith) (by linarith) (hpart _)⟩

/-- Beyond the exponents of doubles there is nothing but zero. -/
theorem above_all (hn : 0 < n) (hk : 308 < k) : (2 : ℚ) ^ (1024 : ℤ) ≤ n * 10 ^ k := by
  have hpow : (2 ^ 1024 : Nat) ≤ 10 ^ 309 := by decide +kernel
  have hcast : (2 : ℚ) ^ 1024 ≤ 10 ^ 309 := by exact_mod_cast hpow
  have hone : (1 : ℚ) ≤ n := Nat.one_le_cast.2 hn
  calc (2 : ℚ) ^ (1024 : ℤ) ≤ 10 ^ 309 := by rw [zpow_ofNat]; exact hcast
    _ ≤ 10 ^ k := pow_le_pow_right₀ (by norm_num) hk
    _ ≤ n * 10 ^ k := le_mul_of_one_le_left (pow_nonneg (by norm_num) k) hone

/-- **Upwards** a numeral becomes a double as far as doubles go. -/
theorem scaleDown_up (hp : f.Proper) (hf : Close (2 * roundoff) 0 f.size n) (he : 0 ≤ e) :
    (∀ d, scaleDown 4 f e = some d → Scaled (n * 10 ^ e) d) ∧
      ((n : ℚ) * 10 ^ e ≤ (1 - 30 * roundoff) * 2 ^ (1024 : ℤ) →
        (scaleDown 4 f e).isSome = true) := by
  have hq : (0 : ℚ) ≤ n := Nat.cast_nonneg n
  have hδ := underflow_pos
  have hroundoff := roundoff_pos
  obtain ⟨k, rfl⟩ := Int.eq_ofNat_of_zero_le he
  rw [zpow_natCast]
  rcases Nat.lt_or_ge 308 k with hlt | hle
  · cases hzero : f.isZero with
    | true =>
      rw [eq_zero_of_close hf hzero hq, zero_mul, scaleDown_zero (by simpa using hlt) hzero]
      refine ⟨fun d hd => ?_, fun _ => rfl⟩
      cases hd
      exact scaled_of_small hp (by rw [isZero_iff.1 hzero]; linarith) le_rfl hδ.le
    | false =>
      have hnone : scaleDown 4 f k = none := by
        rw [scaleDown, Int.natAbs_natCast, if_neg (Nat.not_le.2 hlt), hzero,
          if_neg Bool.false_ne_true, if_pos he]
      have hpos : 0 < n := by
        refine Nat.pos_of_ne_zero fun hn => ?_
        have hsize : f.size = 0 := by simpa [hn, Close] using hf
        cases hzero.symm.trans (isZero_iff.2 hsize)
      rw [hnone]
      refine ⟨fun d hd => (by cases hd), fun hle => absurd hle (not_le.2 ?_)⟩
      refine lt_of_lt_of_le ?_ (above_all hpos hlt)
      exact mul_lt_of_lt_one_left (two_zpow_pos _) (by linarith)
  · have hlast : scaleDown 4 f k = f.mul? (powerOfTen k) := by
      rw [scaleDown, Int.natAbs_natCast, if_pos hle, if_pos he]
    obtain ⟨hsome, hclose⟩ := mul_powerOfTen hle hf hq
    rw [hlast]
    refine ⟨fun d hd => ?_, hsome⟩
    obtain ⟨hproper, hnear⟩ := hclose d hd
    exact ⟨hproper, hnear.mono (by linarith) (by linarith)
      (mul_nonneg hq (pow_nonneg (by norm_num) k))⟩

/-! ## Top theorem -/

/-- **A scaled double.**  What comes out is a double of the given sign that is close to the scaled
numeral, and something does as far as doubles go. -/
theorem doubleOf_spec (hn : n < Bounds.word64) (negative : Bool) (e : Int) (rest : Bytes) :
    (∀ m r, doubleOf negative n e rest = .ok (m, r) →
      ∃ d, m = .double d ∧ d.negative = negative ∧ Scaled (n * 10 ^ e) d) ∧
    ((n : ℚ) * 10 ^ e ≤ (1 - 30 * roundoff) * 2 ^ (1024 : ℤ) →
      ∃ m, doubleOf negative n e rest = .ok (m, rest)) := by
  obtain ⟨f, hf⟩ := Option.isSome_iff_exists.1 (ofNat?_isSome (word64_le_maxSize hn))
  have hp := (nearest_of_ofNat? hf).proper
  have hclose := close_of_ofNat? hf
  have hspec : (∀ d, scaleDown 4 f e = some d → Scaled (n * 10 ^ e) d) ∧
      ((n : ℚ) * 10 ^ e ≤ (1 - 30 * roundoff) * 2 ^ (1024 : ℤ) →
        (scaleDown 4 f e).isSome = true) := by
    rcases Int.lt_or_le e 0 with he | he
    · obtain ⟨d, hd, hscaled⟩ := scaleDown_down hn hp hclose he
      rw [hd]
      exact ⟨fun d' hd' => Option.some.inj hd' ▸ hscaled, fun _ => rfl⟩
    · exact scaleDown_up hp hclose he
  cases hd : scaleDown 4 f e with
  | none =>
    have heq : doubleOf negative n e rest = .error (.here .outOfRange rest) := by
      simp only [doubleOf, hf, Option.bind_some, hd]
    rw [heq]
    refine ⟨fun m r h => (by cases h), fun hle => ?_⟩
    have hsome := hspec.2 hle
    rw [hd] at hsome
    cases hsome
  | some d =>
    have heq : doubleOf negative n e rest = .ok (.double { d with negative := negative }, rest) := by
      simp only [doubleOf, hf, Option.bind_some, hd]
    rw [heq]
    refine ⟨fun m r h => ?_, fun _ => ⟨_, rfl⟩⟩
    cases h
    obtain ⟨hproper, hnear⟩ := hspec.1 d hd
    exact ⟨_, rfl, rfl, ⟨⟨hproper.mantissa, hproper.least, hproper.greatest⟩, hnear⟩⟩

end Switchboard.Json
