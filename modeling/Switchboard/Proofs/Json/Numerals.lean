import Switchboard.Proofs.Json.Items
import Switchboard.Proofs.Json.Integers

/-!
# Which texts are read as numbers

A number is read from a numeral, and the numeral alone decides which number it is, or that there is
none: what stands behind it is left as it is.

    scanNumber s = ok (n, rest) → s = numeral ++ rest
    scanNumber (numeral ++ rest) = ok (n, rest) ↔ scanNumber numeral = ok (n, [])
-/

namespace Switchboard.Json

variable {s rest ds f e : Bytes} {b : UInt8} {negative : Bool} {n left : Nat} {start : Int}
  {m : Number}

/-! ## Exponents behind their sign -/

/-- The exponent behind its letter and its sign. -/
def scanPower (negative : Bool) (n : Nat) (start : Int) (down : Bool) : Bytes → Scan Number
  | [] => .error (.here .endInValue [])
  | d :: rest =>
    if isDigit d then
      let (e, left) := absorb exponentBound 0 (takeDigits (d :: rest))
      let after := dropDigits rest
      if left.isEmpty then doubleOf negative n (if down then start - e else start + e) after
      else if n ≠ 0 && !down then .error (.here .outOfRange (left.tail ++ after))
      else .ok (.double (.zero negative), after)
    else .error (.here .badNumber rest)

def skipPower : Bytes → Except Fault Bytes
  | [] => .error (.here .badNumber [])
  | d :: rest => if isDigit d then .ok (dropDigits rest) else .error (.here .badNumber rest)

/-- The sign that may stand behind the letter, and what stands behind it. -/
def powerSign (s : Bytes) : Bool × Bytes :=
  match s with
  | 43 :: r => (false, r)
  | 45 :: r => (true, r)
  | _ => (false, s)

theorem scanExponent_eq (s : Bytes) : scanExponent negative n start s =
    scanPower negative n start (powerSign s).1 (powerSign s).2 := by
  unfold scanExponent
  split
  next down r hsign =>
    have hsplit : powerSign s = (down, r) := hsign
    rw [hsplit]
    cases r <;> rfl

theorem skipExponent_eq (s : Bytes) : skipExponent s = skipPower (powerSign s).2 := by
  unfold skipExponent
  split
  · next r => cases r <;> rfl
  · next r => cases r <;> rfl
  · next hplus hminus =>
    have hsign : powerSign s = (false, s) := by
      unfold powerSign
      split
      · exact (hplus _ rfl).elim
      · exact (hminus _ rfl).elim
      · rfl
    rw [hsign]
    cases s <;> rfl

/-! ## What is read is passed over -/

theorem rest_of_doubleOf {k : Int} (h : doubleOf negative n k s = .ok (m, rest)) : s = rest := by
  unfold doubleOf at h
  split at h <;> cases h
  rfl

theorem skipPower_of_scan {down : Bool} (h : scanPower negative n start down s = .ok (m, rest)) :
    skipPower s = .ok rest := by
  cases s with
  | nil => cases h
  | cons d r =>
    rw [scanPower] at h
    rw [skipPower]
    split at h
    · next hd =>
      rw [if_pos hd]
      dsimp only at h
      split at h
      · rw [rest_of_doubleOf h]
      · split at h
        · cases h
        · rw [(Prod.mk.inj (Except.ok.inj h)).2]
    · cases h

theorem skipExponent_of_scan (h : scanExponent negative n start s = .ok (m, rest)) :
    skipExponent s = .ok rest := by
  rw [scanExponent_eq] at h
  rw [skipExponent_eq, skipPower_of_scan h]

theorem skipFraction_of_scan (h : scanFraction negative n start s = .ok (m, rest)) :
    skipFraction s = .ok rest := by
  unfold scanFraction at h
  dsimp only at h
  split at h
  · cases h
  · next hds =>
    split at h
    · next hafter =>
      rw [skipFraction, if_neg hds, hafter]
      exact skipExponent_of_scan h
    · next hafter =>
      rw [skipFraction, if_neg hds, hafter]
      exact skipExponent_of_scan h
    · next hexp hExp =>
      rw [skipFraction, if_neg hds, ← rest_of_doubleOf h]
      split
      · next hafter => exact (hexp _ hafter).elim
      · next hafter => exact (hExp _ hafter).elim
      · rfl

theorem skipNumberTail_of_scan (h : scanTail negative n left s = .ok (m, rest)) :
    skipNumberTail s = .ok rest := by
  unfold scanTail at h
  split at h
  · exact skipFraction_of_scan h
  · exact skipExponent_of_scan h
  · exact skipExponent_of_scan h
  · next hpoint hexp hExp =>
    have hrest : s = rest := by
      split at h
      · exact (Prod.mk.inj (Except.ok.inj h)).2
      · exact rest_of_doubleOf h
    subst hrest
    unfold skipNumberTail
    split
    · exact (hpoint _ rfl).elim
    · exact (hexp _ rfl).elim
    · exact (hExp _ rfl).elim
    · rfl

theorem skipUnsigned_of_scan (h : scanUnsigned negative s = .ok (m, rest)) :
    skipUnsigned s = .ok rest := by
  cases s with
  | nil => cases h
  | cons b s =>
    rw [scanUnsigned] at h
    rw [skipUnsigned]
    split at h
    · next hb =>
      rw [if_pos hb]
      split at h
      · next hnone =>
        rw [if_pos hnone]
        exact skipNumberTail_of_scan h
      · cases h
    · next hb =>
      rw [if_neg hb]
      split at h
      · next hd =>
        rw [if_pos hd]
        exact skipNumberTail_of_scan h
      · cases h

/-- **A number is read from a numeral.** -/
theorem numeral_of_scanNumber (h : scanNumber s = .ok (m, rest)) :
    ∃ v, Numeral v ∧ s = v ++ rest := by
  unfold scanNumber at h
  split at h
  · exact numeral_of_skipUnsigned (skipUnsigned_of_scan h) true
  · exact numeral_of_skipUnsigned (skipUnsigned_of_scan h) false

/-! ## What is read depends on the numeral alone -/

theorem doubleOf_eq_ok_iff {k : Int} :
    doubleOf negative n k rest = .ok (m, rest) ↔ doubleOf negative n k [] = .ok (m, []) := by
  unfold doubleOf
  split <;> simp

/-- The digits of a power are taken in together, up to what stands behind them. -/
theorem scanPower_digits (negative : Bool) (n : Nat) (start : Int) (down : Bool) (hd : Digits ds)
    (hr : ∀ c, rest.head? = some c → isDigit c = false) :
    scanPower negative n start down (ds ++ rest) =
      if (absorb exponentBound 0 ds).2.isEmpty then
        doubleOf negative n (if down then start - (absorb exponentBound 0 ds).1
          else start + (absorb exponentBound 0 ds).1) rest
      else if n ≠ 0 && !down then
        .error (.here .outOfRange ((absorb exponentBound 0 ds).2.tail ++ rest))
      else .ok (.double (.zero negative), rest) := by
  obtain ⟨d, ds', rfl, hdigit, hdrop⟩ := hd.drop hr
  have htake := (takeDigits_append hd.2 hr).1
  rw [List.cons_append] at htake ⊢
  rw [scanPower, if_pos hdigit, htake, hdrop]

/-- The digits of a power, with something behind them. -/
theorem scanPower_append {down : Bool} (hd : Digits ds)
    (hr : ∀ c, rest.head? = some c → isDigit c = false) :
    scanPower negative n start down (ds ++ rest) = .ok (m, rest) ↔
      scanPower negative n start down (ds ++ []) = .ok (m, []) := by
  rw [scanPower_digits _ _ _ _ hd hr, scanPower_digits _ _ _ _ hd fun _ hc => by cases hc]
  split
  · exact doubleOf_eq_ok_iff
  · split <;> simp

theorem powerSign_digits (hd : Digits ds) (rest : Bytes) :
    powerSign (ds ++ rest) = (false, ds ++ rest) := by
  obtain ⟨d, ds, rfl⟩ := List.exists_cons_of_ne_nil hd.1
  have hdigit := hd.2 d List.mem_cons_self
  unfold powerSign
  split
  · next h => exact absurd (List.cons.inj h).1 (isDigit_ne hdigit rfl)
  · next h => exact absurd (List.cons.inj h).1 (isDigit_ne hdigit rfl)
  · rfl

theorem scanExponent_append {c : UInt8} (he : Exponent (c :: e)) (hr : Ends rest) :
    scanExponent negative n start (e ++ rest) = .ok (m, rest) ↔
      scanExponent negative n start (e ++ []) = .ok (m, []) := by
  have stop : ∀ x, rest.head? = some x → isDigit x = false := fun x hx => (hr x hx).1
  rw [scanExponent_eq, scanExponent_eq]
  cases he with
  | bare _ hd =>
    rw [powerSign_digits hd, powerSign_digits hd]
    exact scanPower_append hd stop
  | signed _ hs hd =>
    rcases hs with rfl | rfl <;> exact scanPower_append hd stop

section Fractions

variable (negative n start)

/-- The numeral that the digits of a fraction leave. -/
def fractionDigits (ds : Bytes) : Nat × Int :=
  ((absorb Bounds.word64 n ds).1,
    start - (ds.length - (absorb Bounds.word64 n ds).2.length : Nat))

theorem scanFraction_nothing (hd : Digits ds) (hr : Ends rest) :
    scanFraction negative n start (ds ++ rest) =
      doubleOf negative (fractionDigits n start ds).1 (fractionDigits n start ds).2 rest := by
  have hne : ¬ ds.isEmpty = true := fun h => hd.1 (List.isEmpty_iff.1 h)
  obtain ⟨htake, hdrop⟩ := takeDigits_append hd.2 fun x hx => (hr x hx).1
  unfold scanFraction
  simp only [htake, hdrop, if_neg hne]
  split
  · exact absurd rfl (hr _ rfl).2.2.1
  · exact absurd rfl (hr _ rfl).2.2.2
  · rfl

theorem scanFraction_exponent {c : UInt8} (hd : Digits ds) (he : Exponent (c :: e))
    (rest : Bytes) : scanFraction negative n start (ds ++ (c :: (e ++ rest))) =
      scanExponent negative (fractionDigits n start ds).1 (fractionDigits n start ds).2
        (e ++ rest) := by
  have hne : ¬ ds.isEmpty = true := fun h => hd.1 (List.isEmpty_iff.1 h)
  have hstop : ∀ x, (c :: (e ++ rest)).head? = some x → isDigit x = false := by
    intro x hx
    cases hx
    rcases he.head rfl with rfl | rfl <;> rfl
  obtain ⟨htake, hdrop⟩ := takeDigits_append hd.2 hstop
  unfold scanFraction
  simp only [htake, hdrop, if_neg hne]
  rcases he.head rfl with rfl | rfl <;> rfl

end Fractions

theorem scanFraction_append (hd : Digits ds) (he : Exponent e) (hr : Ends rest) :
    scanFraction negative n start (ds ++ (e ++ rest)) = .ok (m, rest) ↔
      scanFraction negative n start (ds ++ (e ++ [])) = .ok (m, []) := by
  cases e with
  | nil =>
    rw [List.nil_append, List.nil_append, scanFraction_nothing negative n start hd hr,
      scanFraction_nothing negative n start hd ends_nil]
    exact doubleOf_eq_ok_iff
  | cons c e' =>
    rw [List.cons_append, List.cons_append, scanFraction_exponent negative n start hd he,
      scanFraction_exponent negative n start hd he]
    exact scanExponent_append he hr

/-- With neither fraction nor exponent there is an integer, or a double if digits were dropped. -/
theorem scanTail_nothing (hr : Ends rest) : scanTail negative n left rest =
    if left = 0 then .ok (integerOf negative n, rest) else doubleOf negative n left rest := by
  unfold scanTail
  split
  · exact absurd rfl (hr _ rfl).2.1
  · exact absurd rfl (hr _ rfl).2.2.1
  · exact absurd rfl (hr _ rfl).2.2.2
  · rfl

theorem scanTail_exponent {c : UInt8} (he : Exponent (c :: e)) (rest : Bytes) :
    scanTail negative n left (c :: (e ++ rest)) = scanExponent negative n left (e ++ rest) := by
  rcases he.head rfl with rfl | rfl <;> rfl

theorem scanTail_append (hf : Fraction f) (he : Exponent e) (hr : Ends rest) :
    scanTail negative n left (f ++ (e ++ rest)) = .ok (m, rest) ↔
      scanTail negative n left (f ++ (e ++ [])) = .ok (m, []) := by
  cases hf with
  | point hd => exact scanFraction_append hd he hr
  | absent =>
    cases e with
    | nil =>
      rw [List.nil_append, List.nil_append, List.nil_append, List.nil_append, scanTail_nothing hr,
        scanTail_nothing ends_nil]
      split
      · simp
      · exact doubleOf_eq_ok_iff
    | cons c e' =>
      rw [List.nil_append, List.nil_append, List.cons_append, List.cons_append,
        scanTail_exponent he, scanTail_exponent he]
      exact scanExponent_append he hr

/-- The digits of the integer part are taken in together. -/
theorem scanUnsigned_digits (negative : Bool) (hd : Whole ds) (hf : Fraction f) (he : Exponent e)
    (hr : Ends rest) :
    scanUnsigned negative (ds ++ (f ++ (e ++ rest))) =
      scanTail negative (absorb Bounds.word64 0 ds).1 (absorb Bounds.word64 0 ds).2.length
        (f ++ (e ++ rest)) := by
  have stop := hf.stops he hr
  obtain ⟨d, ds', rfl, hdigit, hdrop⟩ := hd.1.drop stop
  rw [List.cons_append, scanUnsigned]
  split
  · next hzero =>
    subst hzero
    obtain rfl := (List.cons.inj (hd.2 rfl)).2
    rw [List.nil_append, takeDigits_eq_nil stop]
    rfl
  · have htake := (takeDigits_append hd.1.2 stop).1
    rw [List.cons_append] at htake
    simp only [htake, hdrop]

/-- What stands behind the sign of a numeral. -/
theorem scanNumber_sign (negative : Bool) (hd : Whole ds) (s : Bytes) :
    scanNumber (sign negative ++ (ds ++ s)) = scanUnsigned negative (ds ++ s) := by
  cases negative with
  | true => rfl
  | false =>
    obtain ⟨d, ds', rfl⟩ := List.exists_cons_of_ne_nil hd.1.1
    show scanNumber (d :: (ds' ++ s)) = _
    unfold scanNumber
    split
    · next h => exact absurd (congrArg (· :: ds') (List.cons.inj h).1) hd.ne_minus
    · rfl

/-- **The numeral alone decides which number is read.** -/
theorem scanNumber_append {v : Bytes} (hv : Numeral v) (hr : Ends rest) :
    scanNumber (v ++ rest) = .ok (m, rest) ↔ scanNumber v = .ok (m, []) := by
  cases hv with
  | @mk negative ds f e hd hf he =>
    have hsplit : ∀ r, sign negative ++ (ds ++ (f ++ e)) ++ r =
        sign negative ++ (ds ++ (f ++ (e ++ r))) := by simp
    have hnil := (List.append_nil _).symm.trans (hsplit [])
    rw [hsplit, hnil, scanNumber_sign negative hd, scanNumber_sign negative hd,
      scanUnsigned_digits _ hd hf he hr, scanUnsigned_digits _ hd hf he ends_nil,
      scanTail_append hf he hr]

end Switchboard.Json
