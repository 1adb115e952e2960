import Switchboard.Json.Decode
import Switchboard.Proofs.Json.Skipping

/-!
# Which numerals are integers

A number is read as an integer exactly if it is written as one, with neither fraction nor exponent,
is not minus zero, and fits; everything else comes out as a double or not at all.  Where a written
value ends is known (`Written.unique`), so what is read is what is written.

    scanNumber s = ok (integer n, rest) ↔ s = numeral of n ++ rest, and the numeral ends there
-/

namespace Switchboard.Json

variable {s rest ds : Bytes} {b : UInt8} {negative : Bool} {m : Int}

/-! ## Digits and their value -/

theorem le_foldl_appendDigit (n : Nat) (ds : Bytes) : n ≤ ds.foldl appendDigit n := by
  induction ds generalizing n with
  | nil => exact Nat.le_refl n
  | cons d ds ih =>
    refine Nat.le_trans ?_ (ih (appendDigit n d))
    rw [appendDigit]
    omega

/-- All digits are taken in if their value stays below the bound; otherwise some are left over. -/
theorem absorb_spec {bound n : Nat} (hn : n < bound) (ds : Bytes) :
    if ds.foldl appendDigit n < bound then absorb bound n ds = (ds.foldl appendDigit n, [])
    else (absorb bound n ds).2 ≠ [] := by
  induction ds generalizing n with
  | nil => exact if_pos hn ▸ rfl
  | cons d ds ih =>
    rw [absorb, List.foldl_cons]
    by_cases hd : n * 10 + digitValue d < bound
    · rw [if_pos hd]
      exact ih hd
    · have hle := le_foldl_appendDigit (appendDigit n d) ds
      rw [appendDigit] at hle ⊢
      rw [if_neg (by omega), if_neg hd]
      exact List.cons_ne_nil _ _

theorem isDigit_iff : isDigit b = true ↔ 48 ≤ b.toNat ∧ b.toNat ≤ 57 := by
  simp only [isDigit, Bool.and_eq_true, decide_eq_true_eq, UInt8.le_iff_toNat_le]
  rfl

theorem valueOf_eq_zero_iff (hd : Whole ds) : valueOf ds = 0 ↔ ds = [48] := by
  obtain ⟨d, ds, rfl⟩ := List.exists_cons_of_ne_nil hd.1.1
  have hdigit := isDigit_iff.1 (hd.1.2 d List.mem_cons_self)
  have hle : 0 * 10 + digitValue d ≤ valueOf (d :: ds) := le_foldl_appendDigit (appendDigit 0 d) ds
  refine ⟨fun hz => hd.2 ?_, fun h => by rw [h]; rfl⟩
  have hd0 : d = 48 := by
    rw [digitValue] at hle
    refine UInt8.toNat_inj.1 ?_
    have h48 : (48 : UInt8).toNat = 48 := rfl
    omega
  rw [hd0]
  rfl

theorem integerOf_eq_iff {n : Nat} : integerOf negative n = .integer m ↔
    negative = false ∧ m = n ∨ negative = true ∧ n ≠ 0 ∧ n ≤ Bounds.half64 ∧ m = -n := by
  unfold integerOf
  cases negative with
  | false => simp [eq_comm]
  | true =>
    by_cases hn : n = 0 ∨ Bounds.half64 < n
    · have hcond : (decide (n = 0) || decide (Bounds.half64 < n)) = true := by simpa using hn
      simp only [hcond]
      simp
      omega
    · have hcond : (decide (n = 0) || decide (Bounds.half64 < n)) = false := by simpa using hn
      simp only [hcond]
      simp [eq_comm]
      omega

/-! ## Only integers come out as integers -/

theorem doubleOf_ne {n : Nat} {e : Int} : doubleOf negative n e s ≠ .ok (.integer m, rest) := by
  unfold doubleOf
  split <;> simp

theorem scanExponent_ne {n : Nat} {e : Int} :
    scanExponent negative n e s ≠ .ok (.integer m, rest) := by
  unfold scanExponent
  repeat' split
  all_goals first | exact doubleOf_ne | simp

theorem scanFraction_ne {n : Nat} {e : Int} :
    scanFraction negative n e s ≠ .ok (.integer m, rest) := by
  unfold scanFraction
  simp only
  split
  · simp
  · split
    · exact scanExponent_ne
    · exact scanExponent_ne
    · exact doubleOf_ne

theorem scanTail_eq_ok_iff {n left : Nat} :
    scanTail negative n left s = .ok (.integer m, rest) ↔
      left = 0 ∧ (∀ b, s.head? = some b → b ≠ 46 ∧ b ≠ 101 ∧ b ≠ 69) ∧
        integerOf negative n = .integer m ∧ s = rest := by
  unfold scanTail
  split
  · exact ⟨fun h => absurd h scanFraction_ne, fun h => absurd rfl (h.2.1 _ rfl).1⟩
  · exact ⟨fun h => absurd h scanExponent_ne, fun h => absurd rfl (h.2.1 _ rfl).2.1⟩
  · exact ⟨fun h => absurd h scanExponent_ne, fun h => absurd rfl (h.2.1 _ rfl).2.2⟩
  · next hpoint hexp hExp =>
    have hhead : ∀ b, s.head? = some b → b ≠ 46 ∧ b ≠ 101 ∧ b ≠ 69 := by
      intro b hb
      cases s with
      | nil => cases hb
      | cons c s =>
        cases hb
        exact ⟨fun h => hpoint s (by rw [h]), fun h => hexp s (by rw [h]),
          fun h => hExp s (by rw [h])⟩
    split
    · next hleft =>
      rw [Except.ok.injEq, Prod.mk.injEq]
      exact ⟨fun h => ⟨hleft, hhead, h⟩, fun h => h.2.2⟩
    · next hleft => exact ⟨fun h => absurd h doubleOf_ne, fun h => absurd h.1 hleft⟩

theorem absorb_valueOf (ds : Bytes) :
    if valueOf ds < Bounds.word64 then absorb Bounds.word64 0 ds = (valueOf ds, [])
    else (absorb Bounds.word64 0 ds).2 ≠ [] := absorb_spec (by decide) ds

theorem head_dropDigits (s : Bytes) : ∀ c, (dropDigits s).head? = some c → isDigit c = false := by
  intro c hc
  obtain ⟨r, hr⟩ := List.head?_eq_some_iff.1 hc
  exact not_of_dropWhile hr

/-- What is read as an integer are digits, up to something that ends them. -/
theorem digits_of_scanUnsigned (h : scanUnsigned negative s = .ok (.integer m, rest)) :
    ∃ ds, Whole ds ∧ s = ds ++ rest ∧ Ends rest ∧ valueOf ds < Bounds.word64 ∧
      integerOf negative (valueOf ds) = .integer m := by
  cases s with
  | nil => cases h
  | cons b s =>
    have hsplit := takeDigits_append_dropDigits s
    have hdigits := head_dropDigits s
    rw [scanUnsigned] at h
    split at h
    · next hb =>
      subst hb
      split at h
      · next hnone =>
        obtain ⟨-, hhead, hm, rfl⟩ := scanTail_eq_ok_iff.1 h
        rw [List.isEmpty_iff.1 hnone, List.nil_append] at hsplit
        rw [hsplit] at hdigits
        exact ⟨[48], whole_zero, rfl, fun c hc => ⟨hdigits c hc, hhead c hc⟩, by decide, hm⟩
      · cases h
    · next hb =>
      split at h
      · next hd =>
        have htake : takeDigits (b :: s) = b :: takeDigits s := List.takeWhile_cons_of_pos hd
        have habsorb := absorb_valueOf (takeDigits (b :: s))
        obtain ⟨hleft, hhead, hm, rfl⟩ := scanTail_eq_ok_iff.1 h
        rw [List.length_eq_zero_iff] at hleft
        split at habsorb
        · next hlt =>
          rw [habsorb] at hm
          rw [htake] at hlt hm
          exact ⟨b :: takeDigits s,
            ⟨digits_takeDigits hd s, fun hz => absurd (Option.some.inj hz) hb⟩,
            congrArg (b :: ·) hsplit.symm, fun c hc => ⟨hdigits c hc, hhead c hc⟩, hlt, hm⟩
        · exact absurd hleft habsorb
      · cases h

theorem scanUnsigned_append (hd : Whole ds) (hr : Ends rest) (hlt : valueOf ds < Bounds.word64)
    (hm : integerOf negative (valueOf ds) = .integer m) :
    scanUnsigned negative (ds ++ rest) = .ok (.integer m, rest) := by
  have stop : ∀ c, rest.head? = some c → isDigit c = false := fun c hc => (hr c hc).1
  have hhead : ∀ c, rest.head? = some c → c ≠ 46 ∧ c ≠ 101 ∧ c ≠ 69 := fun c hc => (hr c hc).2
  obtain ⟨d, ds', rfl, hdigit, hdrop⟩ := hd.1.drop stop
  rw [List.cons_append, scanUnsigned]
  split
  · next hzero =>
    subst hzero
    obtain rfl := (List.cons.inj (hd.2 rfl)).2
    rw [List.nil_append, takeDigits_eq_nil stop]
    exact scanTail_eq_ok_iff.2 ⟨rfl, hhead, hm, rfl⟩
  · have htake := (takeDigits_append hd.1.2 stop).1
    have habsorb := absorb_valueOf (d :: ds')
    rw [if_pos hlt] at habsorb
    rw [List.cons_append] at htake
    simp only [htake, habsorb, hdrop]
    exact scanTail_eq_ok_iff.2 ⟨rfl, hhead, hm, rfl⟩

/-! ## Integers with their sign -/

theorem Denotes.numeral {v : Bytes} (h : Denotes v m) : Numeral v := by
  cases h with
  | @plain ds hd =>
    have hn := Numeral.mk false hd .absent .absent
    simpa only [sign, List.nil_append, List.append_nil] using hn
  | @minus ds hd =>
    have hn := Numeral.mk true hd .absent .absent
    simpa only [sign, List.singleton_append, List.append_nil] using hn

theorem Whole.ne_minus (hd : Whole ds) {s : Bytes} : ds ≠ 45 :: s := by
  rintro rfl
  have h45 := hd.1.2 45 List.mem_cons_self
  cases h45

/-- A numeral denotes one integer at most. -/
theorem Denotes.unique {v : Bytes} {n : Int} (h : Denotes v m) (h' : Denotes v n) : m = n := by
  cases h with
  | plain hd =>
    cases h' with
    | plain => rfl
    | minus => exact absurd rfl hd.ne_minus
  | minus =>
    cases h' with
    | plain hd => exact absurd rfl hd.ne_minus
    | minus => rfl

/-- **Integers are read as they are written.** -/
theorem scanNumber_eq_ok_iff : scanNumber s = .ok (.integer m, rest) ↔
    ∃ v, Denotes v m ∧ s = v ++ rest ∧ Ends rest ∧ -(Bounds.half64 : Int) ≤ m ∧
      m < Bounds.word64 := by
  have hsmall : Bounds.half64 < Bounds.word64 := by decide
  constructor
  · intro h
    unfold scanNumber at h
    split at h
    · obtain ⟨ds, hd, rfl, hr, hlt, hm⟩ := digits_of_scanUnsigned h
      obtain ⟨hf, -⟩ | ⟨-, hz, hle, rfl⟩ := integerOf_eq_iff.1 hm
      · cases hf
      · exact ⟨45 :: ds, .minus hd fun h0 => hz ((valueOf_eq_zero_iff hd).2 h0), rfl, hr, by omega,
          by omega⟩
    · obtain ⟨ds, hd, rfl, hr, hlt, hm⟩ := digits_of_scanUnsigned h
      obtain ⟨-, rfl⟩ | ⟨hf, -⟩ := integerOf_eq_iff.1 hm
      · exact ⟨ds, .plain hd, rfl, hr, by omega, by omega⟩
      · cases hf
  · rintro ⟨v, hv, rfl, hr, hge, hlt⟩
    cases hv with
    | plain hd =>
      have hscan : scanUnsigned false (v ++ rest) = .ok (.integer (valueOf v), rest) :=
        scanUnsigned_append hd hr (by omega) (integerOf_eq_iff.2 (.inl ⟨rfl, rfl⟩))
      unfold scanNumber
      split
      · next h =>
        obtain ⟨d, ds', rfl⟩ := List.exists_cons_of_ne_nil hd.1.1
        exact absurd (congrArg (· :: ds') (List.cons.inj h).1) hd.ne_minus
      · exact hscan
    | @minus ds hd hz =>
      have hz' : valueOf ds ≠ 0 := fun h0 => hz ((valueOf_eq_zero_iff hd).1 h0)
      exact scanUnsigned_append hd hr (by omega)
        (integerOf_eq_iff.2 (.inr ⟨rfl, hz', by omega, rfl⟩))

theorem intOf_eq_ok_iff {expected : String} {low high : Int} {n : Number} :
    intOf expected low high n = .ok m ↔ n = .integer m ∧ low ≤ m ∧ m ≤ high := by
  cases n with
  | double => simp [intOf]
  | integer n =>
    rw [intOf, Number.integer.injEq]
    by_cases h : low ≤ n ∧ n ≤ high
    · have hcond : (decide (low ≤ n) && decide (n ≤ high)) = true := by simpa using h
      rw [if_pos hcond, Except.ok.injEq]
      exact ⟨fun hm => ⟨hm, hm ▸ h⟩, fun hm => hm.1⟩
    · have hcond : ¬ (decide (low ≤ n) && decide (n ≤ high)) = true := by simpa using h
      rw [if_neg hcond]
      exact ⟨nofun, fun hm => absurd (hm.1 ▸ hm.2) h⟩

theorem Denotes.head {v : Bytes} (h : Denotes v m) :
    ∃ b s, v = b :: s ∧ (b == 45 || isDigit b) = true ∧ isBlank b = false := by
  obtain ⟨b, s, rfl, hb, -⟩ := skipScalar_numeral h.numeral ends_nil
  refine ⟨b, s, rfl, ?_⟩
  rcases hb with rfl | hb
  · decide
  · have hbegins : beginsValue b = true := by simp only [beginsValue, hb, Bool.or_true]
    exact ⟨by rw [hb, Bool.or_true], (not_beginsValue hbegins).1⟩

/-- An integer that fits is read as it is written, with the gap in front of it. -/
theorem integer_read_eq_ok_iff {expected : String} {low high : Int} {depth : Nat}
    (hlow : -(Bounds.half64 : Int) ≤ low) (hhigh : high < Bounds.word64) :
    (integer expected low high).read depth s = .ok (m, rest) ↔
      ∃ g v, Gap g ∧ Denotes v m ∧ s = g ++ (v ++ rest) ∧ Ends rest ∧ low ≤ m ∧ m ≤ high := by
  constructor
  · intro h
    simp only [integer] at h
    split at h
    · next b r hb =>
      obtain ⟨g, hg, rfl⟩ := gap_of_skipBlank_cons hb
      split at h
      · split at h
        · cases h
        · next n r' hn =>
          split at h
          · next i hi =>
            cases h
            obtain ⟨rfl, hge, hle⟩ := intOf_eq_ok_iff.1 hi
            obtain ⟨v, hv, hs, hr, -, -⟩ := scanNumber_eq_ok_iff.1 hn
            exact ⟨g, v, hg, hv, by rw [hs], hr, hge, hle⟩
          · cases h
      · cases h
    · cases h
  · rintro ⟨g, v, hg, hv, rfl, hr, hge, hle⟩
    have hscan : scanNumber (v ++ rest) = .ok (.integer m, rest) :=
      scanNumber_eq_ok_iff.2 ⟨v, hv, rfl, hr, by omega, by omega⟩
    have hint : intOf expected low high (.integer m) = .ok m :=
      intOf_eq_ok_iff.2 ⟨rfl, hge, hle⟩
    obtain ⟨b, r, rfl, hb, hblank⟩ := hv.head
    rw [List.cons_append] at hscan ⊢
    simp only [integer, skipBlank_gap_cons hg hblank, hscan, hint]
    exact if_pos hb

end Switchboard.Json
