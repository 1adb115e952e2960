import Mathlib
import Switchboard.Text.Lowercase

/-!
# Which letters are lowered into ASCII

Of all the letters outside ASCII lower-casing leads one into it: the Kelvin sign, which becomes k.  A
letter that becomes two characters, or one that heeds its neighbours, leaves something outside.  So
a text in ASCII is the lower case of what A to Z and that sign make into it, and if it has no k, of
what A to Z make into it.

    lowerChars before s = t ↔ s.map asciiLower = t      for t in ASCII
    lower s = t ↔ lowerAscii s = t                      for t in ASCII without a k
-/

namespace Switchboard.Text

/-! ## Specification -/

def kelvinSign : Char := '\u212a'

/-- Small letters for A to Z, and for the one letter outside ASCII whose lower case is in it. -/
def asciiLower (c : Char) : Char := if c = kelvinSign then 'k' else c.toLower

def IsAscii (s : List Char) : Prop := ∀ c ∈ s, c.toNat < 128

/-- The run leads to characters, and none of them is in ASCII. -/
def CaseRun.LeadsOutside (r : CaseRun) : Prop :=
  128 ≤ r.first + r.shift ∧
    (r.last + r.shift < 0xD800 ∨ 0xE000 ≤ r.first + r.shift ∧ r.last + r.shift < 0x110000)

instance (r : CaseRun) : Decidable r.LeadsOutside := inferInstanceAs (Decidable (_ ∧ _))

variable {before after s t : List Char} {c : Char} {n : Nat} {r : CaseRun}

/-! ## Runs -/

/-- Behind A to Z every run is outside ASCII, and the Kelvin sign is the only one to lead into it. -/
theorem lowerRuns_outside : ∀ r ∈ lowerRuns.tail, 128 ≤ r.first ∧
    (r.first = kelvinSign.toNat ∧ r.last = kelvinSign.toNat ∨ r.LeadsOutside) := by
  decide +kernel

/-- A to Z come first. -/
theorem find?_lowerRuns (n : Nat) : lowerRuns.find? (·.holds n) =
    if 65 ≤ n ∧ n ≤ 90 then some ⟨65, 90, 1, 32⟩ else lowerRuns.tail.find? (·.holds n) := by
  have hruns : lowerRuns = ⟨65, 90, 1, 32⟩ :: lowerRuns.tail := rfl
  have hcapital : CaseRun.holds ⟨65, 90, 1, 32⟩ n = decide (65 ≤ n ∧ n ≤ 90) := by
    simp only [CaseRun.holds, Nat.mod_one, beq_self_eq_true, Bool.and_true, Bool.decide_and]
  rw [hruns, List.find?_cons, hcapital, List.tail_cons]
  by_cases h : 65 ≤ n ∧ n ≤ 90
  · rw [if_pos h, decide_eq_true h]
  · rw [if_neg h, decide_eq_false h]

theorem bounds_of_holds (h : r.holds n = true) : r.first ≤ n ∧ n ≤ r.last := by
  simp only [CaseRun.holds, Bool.and_eq_true, decide_eq_true_eq] at h
  exact h.1

theorem CaseRun.LeadsOutside.le_toNat (hr : r.LeadsOutside) (h : r.holds n = true) :
    128 ≤ (Char.ofNat (n + r.shift).toNat).toNat := by
  obtain ⟨hfirst, hlast⟩ := bounds_of_holds h
  obtain ⟨hlow, hchar⟩ := hr
  have hvalid : (n + r.shift).toNat.isValidChar := by
    unfold Nat.isValidChar
    omega
  rw [Char.toNat_ofNat, if_pos hvalid]
  omega

/-! ## Letters -/

theorem isUpper_iff : c.isUpper = true ↔ 65 ≤ c.toNat ∧ c.toNat ≤ 90 := by
  simp only [Char.isUpper, decide_eq_true_eq, ge_iff_le, UInt32.le_iff_toNat_le]
  rfl

theorem toLower_outside (hc : 128 ≤ c.toNat) : c.toLower = c := by
  refine Char.toLower_eq_of_not_isUpper fun h => ?_
  have hz := (isUpper_iff.1 h).2
  omega

theorem lowerSimple_of_ascii (hc : c.toNat < 128) : lowerSimple c = c.toLower := by
  have hrest : lowerRuns.tail.find? (·.holds c.toNat) = none := by
    refine List.find?_eq_none.2 fun r hr hholds => ?_
    have hfirst := (lowerRuns_outside r hr).1
    have hle := (bounds_of_holds hholds).1
    omega
  rw [lowerSimple, find?_lowerRuns, hrest]
  by_cases h : 65 ≤ c.toNat ∧ c.toNat ≤ 90
  · rw [if_pos h, Char.toLower_eq_of_isUpper (isUpper_iff.2 h)]
    rfl
  · rw [if_neg h, Char.toLower_eq_of_not_isUpper (isUpper_iff.not.2 h)]

theorem lowerSimple_outside (hc : 128 ≤ c.toNat) (hk : c ≠ kelvinSign) :
    128 ≤ (lowerSimple c).toNat := by
  rw [lowerSimple, find?_lowerRuns, if_neg (by omega)]
  split
  · next r hr =>
    have hholds := List.find?_some hr
    obtain ⟨-, ⟨hfirst, hlast⟩ | houtside⟩ := lowerRuns_outside r (List.mem_of_find?_eq_some hr)
    · -- Between its own two ends there is the sign alone.
      have hbounds := bounds_of_holds hholds
      exact absurd (Char.toNat_inj.1 (by omega)) hk
    · exact houtside.le_toNat hholds
  · exact hc

theorem lowerAt_of_ascii (hc : c.toNat < 128) : lowerAt before c after = [c.toLower] := by
  rw [lowerAt, if_neg (by omega), if_neg (by omega), lowerSimple_of_ascii hc]

theorem lowerSimple_kelvinSign : lowerSimple kelvinSign = 'k' := by decide +kernel

/-- The letter that becomes two keeps its dot, and the one with two small letters is Greek. -/
theorem exists_mem_lowerAt (hc : 128 ≤ c.toNat) (hk : c ≠ kelvinSign) :
    ∃ d ∈ lowerAt before c after, 128 ≤ d.toNat := by
  unfold lowerAt
  split
  · exact ⟨Char.ofNat 0x307, by decide, by decide⟩
  · split
    · refine ⟨_, List.mem_singleton_self _, ?_⟩
      split <;> decide
    · exact ⟨_, List.mem_singleton_self _, lowerSimple_outside hc hk⟩

/-- At every place stands the small letter that ASCII has, or something outside ASCII. -/
theorem lowerAt_cases (before : List Char) (c : Char) (after : List Char) :
    lowerAt before c after = [asciiLower c] ∨
      128 ≤ (asciiLower c).toNat ∧ ∃ d ∈ lowerAt before c after, 128 ≤ d.toNat := by
  by_cases hk : c = kelvinSign
  · left
    rw [hk, lowerAt, if_neg (by decide), if_neg (by decide), lowerSimple_kelvinSign]
    rfl
  · rw [asciiLower, if_neg hk]
    by_cases hc : c.toNat < 128
    · exact .inl (lowerAt_of_ascii hc)
    · have hc : 128 ≤ c.toNat := Nat.le_of_not_lt hc
      rw [toLower_outside hc]
      exact .inr ⟨hc, exists_mem_lowerAt hc hk⟩

/-! ## Texts -/

/-- **What is lowered to a text in ASCII.** -/
theorem lowerChars_eq_iff (ht : IsAscii t) : lowerChars before s = t ↔ s.map asciiLower = t := by
  induction s generalizing before t with
  | nil => exact Iff.rfl
  | cons c s ih =>
    rw [lowerChars, List.map_cons]
    obtain hc | ⟨hc, d, hd, hdc⟩ := lowerAt_cases before c s
    · rw [hc, List.singleton_append]
      cases t with
      | nil => exact ⟨nofun, nofun⟩
      | cons d t => rw [List.cons.injEq, List.cons.injEq, ih fun e he => ht e (.tail _ he)]
    · -- A character outside ASCII stands on either side, and in `t` there is none.
      constructor
      · rintro rfl
        have hlt := ht d (List.mem_append_left _ hd)
        omega
      · rintro rfl
        have hlt := ht _ List.mem_cons_self
        omega

theorem map_asciiLower_eq_iff (ht : IsAscii t) (hk : 'k' ∉ t) :
    s.map asciiLower = t ↔ s.map Char.toLower = t := by
  -- The two differ at the sign alone, which leaves a k or itself, and `t` has neither.
  have hsign : ∀ f : Char → Char, f kelvinSign = 'k' ∨ f kelvinSign = kelvinSign →
      s.map f = t → kelvinSign ∉ s := by
    rintro f hf rfl hmem
    have hin := List.mem_map_of_mem (f := f) hmem
    rcases hf with hf | hf
    · exact hk (hf ▸ hin)
    · exact absurd (ht _ (hf ▸ hin)) (by decide)
  have hsame : kelvinSign ∉ s → s.map asciiLower = s.map Char.toLower := fun hnot =>
    List.map_congr_left fun c hc => if_neg fun heq : c = kelvinSign => hnot (heq ▸ hc)
  constructor
  · intro h
    rw [← hsame (hsign _ (.inl rfl) h), h]
  · intro h
    rw [hsame (hsign _ (.inr (by decide)) h), h]

/-- **A text in ASCII without a k is the lower case of no letter but its own.** -/
theorem lower_eq_iff {s t : String} (ht : IsAscii t.toList) (hk : 'k' ∉ t.toList) :
    lower s = t ↔ lowerAscii s = t := by
  rw [lower, lowerAscii, ← String.toList_inj, ← String.toList_inj, String.toList_ofList,
    String.toList_ofList, lowerChars_eq_iff ht, map_asciiLower_eq_iff ht hk]

end Switchboard.Text
