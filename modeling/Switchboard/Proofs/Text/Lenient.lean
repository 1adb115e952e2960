import Mathlib.Tactic.IntervalCases
import Switchboard.Proofs.Text.Pieces

/-!
# Texts read leniently

The lenient reading puts nothing in place of a character that is there: what the bytes of a text are
read as is that text.

    lenientChars none (utf8EncodeChar c ++ rest) = c :: lenientChars none rest
    lenient (bytes s) = s
-/

namespace Switchboard.Text

/-- A byte behind the first of a character, with the six bits it holds. -/
def trail (m : Nat) : UInt8 := .ofNat (m + 0x80)

variable {g : Begun} {n m : Nat}

/-! ## Bytes -/

theorem ofNat_le {i j : Nat} (hij : i ≤ j) (hj : j < 256) : UInt8.ofNat i ≤ UInt8.ofNat j := by
  rw [UInt8.le_iff_toNat_le, UInt8.toNat_ofNat', UInt8.toNat_ofNat']
  omega

theorem toNat_trail (hm : m < 64) : (trail m).toNat - 0x80 = m := by
  rw [trail, UInt8.toNat_ofNat']
  omega

theorem trail_low (hm : m < 64) : 0x80 ≤ trail m := ofNat_le (i := 0x80) (by omega) (by omega)

theorem trail_high (hm : m < 64) : trail m ≤ 0xBF := ofNat_le (j := 0xBF) (by omega) (by omega)

/-! ## First bytes -/

theorem lead_two (hlow : 2 ≤ n) (hhigh : n < 32) :
    lead (.ofNat (n + 0xC0)) = some ⟨1, 0x80, 0xBF, n⟩ := by
  interval_cases n <;> rfl

/-- Of three bytes the second is neither too low for them nor in the range of surrogates. -/
theorem lead_three (hn : n < 16) (hm : m < 64) (hlong : 32 ≤ n * 64 + m)
    (hplain : n * 64 + m < 0x360 ∨ 0x380 ≤ n * 64 + m) :
    ∃ low high, lead (.ofNat (n + 0xE0)) = some ⟨2, low, high, n⟩ ∧
      low ≤ trail m ∧ trail m ≤ high := by
  obtain rfl | rfl | hother : n = 0 ∨ n = 13 ∨ (n ≠ 0 ∧ n ≠ 13) := by omega
  · exact ⟨_, _, rfl, ofNat_le (i := 0xA0) (by omega) (by omega), trail_high hm⟩
  · exact ⟨_, _, rfl, trail_low hm, ofNat_le (j := 0x9F) (by omega) (by omega)⟩
  · refine ⟨_, _, ?_, trail_low hm, trail_high hm⟩
    interval_cases n <;> first | rfl | omega

/-- Of four bytes the second is neither too low for them nor beyond the last character. -/
theorem lead_four (hm : m < 64) (hlong : 16 ≤ n * 64 + m) (hend : n * 64 + m < 0x110) :
    ∃ low high, lead (.ofNat (n + 0xF0)) = some ⟨3, low, high, n⟩ ∧
      low ≤ trail m ∧ trail m ≤ high := by
  obtain rfl | rfl | hother : n = 0 ∨ n = 4 ∨ (1 ≤ n ∧ n ≤ 3) := by omega
  · exact ⟨_, _, rfl, ofNat_le (i := 0x90) (by omega) (by omega), trail_high hm⟩
  · exact ⟨_, _, rfl, trail_low hm, ofNat_le (j := 0x8F) (by omega) (by omega)⟩
  · refine ⟨_, _, ?_, trail_low hm, trail_high hm⟩
    obtain ⟨hlow, hhigh⟩ := hother
    interval_cases n <;> rfl

/-! ## Reading on -/

theorem lenientChars_first {b : UInt8} {rest : Bytes} (hb : ¬ b < 0x80) (h : lead b = some g) :
    lenientChars none (b :: rest) = lenientChars (some g) rest := by
  rw [lenientChars, fresh, if_neg hb, h]
  rfl

theorem lenientChars_next {rest : Bytes} (hlow : g.low ≤ trail m) (hhigh : trail m ≤ g.high)
    (hm : m < 64) (hleft : 1 < g.left) :
    lenientChars (some g) (trail m :: rest) =
      lenientChars (some ⟨g.left - 1, 0x80, 0xBF, g.bits * 64 + m⟩) rest := by
  rw [lenientChars, feed, if_pos (by simp [hlow, hhigh]), toNat_trail hm,
    if_neg (Nat.not_le.2 hleft)]
  rfl

theorem lenientChars_last {rest : Bytes} (hlow : g.low ≤ trail m) (hhigh : trail m ≤ g.high)
    (hm : m < 64) (hleft : g.left = 1) :
    lenientChars (some g) (trail m :: rest) =
      Char.ofNat (g.bits * 64 + m) :: lenientChars none rest := by
  rw [lenientChars, feed, if_pos (by simp [hlow, hhigh]), toNat_trail hm,
    if_pos (Nat.le_of_eq hleft)]
  rfl

/-! ## Characters -/

section Characters

variable {k l : Nat} {rest : Bytes}

theorem lenientChars_one (hn : n < 128) :
    lenientChars none (.ofNat n :: rest) = Char.ofNat n :: lenientChars none rest := by
  have hval : (UInt8.ofNat n).toNat = n := by
    rw [UInt8.toNat_ofNat', Nat.mod_eq_of_lt (by omega)]
  have hlow : UInt8.ofNat n < 0x80 := by
    rw [UInt8.lt_iff_toNat_lt, hval]
    exact hn
  rw [lenientChars, fresh, if_pos hlow, hval]
  rfl

theorem lenientChars_two (hlow : 2 ≤ n) (hhigh : n < 32) (hm : m < 64) :
    lenientChars none (.ofNat (n + 0xC0) :: trail m :: rest) =
      Char.ofNat (n * 64 + m) :: lenientChars none rest := by
  rw [lenientChars_first (not_low (by omega) (by omega)) (lead_two hlow hhigh),
    lenientChars_last (trail_low hm) (trail_high hm) hm rfl]

theorem lenientChars_three (hn : n < 16) (hm : m < 64) (hk : k < 64) (hlong : 32 ≤ n * 64 + m)
    (hplain : n * 64 + m < 0x360 ∨ 0x380 ≤ n * 64 + m) :
    lenientChars none (.ofNat (n + 0xE0) :: trail m :: trail k :: rest) =
      Char.ofNat ((n * 64 + m) * 64 + k) :: lenientChars none rest := by
  obtain ⟨low, high, hlead, hlow, hhigh⟩ := lead_three hn hm hlong hplain
  rw [lenientChars_first (not_low (by omega) (by omega)) hlead,
    lenientChars_next hlow hhigh hm (Nat.lt_succ_self 1),
    lenientChars_last (trail_low hk) (trail_high hk) hk rfl]

theorem lenientChars_four (hm : m < 64) (hk : k < 64) (hl : l < 64) (hlong : 16 ≤ n * 64 + m)
    (hend : n * 64 + m < 0x110) :
    lenientChars none (.ofNat (n + 0xF0) :: trail m :: trail k :: trail l :: rest) =
      Char.ofNat (((n * 64 + m) * 64 + k) * 64 + l) :: lenientChars none rest := by
  obtain ⟨low, high, hlead, hlow, hhigh⟩ := lead_four hm hlong hend
  rw [lenientChars_first (not_low (by omega) (by omega)) hlead,
    lenientChars_next hlow hhigh hm (by decide : 1 < 3),
    lenientChars_next (trail_low hk) (trail_high hk) hk (by decide : 1 < 2),
    lenientChars_last (trail_low hl) (trail_high hl) hl rfl]

/-- A character is read as itself, by the number of its bytes. -/
theorem lenientChars_char (c : Char) :
    lenientChars none (String.utf8EncodeChar c ++ rest) = c :: lenientChars none rest := by
  have hc : Char.ofNat c.val.toNat = c := Char.ofNat_toNat c
  have hvalid : c.val.toNat < 0xD800 ∨ 0xDFFF < c.val.toNat ∧ c.val.toNat < 0x110000 := c.valid
  simp only [String.utf8EncodeChar]
  generalize c.val.toNat = v at hc hvalid ⊢
  subst hc
  by_cases hone : v ≤ 127
  · rw [if_pos hone]
    exact lenientChars_one (Nat.lt_succ_of_le hone)
  rw [if_neg hone]
  by_cases htwo : v ≤ 2047
  · have hv : v = v / 64 % 32 * 64 + v % 64 := by omega
    rw [if_pos htwo]
    exact (lenientChars_two (by omega) (by omega) (by omega)).trans (by rw [← hv]; rfl)
  rw [if_neg htwo]
  by_cases hthree : v ≤ 65535
  · have hv : v = (v / 4096 % 16 * 64 + v / 64 % 64) * 64 + v % 64 := by omega
    rw [if_pos hthree]
    exact (lenientChars_three (by omega) (by omega) (by omega) (by omega) (by omega)).trans
      (by rw [← hv]; rfl)
  · have hv : v = ((v / 262144 % 8 * 64 + v / 4096 % 64) * 64 + v / 64 % 64) * 64 + v % 64 := by
      omega
    rw [if_neg hthree]
    exact (lenientChars_four (by omega) (by omega) (by omega) (by omega) (by omega)).trans
      (by rw [← hv]; rfl)

end Characters

theorem lenientChars_encode (cs : List Char) : lenientChars none (encode cs) = cs := by
  induction cs with
  | nil => rfl
  | cons c cs ih => rw [encode_cons, lenientChars_char, ih]

/-- **The bytes of a text are read as that text.** -/
theorem lenient_bytes (s : String) : lenient (bytes s) = s := by
  rw [lenient, bytes_eq_encode, lenientChars_encode, String.ofList_toList]

end Switchboard.Text
