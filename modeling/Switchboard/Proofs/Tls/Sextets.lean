import Mathlib.Data.List.Basic
import Switchboard.Tls.Base64

/-!
# Octets that come back

Octets are written as sextets, one letter for each, and padding where the last block is not full.
Blanks count for nothing, so a text may be cut into lines anywhere.

    octets (sextets b) = b
    unblanked t = encode b → decode t = ok b
-/

namespace Switchboard.Base64

/-! ## Specification -/

/-- The text without its blanks. -/
def unblanked (text : Bytes) : Bytes := text.filter fun b => !isBlank b

/-- The sextets of octets; what the last one lacks is filled up with zeros. -/
def sextets : Bytes → List Nat
  | a :: b :: c :: rest =>
    a.toNat / 4 :: (a.toNat % 4 * 16 + b.toNat / 16) :: (b.toNat % 16 * 4 + c.toNat / 64) ::
      c.toNat % 64 :: sextets rest
  | [a, b] => [a.toNat / 4, a.toNat % 4 * 16 + b.toNat / 16, b.toNat % 16 * 4]
  | [a] => [a.toNat / 4, a.toNat % 4 * 16]
  | [] => []

/-- How many pads fill up the last block of so many sextets. -/
def padsFor (count : Nat) : Nat := (4 - count % 4) % 4

/-! ## Blanks -/

theorem isBlank_pad : isBlank pad = false := by decide

theorem isBlank_letter {n : Nat} (h : n < 64) : isBlank (letter n) = false := by
  revert n
  decide +kernel

theorem decodeFrom_blank {b : UInt8} (h : isBlank b = true) (block : List (Option Nat))
    (rest : Bytes) : decodeFrom block (b :: rest) = decodeFrom block rest := by
  rw [decodeFrom, if_pos h]

theorem decodeFrom_unblanked (block : List (Option Nat)) (text : Bytes) :
    decodeFrom block (unblanked text) = decodeFrom block text := by
  induction text generalizing block with
  | nil => rfl
  | cons b text ih =>
    rw [unblanked, List.filter_cons]
    cases hb : isBlank b with
    | true =>
      rw [decodeFrom_blank hb]
      exact ih block
    | false =>
      -- the rest is the same in every branch, whatever becomes of the block
      have hrest : ∀ block, decodeFrom block (text.filter fun b => !isBlank b) =
          decodeFrom block text := ih
      simp only [Bool.not_false, if_true, decodeFrom, hb, hrest]

theorem decode_unblanked (text : Bytes) : decode (unblanked text) = decode text :=
  decodeFrom_unblanked [] text

/-! ## Sextets -/

theorem octets_append {xs : List Nat} (h : xs.length % 4 = 0) (ys : List Nat) :
    octets (xs ++ ys) = octets xs ++ octets ys := by
  induction xs using octets.induct with
  | case1 a b c d rest ih =>
    have hrest : rest.length % 4 = 0 := by
      simp only [List.length_cons] at h
      omega
    simp only [List.cons_append, octets, ih hrest]
  | case2 a b c => simp at h
  | case3 a b => simp at h
  | case4 xs four three two =>
    rcases xs with _ | ⟨a, _ | ⟨b, _ | ⟨c, _ | ⟨d, rest⟩⟩⟩⟩
    · rfl
    · simp at h
    · exact (two a b rfl).elim
    · exact (three a b c rfl).elim
    · exact (four a b c d rest rfl).elim

theorem toUInt8_eq {n : Nat} {a : UInt8} (h : n = a.toNat) : n.toUInt8 = a := by
  rw [h]
  exact UInt8.ofNat_toNat

/-- **Octets come back from their sextets.** -/
theorem octets_sextets (b : Bytes) : octets (sextets b) = b := by
  induction b using sextets.induct with
  | case1 a b c rest ih =>
    have ha := a.toNat_lt
    have hb := b.toNat_lt
    have hc := c.toNat_lt
    have h₁ : (a.toNat / 4 * 4 + (a.toNat % 4 * 16 + b.toNat / 16) / 16).toUInt8 = a :=
      toUInt8_eq (by omega)
    have h₂ : ((a.toNat % 4 * 16 + b.toNat / 16) % 16 * 16 +
        (b.toNat % 16 * 4 + c.toNat / 64) / 4).toUInt8 = b := toUInt8_eq (by omega)
    have h₃ : ((b.toNat % 16 * 4 + c.toNat / 64) % 4 * 64 + c.toNat % 64).toUInt8 = c :=
      toUInt8_eq (by omega)
    simp only [sextets, octets, h₁, h₂, h₃, ih]
  | case2 a b =>
    have ha := a.toNat_lt
    have hb := b.toNat_lt
    have h₁ : (a.toNat / 4 * 4 + (a.toNat % 4 * 16 + b.toNat / 16) / 16).toUInt8 = a :=
      toUInt8_eq (by omega)
    have h₂ : ((a.toNat % 4 * 16 + b.toNat / 16) % 16 * 16 + b.toNat % 16 * 4 / 4).toUInt8 = b :=
      toUInt8_eq (by omega)
    simp only [sextets, octets, h₁, h₂]
  | case3 a =>
    have ha := a.toNat_lt
    have h₁ : (a.toNat / 4 * 4 + a.toNat % 4 * 16 / 16).toUInt8 = a := toUInt8_eq (by omega)
    simp only [sextets, octets, h₁]
  | case4 => rfl

theorem sextets_lt (b : Bytes) : ∀ n ∈ sextets b, n < 64 := by
  induction b using sextets.induct with
  | case1 a b c rest ih =>
    have ha := a.toNat_lt
    have hb := b.toNat_lt
    have hc := c.toNat_lt
    simp only [sextets, List.forall_mem_cons]
    exact ⟨by omega, by omega, by omega, by omega, ih⟩
  | case2 a b =>
    have ha := a.toNat_lt
    have hb := b.toNat_lt
    simp only [sextets, List.forall_mem_cons]
    exact ⟨by omega, by omega, by omega, nofun⟩
  | case3 a =>
    have ha := a.toNat_lt
    simp only [sextets, List.forall_mem_cons]
    exact ⟨by omega, by omega, nofun⟩
  | case4 => exact nofun

/-- No octets leave a single sextet in the last block. -/
theorem length_sextets (b : Bytes) : (sextets b).length % 4 ≠ 1 := by
  induction b using sextets.induct with
  | case1 a b c rest ih =>
    simp only [sextets, List.length_cons]
    omega
  | case2 | case3 | case4 => simp [sextets]

theorem encode_eq (b : Bytes) :
    encode b = (sextets b).map letter ++ List.replicate (padsFor (sextets b).length) pad := by
  induction b using sextets.induct with
  | case1 a b c rest ih =>
    have hpads : padsFor ((sextets rest).length + 1 + 1 + 1 + 1) = padsFor (sextets rest).length := by
      unfold padsFor
      omega
    simp only [sextets, encode, List.map_cons, List.length_cons, hpads, List.cons_append, ih]
  | case2 | case3 | case4 => rfl

/-- What is neither a letter nor a pad stands in no text of octets. -/
theorem not_mem_encode {c : UInt8} (hletter : sextet? c = none) (hpad : c ≠ pad) (b : Bytes) :
    c ∉ encode b := by
  rw [encode_eq, List.mem_append, List.mem_map]
  rintro (⟨n, hn, rfl⟩ | hc)
  · rw [sextet?_letter n (sextets_lt b n hn)] at hletter
    cases hletter
  · exact hpad (List.eq_of_mem_replicate hc)

/-! ## Blocks -/

theorem dataOf_block (xs : List Nat) (pads : Nat) :
    dataOf (xs.map some ++ List.replicate pads none) = xs := by
  induction xs with
  | nil => cases pads <;> rfl
  | cons x xs ih => exact congrArg (x :: ·) ih

theorem finish_block {xs : List Nat} (h : xs.length % 4 ≠ 1) :
    finish (xs.map some ++ List.replicate (padsFor xs.length) none) = .ok (octets xs) := by
  have hdrop : (xs.map some ++ List.replicate (padsFor xs.length) none).drop xs.length =
      List.replicate (padsFor xs.length) none := by
    rw [List.drop_append_of_le_length (Nat.le_of_eq (List.length_map some).symm)]
    simp
  have hnone : (List.replicate (padsFor xs.length) (none : Option Nat)).any (·.isSome) = false := by
    simp
  have hlength : (xs.map some ++ List.replicate (padsFor xs.length) none).length =
      xs.length + padsFor xs.length := by simp
  unfold finish
  simp only [dataOf_block, hdrop, hnone, hlength, Nat.add_sub_cancel_left, Bool.false_eq_true,
    if_false]
  by_cases hzero : padsFor xs.length = 0
  · rw [if_pos hzero, if_neg h]
  · have hfits : padsFor xs.length ≤ 2 ∧ (xs.length + padsFor xs.length) % 4 = 0 := by
      unfold padsFor
      omega
    rw [if_neg hzero, if_pos]
    simpa using hfits

theorem decodeFrom_pads {block : List (Option Nat)} {pads : Nat} (h : block.length + pads ≤ 8) :
    decodeFrom block (List.replicate pads pad) = finish (block ++ List.replicate pads none) := by
  induction pads generalizing block with
  | zero => rw [List.replicate_zero, List.replicate_zero, List.append_nil, decodeFrom]
  | succ pads ih =>
    have hpad : sextet? pad = none := by decide
    have hroom : block.length < 8 := by omega
    have hmore : (block ++ [none]).length + pads ≤ 8 := by
      rw [List.length_append, List.length_singleton]
      omega
    rw [List.replicate_succ, decodeFrom, isBlank_pad]
    simp only [Bool.false_eq_true, if_false, hpad, Option.isNone_none, ne_eq, not_true,
      decide_false, Bool.and_false, if_pos hroom]
    rw [ih hmore, List.append_assoc, List.singleton_append, ← List.replicate_succ]

/-- A letter goes to the block at hand, or to the next one if that is full. -/
theorem decodeFrom_letter {xs : List Nat} {y : Nat} (hy : y < 64) (rest : Bytes) :
    decodeFrom (xs.map some) (letter y :: rest) =
      if xs.length < 8 then decodeFrom ((xs ++ [y]).map some) rest
      else (decodeFrom ([y].map some) rest).map (octets xs ++ ·) := by
  have hdata : dataOf (xs.map some) = xs := by
    have h := dataOf_block xs 0
    rwa [List.replicate_zero, List.append_nil] at h
  have hany : (xs.map some).any isPad = false := by simp [isPad]
  rw [decodeFrom, isBlank_letter hy]
  simp only [Bool.false_eq_true, if_false, sextet?_letter y hy, Option.isNone_some, Bool.false_and,
    List.length_map, hany, hdata, List.map_append, List.map_cons, List.map_nil]

theorem decodeFrom_sextets {xs ys : List Nat} (hroom : xs.length ≤ 8) (hys : ∀ y ∈ ys, y < 64)
    (h : (xs.length + ys.length) % 4 ≠ 1) :
    decodeFrom (xs.map some) (ys.map letter ++
      List.replicate (padsFor (xs.length + ys.length)) pad) = .ok (octets (xs ++ ys)) := by
  induction ys generalizing xs with
  | nil =>
    have hle : (xs.map some).length + padsFor xs.length ≤ 8 := by
      unfold padsFor
      rw [List.length_map]
      omega
    rw [List.map_nil, List.nil_append, List.append_nil, List.length_nil, Nat.add_zero,
      decodeFrom_pads hle]
    exact finish_block h
  | cons y ys ih =>
    obtain ⟨hy, hrest⟩ := List.forall_mem_cons.1 hys
    rw [List.map_cons, List.cons_append, decodeFrom_letter hy]
    by_cases hfull : xs.length < 8
    · have hsame : (xs ++ [y]).length + ys.length = xs.length + (y :: ys).length := by
        simp only [List.length_append, List.length_cons, List.length_nil]
        omega
      have hroom : (xs ++ [y]).length ≤ 8 := by
        rw [List.length_append]
        exact hfull
      have hnext := ih hroom hrest (hsame ▸ h)
      rw [List.append_assoc, List.singleton_append] at hnext
      rwa [if_pos hfull, ← hsame]
    · have height : xs.length = 8 := by omega
      have hpads : padsFor (xs.length + (y :: ys).length) = padsFor ([y].length + ys.length) := by
        unfold padsFor
        simp only [List.length_cons, List.length_nil]
        omega
      have hlength : ([y].length + ys.length) % 4 ≠ 1 := by
        simp only [List.length_cons, List.length_nil] at h ⊢
        omega
      have hwhole : xs.length % 4 = 0 := by omega
      have hroom : [y].length ≤ 8 := Nat.le_add_left 1 7
      have hnext := ih hroom hrest hlength
      rw [if_neg hfull, hpads, hnext]
      show Except.ok (octets xs ++ octets (y :: ys)) = _
      rw [octets_append hwhole]

/-! ## Top theorem -/

/-- **Octets come back from what is written of them**, wherever the text is broken by blanks. -/
theorem decode_of_unblanked {text b : Bytes} (h : unblanked text = encode b) :
    decode text = .ok b := by
  have hroom : ([] : List Nat).length ≤ 8 := Nat.zero_le _
  have hlength : (([] : List Nat).length + (sextets b).length) % 4 ≠ 1 := by
    rw [List.length_nil, Nat.zero_add]
    exact length_sextets b
  have hall := decodeFrom_sextets hroom (sextets_lt b) hlength
  rw [List.length_nil, Nat.zero_add, List.nil_append, octets_sextets] at hall
  rw [← decode_unblanked, h, encode_eq]
  exact hall

end Switchboard.Base64
