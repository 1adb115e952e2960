import Switchboard.Json.Print
import Switchboard.Proofs.Json.Integers
import Switchboard.Proofs.Json.Names
import Switchboard.Proofs.Text.Pieces

/-!
# What is written

A string is written with its characters escaped, each for itself, and a natural number as the digits
that denote it.

    quote s = quote mark ++ escaped s ++ quote mark, and escaped s spells s
    toString n denotes n
-/

namespace Switchboard.Json

open Text

/-! ## Strings -/

/-- What stands between the quotes when a string is written. -/
def escaped (s : String) : Bytes := encode (s.toList.flatMap escapeChar)

theorem bytes_quote (s : String) : bytes (quote s) = 34 :: (escaped s ++ [34]) := by
  have hopen : String.utf8EncodeChar '"' = [34] := by decide
  have hclose : encode ['"'] = [34] := by decide
  rw [bytes_eq_encode, quote, String.toList_ofList, List.cons_append, encode_cons, encode_append,
    hopen, hclose]
  rfl

/-- The bytes of a character that needs no escape stand for themselves. -/
theorem isPlain_of_encodeChar {c : Char} (hquote : c ≠ '"') (hslash : c ≠ '\\')
    (hlow : ¬ c.toNat < 32) : ∀ b ∈ String.utf8EncodeChar c, isPlain b = true := by
  intro b hb
  by_cases hone : c.val.toNat ≤ 127
  · simp only [String.utf8EncodeChar, if_pos hone, List.mem_singleton] at hb
    have hval : b.toNat = c.toNat := by
      rw [hb, UInt8.toNat_ofNat']
      exact Nat.mod_eq_of_lt (by omega)
    have hne : ∀ d : Char, c ≠ d → b.toNat ≠ d.toNat := by
      intro d hd h
      rw [hval] at h
      exact hd (Char.toNat_inj.1 h)
    refine isPlain_iff.2 ⟨fun h => hne '"' hquote ?_, fun h => hne '\\' hslash ?_, fun h => ?_⟩
    · rw [h]
      rfl
    · rw [h]
      rfl
    · rw [UInt8.lt_iff_toNat_lt, hval] at h
      exact hlow h
  · obtain ⟨a, ha⟩ | hhigh := encode_char c
    · simp only [String.utf8EncodeChar, if_neg hone] at ha
      split at ha
      · cases ha
      · split at ha <;> cases ha
    · have hb128 := hhigh b hb
      refine isPlain_iff.2 ⟨?_, ?_, ?_⟩
      · rintro rfl
        exact hb128 (by decide)
      · rintro rfl
        exact hb128 (by decide)
      · intro h
        exact hb128 (UInt8.lt_trans h (by decide))

/-- Two digits stand for a number below 32, behind two zeros. -/
theorem hexFour_hexTwo {n : Nat} (hn : n < 32) :
    ∃ a b, encode (hexTwo n) = [a, b] ∧ hexFour 48 48 a b = some n := by
  have hall : ∀ n < 32, hexFour 48 48 (UInt8.ofNat (Nat.digitChar (n / 16)).toNat)
      (UInt8.ofNat (Nat.digitChar (n % 16)).toNat) = some n := by decide
  have hencode : ∀ n < 32, encode (hexTwo n) = [UInt8.ofNat (Nat.digitChar (n / 16)).toNat,
      UInt8.ofNat (Nat.digitChar (n % 16)).toNat] := by decide
  exact ⟨_, _, hencode n hn, hall n hn⟩

/-- A character is written as something that stands for it. -/
theorem spells_escapeChar (c : Char) {raw : Bytes} {name : String} (h : Spells raw name) :
    Spells (encode (escapeChar c) ++ raw) (String.singleton c ++ name) := by
  have letter : ∀ {d : Char} {b : UInt8}, c = d → letterEscape b = some d →
      Spells (92 :: b :: raw) (String.singleton c ++ name) := by
    rintro d b rfl hb
    exact .escape (x := [b]) (.letter hb) h
  unfold escapeChar
  split
  · next hc => exact letter (b := 34) hc rfl
  split
  · next hc => exact letter (b := 92) hc rfl
  split
  · next hc => exact letter (b := 110) hc rfl
  split
  · next hc => exact letter (b := 114) hc rfl
  split
  · next hc => exact letter (b := 116) hc rfl
  split
  · next hc => exact letter (b := 98) hc rfl
  split
  · next hc => exact letter (b := 102) hc rfl
  split
  · next hlow =>
    obtain ⟨a, b, hab, hn⟩ := hexFour_hexTwo hlow
    have hstart : encode ['\\', 'u', '0', '0'] = [92, 117, 48, 48] := by decide
    have hnone : isHighSurrogate c.toNat = false ∧ isLowSurrogate c.toNat = false := by
      simp only [isHighSurrogate, isLowSurrogate, Bool.and_eq_false_iff, decide_eq_false_iff_not]
      omega
    rw [encode_append, hstart, hab]
    have hpoint := Spells.escape (.point hn hnone) h
    rwa [Char.ofNat_toNat] at hpoint
  · next hquote hslash _ _ _ _ _ hlow =>
    have hbytes : bytes (String.singleton c) = String.utf8EncodeChar c := by
      rw [bytes_eq_encode, String.toList_singleton, encode_cons]
      exact List.append_nil _
    have hone : encode [c] = bytes (String.singleton c) := by
      rw [hbytes, encode_cons]
      exact List.append_nil _
    rw [hone]
    refine .plain ?_ h
    rw [hbytes]
    exact isPlain_of_encodeChar hquote hslash hlow

/-- **What is written of a string spells it.** -/
theorem spells_escaped (s : String) : Spells (escaped s) s := by
  have hchars : ∀ cs : List Char, Spells (encode (cs.flatMap escapeChar)) (String.ofList cs) := by
    intro cs
    induction cs with
    | nil => exact .nil
    | cons c cs ih =>
      have hcons : String.ofList (c :: cs) = String.singleton c ++ String.ofList cs := by
        rw [String.ofList_cons]
      rw [List.flatMap_cons, encode_append, hcons]
      exact spells_escapeChar c ih
  have h := hchars s.toList
  rwa [String.ofList_toList] at h

/-- What spells a text ends no string. -/
theorem Spells.inside {raw : Bytes} {name : String} (h : Spells raw name) : Inside raw := by
  have run : ∀ {t s : Bytes}, (∀ b ∈ t, isPlain b = true) → Inside s → Inside (t ++ s) := by
    intro t s ht hs
    induction t with
    | nil => exact hs
    | cons b t ih =>
      exact .plain (ht b List.mem_cons_self) (ih fun c hc => ht c (List.mem_cons_of_mem _ hc))
  induction h with
  | nil => exact .nil
  | plain ht _ ih => exact run ht ih
  | escape hx _ ih =>
    cases hx with
    | letter hb => exact .letter (Option.isSome_of_eq_some hb) ih
    | point hn => exact .point (Option.isSome_of_eq_some hn) ih
    | pair hn _ hn' =>
      exact .point (Option.isSome_of_eq_some hn) (.point (Option.isSome_of_eq_some hn') ih)

/-! ## Numbers -/

theorem valueOf_append_digit (ds : Bytes) (d : UInt8) :
    valueOf (ds ++ [d]) = valueOf ds * 10 + digitValue d := by
  rw [valueOf, List.foldl_append]
  rfl

/-- The decimal digits of a number denote it, and do not begin with a zero. -/
theorem whole_toDigits (n : Nat) :
    Whole (encode (Nat.toDigits 10 n)) ∧ valueOf (encode (Nat.toDigits 10 n)) = n := by
  have digit : ∀ d < 10, ∃ b, encode [Nat.digitChar d] = [b] ∧ isDigit b = true ∧
      digitValue b = d ∧ (b = 48 → d = 0) := by
    intro d hd
    have hall : ∀ d < 10, encode [Nat.digitChar d] = [UInt8.ofNat (48 + d)] ∧
        isDigit (UInt8.ofNat (48 + d)) = true ∧ digitValue (UInt8.ofNat (48 + d)) = d ∧
        (UInt8.ofNat (48 + d) = 48 → d = 0) := by decide
    exact ⟨_, hall d hd⟩
  induction n using Nat.strongRecOn with
  | ind n ih =>
    by_cases hn : n < 10
    · obtain ⟨b, hb, hdigit, hvalue, hzero⟩ := digit n hn
      rw [Nat.toDigits_of_lt_base hn, hb]
      refine ⟨⟨⟨List.cons_ne_nil _ _, ?_⟩, ?_⟩, ?_⟩
      · intro d hd
        rw [List.mem_singleton.1 hd]
        exact hdigit
      · intro h
        rw [Option.some.inj h]
      · show 0 * 10 + digitValue b = n
        omega
    · obtain ⟨⟨⟨hne, hdigits⟩, hwhole⟩, hvalue⟩ := ih (n / 10) (by omega)
      obtain ⟨b, hb, hdigit, hlast, -⟩ := digit (n % 10) (by omega)
      rw [Nat.toDigits_of_base_le (by decide) (by omega), encode_append, hb]
      obtain ⟨d, ds, hds⟩ := List.exists_cons_of_ne_nil hne
      refine ⟨⟨⟨?_, ?_⟩, ?_⟩, ?_⟩
      · exact List.append_ne_nil_of_left_ne_nil hne _
      · intro e he
        rcases List.mem_append.1 he with he | he
        · exact hdigits e he
        · rw [List.mem_singleton.1 he]
          exact hdigit
      · -- a zero in front would make all but the last digit zero
        intro hzero
        rw [hds] at hzero hwhole hvalue
        have hone := hwhole hzero
        rw [hone] at hvalue
        have hquotient : (0 : Nat) = n / 10 := hvalue
        omega
      · rw [valueOf_append_digit, hvalue, hlast]
        omega

/-- **What is written of a number denotes it.** -/
theorem denotes_toString (n : Nat) : Denotes (bytes (toString (n : Int))) n := by
  have htext : toString (n : Int) = String.ofList (Nat.toDigits 10 n) :=
    Nat.toString_eq_ofList_toDigits
  obtain ⟨hwhole, hvalue⟩ := whole_toDigits n
  rw [htext, bytes_eq_encode, String.toList_ofList]
  have hplain := Denotes.plain hwhole
  rwa [hvalue] at hplain

theorem written_natural {S : Bytes → Prop} (n : Nat) :
    Written S .value (bytes (toString (n : Int))) := .number (denotes_toString n).numeral

/-! ## Members -/

/-- A name as it is written, a colon, and a value are a member. -/
theorem memberText_quote {S : Bytes → Prop} (name : String) {g v : Bytes} (hg : Gap g)
    (hv : Written S .value v) :
    MemberText S ⟨name, v⟩ (bytes (quote name) ++ 58 :: (g ++ v)) := by
  refine ⟨[], escaped name, [], g, gap_nil, spells_escaped name, gap_nil, hg, hv, ?_⟩
  rw [bytes_quote]
  simp

end Switchboard.Json
