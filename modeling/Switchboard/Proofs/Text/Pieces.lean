import Mathlib.Data.List.Basic
import Switchboard.Text.Utf8

/-!
# Texts and their pieces

Bytes are a text if they are the characters of one, each by itself (`isText_iff`).  No byte below 128
is part of a longer character, so a text can be cut there.

    IsText (x ++ y) ← IsText x, IsText y
    IsText (x ++ a :: y) ↔ IsText x ∧ IsText y      for a < 128
-/

namespace Switchboard.Text

/-- The bytes are those of a text. -/
def IsText (b : Bytes) : Prop := (text? b).isSome = true

/-- No byte is part of a longer character. -/
def Low (b : Bytes) : Prop := ∀ a ∈ b, a < 128

def encode (cs : List Char) : Bytes := cs.flatMap String.utf8EncodeChar

variable {x y : Bytes} {a : UInt8}

/-! ## Characters -/

theorem bytes_eq_encode (s : String) : bytes s = encode s.toList := by
  rw [bytes, ← String.utf8Encode_toList, List.utf8Encode, List.data_toByteArray,
    List.toList_toArray, encode]

theorem isText_iff {b : Bytes} : IsText b ↔ ∃ cs, b = encode cs := by
  constructor
  · intro h
    obtain ⟨s, hs⟩ := Option.isSome_iff_exists.1 h
    exact ⟨s.toList, by rw [← bytes_of_text? hs, bytes_eq_encode]⟩
  · rintro ⟨cs, rfl⟩
    have h := text?_bytes (String.ofList cs)
    rw [bytes_eq_encode, String.toList_ofList] at h
    rw [IsText, h]
    rfl

theorem not_low {n : Nat} (hlow : 128 ≤ n) (hhigh : n < 256) : ¬ UInt8.ofNat n < 128 := by
  rw [UInt8.lt_iff_toNat_lt, UInt8.toNat_ofNat', Nat.mod_eq_of_lt hhigh]
  exact Nat.not_lt.2 hlow

/-- A character is one byte, or no byte of it is below 128. -/
theorem encode_char (c : Char) :
    (∃ a, String.utf8EncodeChar c = [a]) ∨ ∀ a ∈ String.utf8EncodeChar c, ¬ a < 128 := by
  simp only [String.utf8EncodeChar]
  generalize c.val.toNat = v
  by_cases hone : v ≤ 127
  · exact .inl ⟨UInt8.ofNat v, if_pos hone⟩
  · right
    rw [if_neg hone]
    intro a ha
    split at ha
    · simp only [List.mem_cons, List.not_mem_nil, or_false] at ha
      rcases ha with rfl | rfl <;> exact not_low (by omega) (by omega)
    · split at ha
      · simp only [List.mem_cons, List.not_mem_nil, or_false] at ha
        rcases ha with rfl | rfl | rfl <;> exact not_low (by omega) (by omega)
      · simp only [List.mem_cons, List.not_mem_nil, or_false] at ha
        rcases ha with rfl | rfl | rfl | rfl <;> exact not_low (by omega) (by omega)

/-! ## Pieces -/

theorem encode_cons (c : Char) (cs : List Char) :
    encode (c :: cs) = String.utf8EncodeChar c ++ encode cs := List.flatMap_cons

theorem encode_append (cs ds : List Char) : encode (cs ++ ds) = encode cs ++ encode ds :=
  List.flatMap_append

theorem isText_nil : IsText [] := isText_iff.2 ⟨[], rfl⟩

theorem isText_bytes (s : String) : IsText (bytes s) := isText_iff.2 ⟨s.toList, bytes_eq_encode s⟩

theorem IsText.append (hx : IsText x) (hy : IsText y) : IsText (x ++ y) := by
  obtain ⟨cs, rfl⟩ := isText_iff.1 hx
  obtain ⟨ds, rfl⟩ := isText_iff.1 hy
  exact isText_iff.2 ⟨cs ++ ds, (encode_append cs ds).symm⟩

theorem isText_singleton (ha : a < 128) : IsText [a] := by
  have hlt : a.toNat < 128 := UInt8.lt_iff_toNat_lt.1 ha
  have hval : a.toUInt32.toNat = a.toNat := UInt8.toNat_toUInt32 a
  have hvalid : a.toUInt32.toNat < 0xD800 := by omega
  refine isText_iff.2 ⟨[⟨a.toUInt32, .inl hvalid⟩], ?_⟩
  simp only [encode, List.flatMap_cons, List.flatMap_nil, List.append_nil, String.utf8EncodeChar,
    hval, if_pos (Nat.le_of_lt_succ hlt), UInt8.ofNat_toNat]

/-- A byte below 128 is a character of its own: what stands before and behind it is text. -/
theorem isText_of_encode {cs : List Char} (ha : a < 128) (h : encode cs = x ++ a :: y) :
    IsText x ∧ IsText y := by
  induction cs generalizing x with
  | nil => simp [encode] at h
  | cons c cs ih =>
    have hchar : IsText (String.utf8EncodeChar c) :=
      isText_iff.2 ⟨[c], (List.append_nil _).symm.trans (encode_cons c []).symm⟩
    rw [encode_cons] at h
    obtain ⟨z, rfl, hz⟩ | ⟨z, hc, hz⟩ := List.append_eq_append_iff.1 h
    · obtain ⟨hx, hy⟩ := ih hz
      exact ⟨hchar.append hx, hy⟩
    · cases z with
      | nil =>
        rw [List.append_nil] at hc
        exact ⟨hc ▸ hchar, (ih (x := []) hz.symm).2⟩
      | cons b z =>
        obtain ⟨rfl, rfl⟩ := List.cons.inj hz
        obtain ⟨b, hb⟩ | hb := encode_char c
        · rw [hb] at hc
          obtain ⟨rfl, hnil⟩ | ⟨-, hw⟩ := List.singleton_eq_append_iff.1 hc
          · obtain ⟨-, rfl⟩ := List.cons.inj hnil
            exact ⟨isText_nil, isText_iff.2 ⟨cs, rfl⟩⟩
          · cases hw
        · exact absurd ha (hb a (hc ▸ List.mem_append_right x List.mem_cons_self))

/-- **A text is cut at any byte below 128.** -/
theorem isText_append_cons (ha : a < 128) : IsText (x ++ a :: y) ↔ IsText x ∧ IsText y := by
  constructor
  · intro h
    obtain ⟨cs, hcs⟩ := isText_iff.1 h
    exact isText_of_encode ha hcs.symm
  · rintro ⟨hx, hy⟩
    exact hx.append ((isText_singleton ha).append hy)

theorem isText_cons (ha : a < 128) : IsText (a :: y) ↔ IsText y := by
  have h := isText_append_cons (x := []) (y := y) ha
  rw [List.nil_append] at h
  exact h.trans ⟨fun h => h.2, fun h => ⟨isText_nil, h⟩⟩

/-- In front of a text, bytes below 128 change nothing. -/
theorem isText_low_append (hx : Low x) : IsText (x ++ y) ↔ IsText y := by
  induction x with
  | nil => rfl
  | cons a x ih =>
    rw [List.cons_append, isText_cons (hx a List.mem_cons_self),
      ih fun b hb => hx b (List.mem_cons_of_mem a hb)]

theorem isText_append_low (hy : Low y) : IsText (x ++ y) ↔ IsText x := by
  induction y generalizing x with
  | nil => rw [List.append_nil]
  | cons a y ih =>
    have hsplit : x ++ a :: y = (x ++ [a]) ++ y := by simp
    rw [hsplit, ih fun b hb => hy b (List.mem_cons_of_mem a hb),
      isText_append_cons (hy a List.mem_cons_self)]
    exact ⟨fun h => h.1, fun h => ⟨h, isText_nil⟩⟩

theorem Low.isText (hx : Low x) : IsText x := by
  have hcut := isText_low_append (y := []) hx
  rw [List.append_nil] at hcut
  exact hcut.2 isText_nil

theorem low_nil : Low [] := nofun

theorem Low.cons (ha : a < 128) (hx : Low x) : Low (a :: x) := fun _ hb =>
  (List.mem_cons.1 hb).elim (fun hb => hb ▸ ha) (hx _)

theorem Low.append (hx : Low x) (hy : Low y) : Low (x ++ y) := fun b hb =>
  (List.mem_append.1 hb).elim (hx b) (hy b)

end Switchboard.Text
