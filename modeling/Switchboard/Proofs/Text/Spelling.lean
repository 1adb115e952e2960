import Mathlib.Logic.Basic
import Switchboard.Text.Numeral
import Switchboard.Text.Percent

/-!
# How integers are spelled

An integer is spelled by its decimal digits, with leading zeros or without, behind a sign or none
(`Signed`); and any byte of a text may be given as an escape (`Escaped`).  What is read is exactly
what is spelled.

    signed? s = some n ↔ Signed s n
    unescape s = t ↔ Escaped s t
-/

namespace Switchboard.Text

/-! ## Specification -/

/-- Decimal digits, one at least. -/
def Digits (ds : List Char) : Prop := ds ≠ [] ∧ ∀ c ∈ ds, c.isDigit = true

/-- The number of which these are the digits, the last one for the units. -/
def value (ds : List Char) : Nat := Nat.ofDigitChars 10 ds 0

/-- An integer as it is typed: a sign or none, and digits. -/
inductive Signed : List Char → Int → Prop
  | plain {ds : List Char} (h : Digits ds) : Signed ds (value ds)
  | plus {ds : List Char} (h : Digits ds) : Signed ('+' :: ds) (value ds)
  | minus {ds : List Char} (h : Digits ds) : Signed ('-' :: ds) (-(value ds : Int))

/-- A hexadecimal digit: 0 to 9, a to f or A to F. -/
inductive HexDigit (b : UInt8) (x : Nat) : Prop
  | decimal (hb : b.toNat = 48 + x) (hx : x < 10)
  | lower (hb : b.toNat = 97 + (x - 10)) (hx : 10 ≤ x ∧ x < 16)
  | upper (hb : b.toNat = 65 + (x - 10)) (hx : 10 ≤ x ∧ x < 16)

/-- An escape begins here: a percent sign and two hexadecimal digits, which give a byte. -/
inductive Escape : Bytes → UInt8 → Bytes → Prop
  | mk {a b : UInt8} {x y : Nat} {s : Bytes} (ha : HexDigit a x) (hb : HexDigit b y) :
      Escape (37 :: a :: b :: s) (.ofNat (16 * x + y)) s

/-- The bytes that stand for others: escapes for the bytes they give, all else for itself. -/
inductive Escaped : Bytes → Bytes → Prop
  | nil : Escaped [] []
  | escape {s r t : Bytes} {c : UInt8} (h : Escape s c r) (hr : Escaped r t) : Escaped s (c :: t)
  | plain {s t : Bytes} {c : UInt8} (h : ∀ b r, ¬ Escape (c :: s) b r) (hs : Escaped s t) :
      Escaped (c :: s) (c :: t)

variable {s t : Bytes} {cs ds : List Char} {n : Int}

/-! ## Digits -/

theorem isDigit_eq (c : Char) : isDigit c = c.isDigit := rfl

theorem digitsValue_eq_value (ds : List Char) : digitsValue ds = value ds := by
  simp only [digitsValue, value, Nat.ofDigitChars, Nat.mul_comm]
  rfl

theorem digits?_eq_some_iff {m : Nat} : digits? ds = some m ↔ Digits ds ∧ value ds = m := by
  have hcond : (ds.isEmpty || !ds.all isDigit) = true ↔ ¬ Digits ds := by
    simp [Digits, isDigit_eq, imp_iff_not_or]
  rw [digits?, digitsValue_eq_value]
  by_cases h : Digits ds
  · rw [if_neg (hcond.not.2 (not_not.2 h)), Option.some.injEq]
    exact ⟨fun hm => ⟨h, hm⟩, fun hm => hm.2⟩
  · rw [if_pos (hcond.2 h)]
    exact ⟨nofun, fun hm => absurd hm.1 h⟩

theorem not_digits_sign {c : Char} (hc : c.isDigit = false) : ¬ Digits (c :: ds) := fun h =>
  Bool.false_ne_true (hc.symm.trans (h.2 c List.mem_cons_self))

/-- A plus sign in front of digits says nothing. -/
theorem natural?_eq_some_iff {m : Nat} : natural? cs = some m ↔
    ∃ ds, (cs = ds ∨ cs = '+' :: ds) ∧ Digits ds ∧ value ds = m := by
  unfold natural?
  split
  next ds =>
    rw [digits?_eq_some_iff]
    constructor
    · exact fun h => ⟨ds, .inr rfl, h⟩
    · rintro ⟨es, rfl | h, hes, hm⟩
      · exact absurd hes (not_digits_sign rfl)
      · cases h
        exact ⟨hes, hm⟩
  next hplus =>
    rw [digits?_eq_some_iff]
    constructor
    · exact fun h => ⟨cs, .inl rfl, h⟩
    · rintro ⟨es, rfl | h, hes⟩
      · exact hes
      · exact absurd h (hplus es)

theorem map_coe_eq_some_iff {o : Option Nat} {f : Int → Int} :
    (o : Option Int).map f = some n ↔ ∃ m, o = some m ∧ f m = n := by
  cases o <;> simp [bind, Option.bind, pure]

/-- **Which texts are read as integers.** -/
theorem signed?_eq_some_iff : signed? cs = some n ↔ Signed cs n := by
  unfold signed?
  split
  next ds =>
    rw [map_coe_eq_some_iff]
    simp only [digits?_eq_some_iff]
    constructor
    · rintro ⟨_, ⟨hds, rfl⟩, rfl⟩
      exact .minus hds
    · rintro (hds | hds | hds)
      · exact absurd hds (not_digits_sign rfl)
      · exact ⟨_, ⟨hds, rfl⟩, rfl⟩
  next hminus =>
    rw [map_coe_eq_some_iff]
    simp only [natural?_eq_some_iff]
    constructor
    · rintro ⟨_, ⟨ds, rfl | rfl, hds, rfl⟩, rfl⟩
      · exact .plain hds
      · exact .plus hds
    · rintro (hds | hds | hds)
      · exact ⟨_, ⟨_, .inl rfl, hds, rfl⟩, rfl⟩
      · exact ⟨_, ⟨_, .inr rfl, hds, rfl⟩, rfl⟩
      · exact absurd rfl (hminus _)

/-! ## Escapes -/

theorem hexDigit?_eq_some_iff {b : UInt8} {x : Nat} : hexDigit? b = some x ↔ HexDigit b x := by
  have hrange : ∀ low high : UInt8,
      (low ≤ b && b ≤ high) = true ↔ low.toNat ≤ b.toNat ∧ b.toNat ≤ high.toNat := by
    intro low high
    rw [Bool.and_eq_true, decide_eq_true_eq, decide_eq_true_eq, UInt8.le_iff_toNat_le,
      UInt8.le_iff_toNat_le]
  simp only [hexDigit?, hrange, UInt8.reduceToNat]
  constructor
  · intro h
    split at h
    · obtain rfl := Option.some.inj h
      exact .decimal (by omega) (by omega)
    · split at h
      · obtain rfl := Option.some.inj h
        exact .lower (by omega) (by omega)
      · split at h
        · obtain rfl := Option.some.inj h
          exact .upper (by omega) (by omega)
        · cases h
  · rintro (⟨hb, hx⟩ | ⟨hb, hx⟩ | ⟨hb, hx⟩)
    · rw [if_pos (by omega), hb, Nat.add_sub_cancel_left]
    · rw [if_neg (by omega), if_pos (by omega), Option.some.injEq]
      omega
    · rw [if_neg (by omega), if_neg (by omega), if_pos (by omega), Option.some.injEq]
      omega

theorem HexDigit.unique {b : UInt8} {x y : Nat} (hx : HexDigit b x) (hy : HexDigit b y) : x = y :=
  Option.some.inj ((hexDigit?_eq_some_iff.2 hx).symm.trans (hexDigit?_eq_some_iff.2 hy))

theorem Escape.unique {r r' : Bytes} {b b' : UInt8} (h : Escape s b r) (h' : Escape s b' r') :
    b = b' ∧ r = r' := by
  cases h with
  | mk ha hb =>
    cases h' with
    | mk ha' hb' =>
      rw [ha.unique ha', hb.unique hb']
      exact ⟨rfl, rfl⟩

/-- What an escape stands for is determined. -/
theorem Escaped.unique (h : Escaped s t) {t' : Bytes} (h' : Escaped s t') : t = t' := by
  induction h generalizing t' with
  | nil =>
    cases h' with
    | nil => rfl
    | escape he => cases he
  | escape he _ ih =>
    cases h' with
    | nil => cases he
    | escape he' hr =>
      obtain ⟨rfl, rfl⟩ := he.unique he'
      rw [ih hr]
    | plain hn => exact absurd he (hn _ _)
  | plain hn _ ih =>
    cases h' with
    | escape he => exact absurd he (hn _ _)
    | plain _ hs => rw [ih hs]

/-- By the recursion of the reader: an escape, a percent sign that begins none, any other byte. -/
theorem escaped_unescape (s : Bytes) : Escaped s (unescape s) := by
  fun_induction unescape s with
  | case1 a b rest x y hb ha ih =>
    exact .escape (.mk (hexDigit?_eq_some_iff.1 ha) (hexDigit?_eq_some_iff.1 hb)) ih
  | case2 a b rest hn ih =>
    refine .plain (fun c r he => ?_) ih
    cases he with
    | mk ha hb => exact hn _ _ (hexDigit?_eq_some_iff.2 ha) (hexDigit?_eq_some_iff.2 hb)
  | case3 b rest hn ih =>
    refine .plain (fun c r he => ?_) ih
    cases he
    exact hn _ _ _ rfl rfl
  | case4 => exact .nil

/-- **What an escaped text stands for.** -/
theorem unescape_eq_iff : unescape s = t ↔ Escaped s t :=
  ⟨fun h => h ▸ escaped_unescape s, fun h => (escaped_unescape s).unique h⟩

end Switchboard.Text
