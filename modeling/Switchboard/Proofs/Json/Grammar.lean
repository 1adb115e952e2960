import Mathlib.Data.List.TakeWhile
import Switchboard.Json.Skip

/-!
# The grammar of documents

What a document looks like, byte by byte, with no word on how it is read.  What may stand between
the quotes of a string is a parameter `S`: any bytes that end no string (`Inside`), or fewer.

    value   = null | true | false | numeral | "inside" | [items] | {items}
    items   = gap | item | item , items
    item    = gap value gap                         in a list
              gap "inside" gap : gap value gap      in an object
-/

namespace Switchboard.Json

/-! ## Specification -/

/-- White space between tokens. -/
def Gap (g : Bytes) : Prop := ∀ b ∈ g, isBlank b = true

/-- What can stand between the quotes of a string, as far as bytes tell: they need not be text, and
surrogates need no partner. -/
inductive Inside : Bytes → Prop
  | nil : Inside []
  | plain {b : UInt8} {s : Bytes} (hb : isPlain b = true) (hs : Inside s) : Inside (b :: s)
  | letter {b : UInt8} {s : Bytes} (hb : (letterEscape b).isSome = true) (hs : Inside s) :
      Inside (92 :: b :: s)
  | point {a b c d : UInt8} {s : Bytes} (hn : (hexFour a b c d).isSome = true) (hs : Inside s) :
      Inside (92 :: 117 :: a :: b :: c :: d :: s)

/-- The character that two surrogates stand for. -/
def pairOf (high low : Nat) : Char :=
  Char.ofNat ((high - 0xD800) * 0x400 + (low - 0xDC00) + 0x10000)

/-- What can stand behind a backslash, and the character it stands for. -/
inductive Escape : Bytes → Char → Prop
  | letter {b : UInt8} {c : Char} (hb : letterEscape b = some c) : Escape [b] c
  | point {a b c d : UInt8} {n : Nat} (hn : hexFour a b c d = some n)
      (hs : isHighSurrogate n = false ∧ isLowSurrogate n = false) :
      Escape [117, a, b, c, d] (Char.ofNat n)
  | pair {a b c d a' b' c' d' : UInt8} {high low : Nat} (hn : hexFour a b c d = some high)
      (hs : isHighSurrogate high = true) (hn' : hexFour a' b' c' d' = some low)
      (hs' : isLowSurrogate low = true) :
      Escape [117, a, b, c, d, 92, 117, a', b', c', d'] (pairOf high low)

/-- What stands between the quotes of a string, and the text that it spells. -/
inductive Spells : Bytes → String → Prop
  | nil : Spells [] ""
  | plain {t name : String} {raw : Bytes} (ht : ∀ b ∈ Text.bytes t, isPlain b = true)
      (h : Spells raw name) : Spells (Text.bytes t ++ raw) (t ++ name)
  | escape {x raw : Bytes} {c : Char} {name : String} (hx : Escape x c) (h : Spells raw name) :
      Spells (92 :: (x ++ raw)) (String.singleton c ++ name)

def Digits (ds : Bytes) : Prop := ds ≠ [] ∧ ∀ d ∈ ds, isDigit d = true

/-- The digits of an integer, which do not begin with a zero but for the zero alone. -/
def Whole (ds : Bytes) : Prop := Digits ds ∧ (ds.head? = some 48 → ds = [48])

def sign : Bool → Bytes
  | true => [45]
  | false => []

inductive Fraction : Bytes → Prop
  | absent : Fraction []
  | point {ds : Bytes} (hd : Digits ds) : Fraction (46 :: ds)

inductive Exponent : Bytes → Prop
  | absent : Exponent []
  | bare {e : UInt8} {ds : Bytes} (he : e = 101 ∨ e = 69) (hd : Digits ds) : Exponent (e :: ds)
  | signed {e s : UInt8} {ds : Bytes} (he : e = 101 ∨ e = 69) (hs : s = 43 ∨ s = 45)
      (hd : Digits ds) : Exponent (e :: s :: ds)

inductive Numeral : Bytes → Prop
  | mk (negative : Bool) {ds f e : Bytes} (hd : Whole ds) (hf : Fraction f) (he : Exponent e) :
      Numeral (sign negative ++ (ds ++ (f ++ e)))

def appendDigit (n : Nat) (d : UInt8) : Nat := n * 10 + digitValue d

/-- The number that digits denote. -/
def valueOf (ds : Bytes) : Nat := ds.foldl appendDigit 0

/-- An integer numeral, with neither fraction nor exponent, and the integer that it denotes; minus
zero is none. -/
inductive Denotes : Bytes → Int → Prop
  | plain {ds : Bytes} (hd : Whole ds) : Denotes ds (valueOf ds)
  | minus {ds : Bytes} (hd : Whole ds) (hz : ds ≠ [48]) : Denotes (45 :: ds) (-valueOf ds)

def Bracket.opening : Bracket → UInt8
  | list => 91
  | object => 123

/-- Parts of a document: a value; one item in a bracket; one item or more, between commas. -/
inductive Part where
  | value
  | item (k : Bracket)
  | items (k : Bracket)

inductive Written (S : Bytes → Prop) : Part → Bytes → Prop
  | null : Written S .value (110 :: nullTail)
  | tt : Written S .value (116 :: trueTail)
  | ff : Written S .value (102 :: falseTail)
  | number {v : Bytes} (hn : Numeral v) : Written S .value v
  | string {s : Bytes} (hs : S s) : Written S .value (34 :: (s ++ [34]))
  | empty (k : Bracket) {g : Bytes} (hg : Gap g) : Written S .value (k.opening :: (g ++ [k.close]))
  | filled {k : Bracket} {b : Bytes} (hb : Written S (.items k) b) :
      Written S .value (k.opening :: (b ++ [k.close]))
  | last {k : Bracket} {b : Bytes} (hb : Written S (.item k) b) : Written S (.items k) b
  | more {k : Bracket} {b bs : Bytes} (hb : Written S (.item k) b) (hbs : Written S (.items k) bs) :
      Written S (.items k) (b ++ 44 :: bs)
  | element {g v g' : Bytes} (hg : Gap g) (hv : Written S .value v) (hg' : Gap g') :
      Written S (.item .list) (g ++ (v ++ g'))
  | member {g s g₁ g₂ v g' : Bytes} (hg : Gap g) (hs : S s) (hg₁ : Gap g₁) (hg₂ : Gap g₂)
      (hv : Written S .value v) (hg' : Gap g') :
      Written S (.item .object) (g ++ 34 :: (s ++ 34 :: (g₁ ++ 58 :: (g₂ ++ (v ++ g')))))

/-- What follows an item in a bracket, up to its end: the others, each behind a comma. -/
inductive More {α : Type} (P : α → Bytes → Prop) : List α → Bytes → Prop
  | done {g : Bytes} (hg : Gap g) : More P [] g
  | next {g b t : Bytes} {a : α} {as : List α} (hg : Gap g) (ha : P a b) (hm : More P as t) :
      More P (a :: as) (g ++ 44 :: (b ++ t))

/-- What stands in a bracket, item by item. -/
inductive Body {α : Type} (P : α → Bytes → Prop) : List α → Bytes → Prop
  | empty {g : Bytes} (hg : Gap g) : Body P [] g
  | filled {b t : Bytes} {a : α} {as : List α} (ha : P a b) (hm : More P as t) :
      Body P (a :: as) (b ++ t)

/-- A document that is one bracket, with these items. -/
def Bracketed {α : Type} (k : Bracket) (P : α → Bytes → Prop) (as : List α) (b : Bytes) : Prop :=
  ∃ g body g', Gap g ∧ Body P as body ∧ Gap g' ∧ b = g ++ k.opening :: (body ++ k.close :: g')

/-- A member of an object: the text that its name spells, and its value as it is written. -/
structure Member where
  name : String
  value : Bytes

def ElementText (S : Bytes → Prop) (v : Bytes) (b : Bytes) : Prop :=
  ∃ g, Gap g ∧ Written S .value v ∧ b = g ++ v

def MemberText (S : Bytes → Prop) (m : Member) (b : Bytes) : Prop :=
  ∃ g raw g₁ g₂, Gap g ∧ Spells raw m.name ∧ Gap g₁ ∧ Gap g₂ ∧ Written S .value m.value ∧
    b = g ++ 34 :: (raw ++ 34 :: (g₁ ++ 58 :: (g₂ ++ m.value)))

/-- A document that is a list of these values. -/
def ListText (S : Bytes → Prop) : List Bytes → Bytes → Prop := Bracketed .list (ElementText S)

/-- A document that is an object of these members. -/
def ObjectText (S : Bytes → Prop) : List Member → Bytes → Prop := Bracketed .object (MemberText S)

/-- What stands behind a value and cannot be part of a numeral. -/
def Ends (rest : Bytes) : Prop :=
  ∀ b, rest.head? = some b → isDigit b = false ∧ b ≠ 46 ∧ b ≠ 101 ∧ b ≠ 69

/-! ## Gaps -/

theorem gap_nil : Gap [] := fun _ hb => by cases hb

theorem Gap.append {g g' : Bytes} (h : Gap g) (h' : Gap g') : Gap (g ++ g') :=
  fun b hb => (List.mem_append.1 hb).elim (h b) (h' b)

theorem skipBlank_append {g : Bytes} (hg : Gap g) (s : Bytes) :
    skipBlank (g ++ s) = skipBlank s := by
  rw [skipBlank, List.dropWhile_append_of_pos hg]
  rfl

theorem skipBlank_cons {b : UInt8} (hb : isBlank b = false) (s : Bytes) :
    skipBlank (b :: s) = b :: s := List.dropWhile_cons_of_neg (by rw [hb]; exact Bool.false_ne_true)

theorem skipBlank_gap_cons {g : Bytes} (hg : Gap g) {b : UInt8} (hb : isBlank b = false)
    (s : Bytes) : skipBlank (g ++ b :: s) = b :: s := (skipBlank_append hg _).trans (skipBlank_cons hb s)

theorem skipBlank_of_gap {g : Bytes} (hg : Gap g) : skipBlank g = [] := by
  have h := skipBlank_append hg []
  rwa [List.append_nil] at h

theorem not_of_dropWhile {p : UInt8 → Bool} {s rest : Bytes} {b : UInt8}
    (h : s.dropWhile p = b :: rest) : p b = false := by
  have hstop := List.head?_dropWhile_not p s
  rw [h] at hstop
  exact hstop

/-- What is passed by `skipBlank` is a gap. -/
theorem gap_append_skipBlank (s : Bytes) : ∃ g, Gap g ∧ s = g ++ skipBlank s :=
  ⟨s.takeWhile isBlank, fun _ hb => List.mem_takeWhile_imp hb,
    List.takeWhile_append_dropWhile.symm⟩

theorem gap_of_skipBlank_nil {s : Bytes} (h : skipBlank s = []) : Gap s := by
  obtain ⟨g, hg, hs⟩ := gap_append_skipBlank s
  rw [h, List.append_nil] at hs
  exact hs ▸ hg

theorem gap_of_skipBlank_cons {s rest : Bytes} {b : UInt8} (h : skipBlank s = b :: rest) :
    ∃ g, Gap g ∧ s = g ++ b :: rest := by
  obtain ⟨g, hg, hs⟩ := gap_append_skipBlank s
  exact ⟨g, hg, by rw [hs, h]⟩

theorem isBlank_of_skipBlank {s rest : Bytes} {b : UInt8} (h : skipBlank s = b :: rest) :
    isBlank b = false := not_of_dropWhile h

theorem length_skipBlank_le (s : Bytes) : (skipBlank s).length ≤ s.length :=
  (List.dropWhile_suffix _).length_le

/-! ## Ends -/

theorem ends_nil : Ends [] := fun _ h => by cases h

theorem ends_cons {b : UInt8} (hb : isDigit b = false ∧ b ≠ 46 ∧ b ≠ 101 ∧ b ≠ 69) (s : Bytes) :
    Ends (b :: s) := fun c hc => by
  cases hc
  exact hb

theorem isBlank_ends {b : UInt8} (hb : isBlank b = true) :
    isDigit b = false ∧ b ≠ 46 ∧ b ≠ 101 ∧ b ≠ 69 := by
  simp only [isBlank, Bool.or_eq_true, beq_iff_eq] at hb
  rcases hb with ((rfl | rfl) | rfl) | rfl <;> decide

theorem Ends.gap {g rest : Bytes} (hg : Gap g) (h : Ends rest) : Ends (g ++ rest) := by
  cases g with
  | nil => exact h
  | cons b g => exact ends_cons (isBlank_ends (hg b List.mem_cons_self)) _

theorem Bracket.ends_close (k : Bracket) (s : Bytes) : Ends (k.close :: s) := by
  cases k <;> exact ends_cons (by decide) s

theorem Bracket.isBlank_close (k : Bracket) : isBlank k.close = false := by cases k <;> rfl

/-! ## Digits -/

theorem takeDigits_append {ds rest : Bytes} (hd : ∀ d ∈ ds, isDigit d = true)
    (hr : ∀ b, rest.head? = some b → isDigit b = false) :
    takeDigits (ds ++ rest) = ds ∧ dropDigits (ds ++ rest) = rest := by
  rw [takeDigits, dropDigits, List.takeWhile_append_of_pos hd, List.dropWhile_append_of_pos hd]
  cases rest with
  | nil => exact ⟨List.append_nil ds, rfl⟩
  | cons b rest =>
    have hb : ¬ isDigit b = true := by
      rw [hr b rfl]
      exact Bool.false_ne_true
    rw [List.takeWhile_cons_of_neg hb, List.dropWhile_cons_of_neg hb]
    exact ⟨List.append_nil ds, rfl⟩

theorem takeDigits_eq_nil {rest : Bytes} (hr : ∀ b, rest.head? = some b → isDigit b = false) :
    takeDigits rest = [] := (takeDigits_append (fun _ h => (List.not_mem_nil h).elim) hr).1

theorem isDigit_of_mem_takeDigits {s : Bytes} {d : UInt8} (hd : d ∈ takeDigits s) :
    isDigit d = true := List.mem_takeWhile_imp hd

theorem whole_zero : Whole [48] :=
  ⟨⟨List.cons_ne_nil _ _, fun _ hd => List.mem_singleton.1 hd ▸ rfl⟩, fun _ => rfl⟩

theorem Fraction.head {f : Bytes} (hf : Fraction f) {b : UInt8} (hb : f.head? = some b) :
    b = 46 := by
  cases hf with
  | absent => cases hb
  | point => exact (Option.some.inj hb).symm

theorem Exponent.head {e : Bytes} (he : Exponent e) {b : UInt8} (hb : e.head? = some b) :
    b = 101 ∨ b = 69 := by
  cases he with
  | absent => cases hb
  | bare he | signed he => exact Option.some.inj hb ▸ he

/-- The digits of a numeral stop where its exponent, or what stands behind it, begins. -/
theorem Exponent.stops {e rest : Bytes} (he : Exponent e) (hr : Ends rest) :
    ∀ b, (e ++ rest).head? = some b → isDigit b = false ∧ b ≠ 46 := by
  intro b hb
  cases hcase : e with
  | nil =>
    rw [hcase] at hb
    exact ⟨(hr b hb).1, (hr b hb).2.1⟩
  | cons c e' =>
    subst hcase
    rcases he.head hb with rfl | rfl <;> decide

theorem Fraction.stops {f e rest : Bytes} (hf : Fraction f) (he : Exponent e) (hr : Ends rest) :
    ∀ b, (f ++ (e ++ rest)).head? = some b → isDigit b = false := by
  intro b hb
  cases hcase : f with
  | nil =>
    rw [hcase] at hb
    exact (he.stops hr b hb).1
  | cons c f' =>
    subst hcase
    obtain rfl := hf.head hb
    rfl

end Switchboard.Json
