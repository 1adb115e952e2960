import Switchboard.Proofs.Json.Documents
import Switchboard.Proofs.Json.Writing

/-!
# Values that are read as if alone

What is read of a value depends neither on the blanks in front of it nor on what stands behind it: it
is what is read of the value by itself (`Alone`), or nothing.  That holds of a codec that reads
exactly certain values (`Exact`).

    c.read depth (g ++ (t ++ rest)) gives a ↔ c.read depth t = ok (a, [])
-/

namespace Switchboard.Json

/-! ## Specification -/

/-- Of a value the codec reads, wherever it stands, what it reads of it alone. -/
def Codec.Alone {α : Type} (c : Codec α) (depth : Nat) : Prop :=
  ∀ {t g rest : Bytes}, Written Inside .value t → Gap g → Ends rest →
    Gives (c.read depth (g ++ (t ++ rest))) (fun a => c.read depth t = .ok (a, [])) rest

/-- The codec reads the values that `T` tells, behind a gap, and nothing else; what it reads would
be passed over. -/
structure Codec.Exact {α : Type} (c : Codec α) (depth : Nat) (T : α → Bytes → Prop) : Prop where
  written : ∀ {a t}, T a t → Written Inside .value t
  complete : ∀ {a t g rest}, T a t → Gap g → Ends rest →
    c.read depth (g ++ (t ++ rest)) = .ok (a, rest)
  sound : ∀ {s a rest}, c.read depth s = .ok (a, rest) → Ends rest →
    ∃ g t, Gap g ∧ T a t ∧ s = g ++ (t ++ rest)
  passed : ∀ {s a rest}, c.read depth s = .ok (a, rest) → skipValue s = .ok rest

/-- What a field makes of a value that is read alone. -/
def Field.Makes {σ : Type} (depth : Nat) (f : Field σ) (a : σ) (t : Bytes) (b : σ) : Prop :=
  f.read depth a t = .ok (b, [])

/-! ## Values as they are written -/

variable {σ α : Type} {s t rest : Bytes} {b : UInt8} {v : Value} {depth : Nat} {S : Sense}

section Items

variable {W : Bytes → Prop} {k : Bracket} {P : α → Bytes → Prop}
  (hP : ∀ (a : α) (b g : Bytes), P a b → Gap g → Written W (.item k) (b ++ g))

include hP

theorem More.written {a : α} {b : Bytes} {as : List α} (ha : P a b) (hm : More P as t) :
    Written W (.items k) (b ++ t) := by
  induction hm generalizing a b with
  | done hg => exact .last (hP _ _ _ ha hg)
  | next hg hnext _ ih =>
    rw [← List.append_assoc]
    exact .more (hP _ _ _ ha hg) (ih hnext)

theorem Body.written {as : List α} (hb : Body P as t) :
    Written W .value (k.opening :: (t ++ [k.close])) := by
  cases hb with
  | empty hg => exact .empty k hg
  | filled ha hm => exact .filled (hm.written hP ha)

end Items

theorem Plainly.written (h : Plainly S v t) : Written Inside .value t := by
  cases h with
  | null => exact .null
  | tt => exact .tt
  | ff => exact .ff
  | number ht => exact .number ht
  | string h => exact .string h.inside

theorem Entry.written {Q : String × Value → Bytes → Prop} {m : String × Value} {g : Bytes}
    (hQ : ∀ {t}, Q m t → Written Inside .value t) (h : Entry Prod.fst Q m t) (hg : Gap g) :
    Written Inside (.item .object) (t ++ g) := by
  obtain ⟨g', raw, g₁, g₂, u, hg', hraw, hg₁, hg₂, hu, rfl⟩ := h
  have hmember := Written.member (S := Inside) hg' hraw.inside hg₁ hg₂ (hQ hu) hg
  simpa only [List.append_assoc, List.cons_append] using hmember

theorem Depicts.written (h : Depicts S depth v t) : Written Inside .value t := by
  induction depth generalizing v t with
  | zero => exact Plainly.written h
  | succ depth ih =>
    obtain h | ⟨vs, body, hb, -, rfl⟩ | ⟨ms, body, hb, -, -, rfl⟩ | ⟨u, body, hb, -, rfl⟩ := h
    · exact h.written
    · refine hb.written (k := .list) fun _ _ _ ha hg' => ?_
      obtain ⟨g, u, hg, hu, rfl⟩ := ha
      rw [List.append_assoc]
      exact .element hg (ih hu) hg'
    · exact hb.written (k := .object) fun _ _ _ ha hg => ha.written ih hg
    · exact hb.written (k := .object) fun _ _ _ ha hg => ha.written Plainly.written hg

/-- A value that does not begin like a number is passed whatever stands behind it. -/
theorem skipValue_head {r g : Bytes} (hw : Written Inside .value (b :: r)) (hg : Gap g)
    (hb : b ≠ 45 ∧ isDigit b = false) : skipValue (g ++ (b :: r ++ rest)) = .ok rest := by
  refine skipValue_written (fun _ => id) hg hw fun hn => ?_
  obtain ⟨c, s, heq, hc, -⟩ := skipScalar_numeral hn ends_nil
  obtain ⟨rfl, rfl⟩ := List.cons.inj heq
  rcases hc with rfl | hc
  · exact absurd rfl hb.1
  · cases hb.2.symm.trans hc

/-! ## Exact codecs -/

/-- **What is read exactly is read as if alone.** -/
theorem Codec.Exact.alone {c : Codec α} {T : α → Bytes → Prop} (h : c.Exact depth T) :
    c.Alone depth := by
  intro t g rest ht hg hr a r
  have reads : ∀ {g rest r}, Gap g → Ends rest → c.read depth (g ++ (t ++ rest)) = .ok (a, r) →
      T a t ∧ r = rest := by
    intro g rest r hg hr hread
    have hskip := (h.passed hread).symm.trans (skipValue_append (fun _ => id) hg ht hr)
    obtain rfl := Except.ok.inj hskip
    obtain ⟨g', t', hg', ha, heq⟩ := h.sound hread hr
    -- both values begin where the blanks end
    obtain ⟨b, s, rfl, hb⟩ := ht.begins
    obtain ⟨b', s', rfl, hb'⟩ := (h.written ha).begins
    have hstart := congrArg skipBlank heq
    rw [List.cons_append, List.cons_append, skipBlank_gap_cons hg (not_beginsValue hb).1,
      skipBlank_gap_cons hg' (not_beginsValue hb').1, ← List.cons_append, ← List.cons_append] at hstart
    rw [List.append_cancel_right hstart]
    exact ⟨ha, rfl⟩
  constructor
  · intro hread
    obtain ⟨ha, rfl⟩ := reads hg hr hread
    have halone := h.complete ha gap_nil ends_nil
    rw [List.nil_append, List.append_nil] at halone
    exact ⟨halone, rfl⟩
  · rintro ⟨hread, rfl⟩
    have hempty : c.read depth ([] ++ (t ++ [])) = .ok (a, []) := by
      rwa [List.nil_append, List.append_nil]
    exact h.complete (reads gap_nil ends_nil hempty).1 hg hr

/-- A codec that reads values which do not begin like numbers. -/
theorem Codec.exact_of_iff {c : Codec α} {T : α → Bytes → Prop}
    (hT : ∀ {a t}, T a t → Written Inside .value t ∧
      ∃ b r, t = b :: r ∧ b ≠ 45 ∧ isDigit b = false)
    (hread : ∀ {s a rest}, c.read depth s = .ok (a, rest) ↔
      ∃ g t, Gap g ∧ T a t ∧ s = g ++ (t ++ rest)) : c.Exact depth T where
  written h := (hT h).1
  complete h hg _ := hread.2 ⟨_, _, hg, h, rfl⟩
  sound h _ := hread.1 h
  passed h := by
    obtain ⟨g, t, hg, ha, rfl⟩ := hread.1 h
    obtain ⟨hw, b, r, rfl, hb⟩ := hT ha
    exact skipValue_head hw hg hb

/-! ## Texts and booleans -/

/-- A string in quotes. -/
def InQuotes (name : String) (t : Bytes) : Prop := ∃ raw, Spells raw name ∧ t = 34 :: (raw ++ [34])

theorem Spells.unique {raw : Bytes} {name name' : String} (h : Spells raw name)
    (h' : Spells raw name') : name = name' := by
  have hok : scanString (raw ++ [34]) = .ok (name, []) := scanString_eq_ok_iff.2 ⟨raw, h, rfl⟩
  rw [scanString_eq_ok_iff.2 ⟨raw, h', rfl⟩] at hok
  exact (congrArg Prod.fst (Except.ok.inj hok)).symm

theorem text_read_eq_ok_iff {name : String} : text.read depth s = .ok (name, rest) ↔
    ∃ g t, Gap g ∧ InQuotes name t ∧ s = g ++ (t ++ rest) := by
  unfold text
  dsimp only
  constructor
  · intro h
    cases hs : skipBlank s with
    | nil =>
      rw [hs] at h
      cases h
    | cons b r =>
      rw [hs] at h
      obtain ⟨g, hg, rfl⟩ := gap_of_skipBlank_cons hs
      by_cases hb : b = 34
      · subst hb
        obtain ⟨raw, hraw, rfl⟩ := scanString_eq_ok_iff.1 h
        exact ⟨g, _, hg, ⟨raw, hraw, rfl⟩, by simp⟩
      · dsimp only at h
        rw [if_neg hb] at h
        cases h
  · rintro ⟨g, t, hg, ⟨raw, hraw, rfl⟩, rfl⟩
    rw [List.cons_append, skipBlank_gap_cons hg (b := 34) rfl]
    exact scanString_eq_ok_iff.2 ⟨raw, hraw, by simp⟩

theorem InQuotes.written {name : String} (h : InQuotes name t) : Written Inside .value t ∧
    ∃ b r, t = b :: r ∧ b ≠ 45 ∧ isDigit b = false := by
  obtain ⟨raw, hraw, rfl⟩ := h
  exact ⟨.string hraw.inside, 34, _, rfl, by decide, rfl⟩

theorem text_alone : text.Alone depth :=
  (Codec.exact_of_iff InQuotes.written text_read_eq_ok_iff).alone

def wordOf (b : Bool) : Bytes := if b then 116 :: trueTail else 102 :: falseTail

theorem scanWord_map_eq_ok_iff {w : Bytes} {a a' : α} {r : Bytes} :
    (scanWord w s).map (fun r => (a, r)) = .ok (a', r) ↔ a' = a ∧ s = w ++ r := by
  constructor
  · intro h
    obtain ⟨r', hscan, heq⟩ := exists_of_map_ok h
    obtain ⟨rfl, rfl⟩ := Prod.mk.inj heq
    exact ⟨rfl, word_of_scanWord hscan⟩
  · rintro ⟨rfl, rfl⟩
    rw [scanWord_append]
    rfl

theorem boolean_read_eq_ok_iff {c : Bool} : boolean.read depth s = .ok (c, rest) ↔
    ∃ g t, Gap g ∧ t = wordOf c ∧ s = g ++ (t ++ rest) := by
  unfold boolean
  dsimp only
  constructor
  · intro h
    cases hs : skipBlank s with
    | nil =>
      rw [hs] at h
      cases h
    | cons b r =>
      rw [hs] at h
      obtain ⟨g, hg, rfl⟩ := gap_of_skipBlank_cons hs
      dsimp only at h
      split at h
      · next hb =>
        obtain ⟨rfl, rfl⟩ := scanWord_map_eq_ok_iff.1 h
        exact ⟨g, _, hg, rfl, by rw [hb]; rfl⟩
      · split at h
        · next hb =>
          obtain ⟨rfl, rfl⟩ := scanWord_map_eq_ok_iff.1 h
          exact ⟨g, _, hg, rfl, by rw [hb]; rfl⟩
        · cases h
  · rintro ⟨g, t, hg, rfl, rfl⟩
    cases c with
    | true =>
      rw [wordOf, if_pos rfl, List.cons_append, skipBlank_gap_cons hg (b := 116) rfl]
      exact (if_pos rfl).trans (scanWord_map_eq_ok_iff.2 ⟨rfl, rfl⟩)
    | false =>
      rw [wordOf, if_neg Bool.false_ne_true, List.cons_append, skipBlank_gap_cons hg (b := 102) rfl]
      exact (if_neg (by decide)).trans
        ((if_pos rfl).trans (scanWord_map_eq_ok_iff.2 ⟨rfl, rfl⟩))

theorem wordOf_written {c : Bool} (h : t = wordOf c) : Written Inside .value t ∧
    ∃ b r, t = b :: r ∧ b ≠ 45 ∧ isDigit b = false := by
  subst h
  cases c with
  | true => exact ⟨.tt, 116, _, rfl, by decide, rfl⟩
  | false => exact ⟨.ff, 102, _, rfl, by decide, rfl⟩

theorem boolean_alone : boolean.Alone depth :=
  (Codec.exact_of_iff wordOf_written boolean_read_eq_ok_iff).alone

/-! ## Values -/

variable {inner : Bytes → Except Problem Value}

theorem skipScalar_of_scanScalar (h : scanScalar b s = .ok (v, rest)) :
    skipScalar b s = .ok rest := by
  have word : ∀ {w : Bytes} {u : Value}, ((scanWord w s).map fun r => (u, r)) = .ok (v, rest) →
      scanWord w s = .ok rest := fun h => by
    obtain ⟨-, rfl⟩ := scanWord_map_eq_ok_iff.1 h
    exact scanWord_append _ _
  unfold scanScalar at h
  unfold skipScalar
  split at h
  · next hb => rw [if_pos hb, word h]
  · next hnull =>
    rw [if_neg hnull]
    split at h
    · next hb => rw [if_pos hb, word h]
    · next htrue =>
      rw [if_neg htrue]
      split at h
      · next hb => rw [if_pos hb, word h]
      · next hfalse =>
        rw [if_neg hfalse]
        split at h
        · next hb =>
          obtain ⟨⟨n, r⟩, hn, heq⟩ := exists_of_map_ok h
          obtain ⟨-, rfl⟩ := Prod.mk.inj heq
          by_cases hminus : b = 45
          · subst hminus
            rw [if_pos rfl]
            exact skipUnsigned_of_scan hn
          · have hdigit : isDigit b = true := by simpa [hminus] using hb
            rw [if_neg hminus, if_pos hdigit]
            have hscan : scanUnsigned false (b :: s) = .ok (n, r) := by
              rw [← hn, scanNumber]
              intro r heq
              exact hminus (List.cons.inj heq).1
            exact skipUnsigned_of_scan hscan
        · next hnumber =>
          obtain ⟨hminus, hdigit⟩ : b ≠ 45 ∧ ¬ isDigit b = true := by simpa using hnumber
          rw [if_neg hminus, if_neg hdigit]
          split at h
          · next hb =>
            obtain ⟨⟨t, r⟩, ht, heq⟩ := exists_of_map_ok h
            obtain ⟨-, rfl⟩ := Prod.mk.inj heq
            obtain ⟨raw, hraw, rfl⟩ := scanString_eq_ok_iff.1 ht
            rw [if_pos hb]
            exact skipString_of_inside hraw.inside _
          · cases h

theorem skipValue_of_skipScalar {g : Bytes} (hg : Gap g) (hblank : isBlank b = false)
    (hopening : (b = 91 || b = 123) = false) (h : skipScalar b s = .ok rest) :
    skipValue (g ++ b :: s) = .ok rest := by
  obtain ⟨fuel, hfuel⟩ : ∃ n, (g ++ b :: s).length = n + 1 := ⟨g.length + s.length, by simp; omega⟩
  rw [skipValue, hfuel]
  simp only [skipAux, skipBlank_gap_cons hg hblank, hopening, Bool.false_eq_true, if_false, h]

/-- What is read as a value would be passed over. -/
theorem skipValue_of_readValue (h : readValue inner depth s = .ok (v, rest)) :
    skipValue s = .ok rest := by
  cases hs : skipBlank s with
  | nil =>
    cases depth <;>
    · rw [readValue, hs] at h
      cases h
  | cons b r =>
    obtain ⟨g, hg, rfl⟩ := gap_of_skipBlank_cons hs
    cases hopening : b = 91 || b = 123 with
    | false =>
      rw [readValue_plain hg r (isBlank_of_skipBlank hs) hopening] at h
      exact skipValue_of_skipScalar hg (isBlank_of_skipBlank hs) hopening
        (skipScalar_of_scanScalar h)
    | true =>
      have hb : b = 91 ∨ b = 123 := by simpa using hopening
      cases depth with
      | zero =>
        rw [readValue, hs] at h
        simp only [hopening, if_true] at h
        cases h
      | succ depth =>
        have hbracket : ∃ t, Depicts (senseOf inner) (depth + 1) v t ∧ b :: r = t ++ rest := by
          rcases hb with rfl | rfl
          · exact Sound.list (sound_readValue inner depth) hg h
          · exact Sound.object (sound_readValue inner depth) hg h
        obtain ⟨t, ht, heq⟩ := hbracket
        obtain ⟨c, u, rfl, -⟩ := ht.begins
        obtain ⟨rfl, rfl⟩ := List.cons.inj heq
        exact skipValue_head ht.written hg (by rcases hb with rfl | rfl <;> decide)

theorem readValue_gap {g : Bytes} (hg : Gap g) :
    readValue inner depth (g ++ s) = readValue inner depth s := by
  cases depth <;> rw [readValue, readValue, skipBlank_append hg]

/-- Null is nothing, and any other text is a value. -/
inductive Perhaps (depth : Nat) : Option Value → Bytes → Prop
  | nothing : Perhaps depth none (110 :: nullTail)
  | some {v : Value} {b : UInt8} {r : Bytes} (hb : b ≠ 110)
      (h : Depicts (senseOf document) depth v (b :: r)) : Perhaps depth (some v) (b :: r)

theorem exact_optional_anything : (optional anything).Exact depth (Perhaps depth) where
  written h := by
    cases h with
    | nothing => exact .null
    | some _ h => exact h.written
  complete {o t g rest} h hg hr := by
    cases h with
    | nothing =>
      simp only [optional, List.cons_append, skipBlank_gap_cons hg (b := 110) rfl, if_true]
      exact scanWord_map_eq_ok_iff.2 ⟨rfl, rfl⟩
    | @some v b r hb h =>
      obtain ⟨c, u, heq, hbegins⟩ := h.begins
      obtain ⟨rfl, rfl⟩ := List.cons.inj heq
      have hread := complete_readValue document depth h gap_nil hr
      rw [List.nil_append, List.cons_append] at hread
      simp only [optional, List.cons_append, skipBlank_gap_cons hg (not_beginsValue hbegins).1,
        if_neg hb, anything, hread]
      rfl
  sound {s o rest} h hr := by
    unfold optional at h
    dsimp only at h
    split at h
    · next b r hs =>
      obtain ⟨g, hg, rfl⟩ := gap_of_skipBlank_cons hs
      split at h
      · next hb =>
        obtain ⟨rfl, rfl⟩ := scanWord_map_eq_ok_iff.1 h
        exact ⟨g, _, hg, .nothing, by rw [hb]; rfl⟩
      · next hb =>
        obtain ⟨⟨v, r'⟩, hread, heq⟩ := exists_of_map_ok h
        obtain ⟨rfl, rfl⟩ := Prod.mk.inj heq
        obtain ⟨g', t, hg', ht, heq⟩ := sound_readValue document depth hread hr
        cases g' with
        | nil =>
          obtain ⟨c, u, rfl, -⟩ := ht.begins
          obtain ⟨rfl, rfl⟩ := List.cons.inj heq
          exact ⟨g, _, hg, .some hb ht, rfl⟩
        | cons c g' =>
          obtain ⟨rfl, -⟩ := List.cons.inj heq
          cases (hg' _ List.mem_cons_self).symm.trans (isBlank_of_skipBlank hs)
    · cases h
  passed {s o rest} h := by
    unfold optional at h
    dsimp only at h
    split at h
    · next b r hs =>
      obtain ⟨g, hg, rfl⟩ := gap_of_skipBlank_cons hs
      split at h
      · next hb =>
        obtain ⟨rfl, rfl⟩ := scanWord_map_eq_ok_iff.1 h
        subst hb
        exact skipValue_head .null hg (by decide)
      · obtain ⟨⟨v, r'⟩, hread, heq⟩ := exists_of_map_ok h
        obtain ⟨rfl, rfl⟩ := Prod.mk.inj heq
        exact skipValue_of_readValue ((readValue_gap hg).trans hread)
    · cases h

theorem optional_anything_alone : (optional anything).Alone depth := exact_optional_anything.alone

/-! ## Choices -/

variable {choices : Choices α}

/-- A name of the choice in quotes, or an object of that name and null. -/
inductive ChoiceText (choices : Choices α) (depth : Nat) : α → Bytes → Prop
  | name {a : α} {name : String} {t : Bytes} (h : InQuotes name t) (ha : choices.find name = .ok a) :
      ChoiceText choices depth a t
  | object {a : α} {name : String} {g t g₁ g₂ g₃ : Bytes} (hdepth : 0 < depth) (hg : Gap g)
      (h : InQuotes name t) (hg₁ : Gap g₁) (hg₂ : Gap g₂) (hg₃ : Gap g₃)
      (ha : choices.find name = .ok a) :
      ChoiceText choices depth a
        (123 :: (g ++ (t ++ (g₁ ++ 58 :: (g₂ ++ (110 :: nullTail ++ (g₃ ++ [125])))))))

theorem readChoiceName_eq_ok_iff {a : α} : readChoiceName choices s = .ok (a, rest) ↔
    ∃ g t name, Gap g ∧ InQuotes name t ∧ choices.find name = .ok a ∧ s = g ++ (t ++ rest) := by
  have hbytes : ∀ raw : Bytes, 34 :: (raw ++ [34]) ++ rest = 34 :: (raw ++ 34 :: rest) := by simp
  constructor
  · intro h
    unfold readChoiceName at h
    split at h
    · cases h
    · next b r hs =>
      obtain ⟨g, hg, rfl⟩ := gap_of_skipBlank_cons hs
      split at h
      · next hb =>
        subst hb
        split at h
        · cases h
        · next name r' hname =>
          obtain ⟨raw, hraw, rfl⟩ := scanString_eq_ok_iff.1 hname
          split at h
          · next ha =>
            obtain ⟨rfl, rfl⟩ := Prod.mk.inj (Except.ok.inj h)
            exact ⟨g, _, name, hg, ⟨raw, hraw, rfl⟩, ha, by rw [hbytes]⟩
          · cases h
      · cases h
  · rintro ⟨g, _, name, hg, ⟨raw, hraw, rfl⟩, ha, rfl⟩
    have hname : scanString (raw ++ 34 :: rest) = .ok (name, rest) :=
      scanString_eq_ok_iff.2 ⟨raw, hraw, rfl⟩
    simp only [hbytes, readChoiceName, skipBlank_gap_cons hg (b := 34) rfl, if_true, hname, ha]

theorem readUnit_eq_ok_iff {u : Unit} : readUnit s = .ok (u, rest) ↔
    ∃ g, Gap g ∧ s = g ++ (110 :: nullTail ++ rest) := by
  constructor
  · intro h
    unfold readUnit at h
    split at h
    · cases h
    · next b r hs =>
      obtain ⟨g, hg, rfl⟩ := gap_of_skipBlank_cons hs
      split at h
      · next hb =>
        obtain ⟨-, rfl⟩ := scanWord_map_eq_ok_iff.1 h
        exact ⟨g, hg, by rw [hb]; rfl⟩
      · cases h
  · rintro ⟨g, hg, rfl⟩
    simp only [readUnit, List.cons_append, skipBlank_gap_cons hg (b := 110) rfl, if_true]
    exact scanWord_map_eq_ok_iff.2 ⟨rfl, rfl⟩

theorem choice_read_eq_ok_iff {a : α} : (choice choices).read depth s = .ok (a, rest) ↔
    ∃ g t, Gap g ∧ ChoiceText choices depth a t ∧ s = g ++ (t ++ rest) := by
  constructor
  · intro h
    unfold choice at h
    dsimp only at h
    split at h
    · cases h
    · next b r hs =>
      obtain ⟨g, hg, rfl⟩ := gap_of_skipBlank_cons hs
      split at h
      · next hb =>
        subst hb
        split at h
        · cases h
        · next hdepth =>
          split at h
          · cases h
          · next a' r₁ hname =>
            obtain ⟨g', t, name, hg', ht, ha, rfl⟩ := readChoiceName_eq_ok_iff.1 hname
            split at h
            · cases h
            · next r₂ hcolon =>
              obtain ⟨g₁, hg₁, rfl⟩ := colon_of_scanColon hcolon
              split at h
              · cases h
              · next r₃ hunit =>
                obtain ⟨g₂, hg₂, rfl⟩ := readUnit_eq_ok_iff.1 hunit
                split at h
                · cases h
                · next c r₄ hend =>
                  obtain ⟨g₃, hg₃, rfl⟩ := gap_of_skipBlank_cons hend
                  split at h
                  · next hc =>
                    subst hc
                    obtain ⟨rfl, rfl⟩ := Prod.mk.inj (Except.ok.inj h)
                    exact ⟨g, _, hg,
                      .object (Nat.pos_of_ne_zero hdepth) hg' ht hg₁ hg₂ hg₃ ha, by simp⟩
                  · cases h
      · split at h
        · obtain ⟨g', t, name, hg', ht, ha, heq⟩ := readChoiceName_eq_ok_iff.1 h
          exact ⟨g ++ g', t, hg.append hg', .name ht ha, by rw [heq, List.append_assoc]⟩
        · cases h
  · rintro ⟨g, t, hg, ht, rfl⟩
    cases ht with
    | name h ha =>
      have hname : readChoiceName choices (t ++ rest) = .ok (a, rest) :=
        readChoiceName_eq_ok_iff.2 ⟨[], t, _, gap_nil, h, ha, rfl⟩
      obtain ⟨raw, -, rfl⟩ := h
      simp only [choice, List.cons_append, skipBlank_gap_cons hg (b := 34) rfl]
      exact hname
    | @object _ g' t g₁ g₂ g₃ hdepth hg' h hg₁ hg₂ hg₃ ha =>
      have hname : ∀ s, readChoiceName choices (g' ++ (t ++ s)) = .ok (a, s) :=
        fun s => readChoiceName_eq_ok_iff.2 ⟨g', t, _, hg', h, ha, rfl⟩
      have hunit : ∀ s, readUnit (g₂ ++ (110 :: nullTail ++ s)) = .ok ((), s) :=
        fun s => readUnit_eq_ok_iff.2 ⟨g₂, hg₂, rfl⟩
      simp only [choice, List.append_assoc, List.cons_append,
        skipBlank_gap_cons hg (b := 123) rfl, if_true, hdepth.ne', if_false, hname,
        scanColon_append hg₁]
      simp only [← List.cons_append, hunit]
      simp only [List.cons_append, List.nil_append,
        skipBlank_gap_cons hg₃ (b := 125) rfl, if_true]

theorem ChoiceText.written {a : α} (h : ChoiceText choices depth a t) :
    Written Inside .value t ∧ ∃ b r, t = b :: r ∧ b ≠ 45 ∧ isDigit b = false := by
  cases h with
  | name h _ => exact h.written
  | object _ hg h hg₁ hg₂ hg₃ _ =>
    refine ⟨?_, 123, _, rfl, by decide, rfl⟩
    obtain ⟨raw, hraw, rfl⟩ := h
    have hmember := Written.last (k := .object)
      (.member (S := Inside) hg hraw.inside hg₁ hg₂ .null hg₃)
    simpa [Bracket.opening, Bracket.close] using Written.filled hmember

theorem choice_alone : (choice choices).Alone depth :=
  (Codec.exact_of_iff ChoiceText.written choice_read_eq_ok_iff).alone

/-! ## Fields -/

theorem Codec.Alone.field {c : Codec α} (h : c.Alone depth) (name : String) (set : α → σ → σ) :
    (Field.of name c set).ReadsAt depth (Written Inside .value)
      (Field.Makes depth (.of name c set)) := by
  intro g t rest a hg ht hr
  refine ((h ht hg hr).map fun x => set x a).congr fun b => ?_
  show _ ↔ (c.read depth t).map _ = .ok (b, [])
  cases c.read depth t with
  | error f => exact ⟨nofun, nofun⟩
  | ok x =>
    obtain ⟨x, r⟩ := x
    constructor
    · rintro ⟨y, hy, rfl⟩
      cases hy
      rfl
    · intro hb
      obtain ⟨rfl, rfl⟩ := Prod.mk.inj (Except.ok.inj hb)
      exact ⟨x, rfl, rfl⟩

/-- A field that is stored by `set` leaves alone what `set` does, of a text as of a value. -/
theorem Field.of_map {name : String} {c : Codec α} {set : α → σ → σ} {f : σ → σ}
    (h : ∀ a acc, set a (f acc) = f (set a acc)) (acc : σ) :
    (∀ v, (Field.of name c set).ofValue (f acc) v = ((Field.of name c set).ofValue acc v).map f) ∧
      ∀ depth s, (Field.of name c set).read depth (f acc) s =
        ((Field.of name c set).read depth acc s).map fun (b, r) => (f b, r) := by
  constructor
  · intro v
    show (c.ofValue v).map _ = ((c.ofValue v).map _).map f
    cases c.ofValue v with
    | ok a => exact congrArg Except.ok (h a acc)
    | error _ => rfl
  · intro depth s
    show (c.read depth s).map _ = ((c.read depth s).map _).map _
    cases c.read depth s with
    | ok a => exact congrArg (fun b => Except.ok (b, a.2)) (h a.1 acc)
    | error _ => rfl

/-! ## Members and whole texts -/

theorem Admits.append_iff {takes : σ → α → σ → Prop} {as as' : List α} {a b : σ} :
    Admits takes (as ++ as') a b ↔ ∃ c, Admits takes as a c ∧ Admits takes as' c b := by
  induction as generalizing a with
  | nil => exact ⟨fun h => ⟨a, rfl, h⟩, fun ⟨c, hc, h⟩ => hc ▸ h⟩
  | cons x as ih =>
    simp only [List.cons_append, Admits, ih]
    constructor
    · rintro ⟨c, hx, d, h, h'⟩
      exact ⟨d, ⟨c, hx, h⟩, h'⟩
    · rintro ⟨d, ⟨c, hx, h⟩, h'⟩
      exact ⟨c, hx, d, h, h'⟩

/-- Only the names of its members are seen in an object. -/
theorem Record.not_mem_seen {r : Record σ} {P : Field σ → σ → Bytes → σ → Prop} {ms : List Member}
    {F G : Filled σ} {name : String} (h : Admits (r.Takes P) ms F G)
    (hms : name ∉ ms.map (·.name)) (hF : name ∉ F.seen) : name ∉ G.seen := by
  induction ms generalizing F with
  | nil => exact (h : G = F) ▸ hF
  | cons m ms ih =>
    obtain ⟨c, hc, h⟩ := h
    rw [List.map_cons, List.mem_cons, not_or] at hms
    refine ih h hms.2 ?_
    cases hf : r.fields.find? (·.name == m.name) with
    | none => exact (Record.takes_unknown hf).1 hc ▸ hF
    | some f =>
      obtain ⟨-, st, -, rfl⟩ := (Record.takes_known hf).1 hc
      exact List.not_mem_cons_of_ne_of_not_mem hms.1 hF

theorem Codec.parse_map {β : Type} {c : Codec α} {f : α → β} {b : β} :
    (c.map f).parse s = .ok b ↔ ∃ a, c.parse s = .ok a ∧ b = f a := by
  have hread : (c.map f).read maxDepth s = (c.read maxDepth s).map fun (a, r) => (f a, r) := rfl
  unfold parse
  simp only [wholly_eq_ok_iff, hread]
  cases c.read maxDepth s with
  | error e => exact ⟨fun ⟨_, h, _⟩ => (by cases h), fun ⟨_, ⟨_, h, _⟩, _⟩ => (by cases h)⟩
  | ok x =>
    obtain ⟨a, r⟩ := x
    constructor
    · rintro ⟨rest, h, hg⟩
      cases h
      exact ⟨a, ⟨r, rfl, hg⟩, rfl⟩
    · rintro ⟨_, ⟨rest, h, hg⟩, rfl⟩
      cases h
      exact ⟨r, rfl, hg⟩

end Switchboard.Json
