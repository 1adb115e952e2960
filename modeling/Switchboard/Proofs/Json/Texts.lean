import Switchboard.Proofs.Json.Grammar
import Switchboard.Proofs.Text.Pieces

/-!
# Documents that are text

All that is written outside of strings is below 128, so a document is text exactly if its strings
are: those that spell a text are anyway, and the others may hold any bytes that end no string.

    Written Strict part b ↔ Written Inside part b ∧ IsText b
-/

namespace Switchboard.Json

open Text

/-- What can stand between the quotes of a string if it must be text. -/
def Strict (s : Bytes) : Prop := Inside s ∧ IsText s

variable {b : Bytes} {S T : Bytes → Prop}

/-! ## What is below 128 -/

theorem low_of_all (h : b.all (fun a => decide (a < 128)) = true) : Low b := fun a ha =>
  of_decide_eq_true (List.all_eq_true.1 h a ha)

theorem Gap.low {g : Bytes} (hg : Gap g) : Low g := fun a ha => by
  have hb := hg a ha
  simp only [isBlank, Bool.or_eq_true, beq_iff_eq] at hb
  rcases hb with ((rfl | rfl) | rfl) | rfl <;> decide

theorem Digits.low {ds : Bytes} (hd : Digits ds) : Low ds := fun a ha => by
  have hdigit := hd.2 a ha
  simp only [isDigit, Bool.and_eq_true, decide_eq_true_eq] at hdigit
  exact UInt8.lt_of_le_of_lt hdigit.2 (by decide)

theorem Fraction.low {f : Bytes} (hf : Fraction f) : Low f := by
  cases hf with
  | absent => exact low_nil
  | point hd => exact .cons (by decide) hd.low

theorem Exponent.low {e : Bytes} (he : Exponent e) : Low e := by
  cases he with
  | absent => exact low_nil
  | bare he hd => rcases he with rfl | rfl <;> exact .cons (by decide) hd.low
  | signed he hs hd =>
    rcases he with rfl | rfl <;> rcases hs with rfl | rfl <;>
      exact .cons (by decide) (.cons (by decide) hd.low)

theorem Numeral.low {v : Bytes} (hv : Numeral v) : Low v := by
  cases hv with
  | mk negative hd hf he =>
    refine .append ?_ (hd.1.low.append (hf.low.append he.low))
    cases negative with
    | true => exact .cons (by decide) low_nil
    | false => exact low_nil

theorem low_of_hexFour {a b c d : UInt8} {n : Nat} (h : hexFour a b c d = some n) :
    Low [a, b, c, d] := by
  have below : ∀ {x low high : UInt8}, high < 128 → (decide (low ≤ x) && decide (x ≤ high)) = true →
      x < 128 := by
    intro x low high hhigh hx
    simp only [Bool.and_eq_true, decide_eq_true_eq] at hx
    exact UInt8.lt_of_le_of_lt hx.2 hhigh
  have digit : ∀ {x : UInt8} {m : Nat}, hexDigit? x = some m → x < 128 := by
    intro x m hx
    unfold hexDigit? at hx
    split at hx
    · next hrange => exact below (by decide) hrange
    · split at hx
      · next hrange => exact below (by decide) hrange
      · split at hx
        · next hrange => exact below (by decide) hrange
        · cases hx
  unfold hexFour at h
  split at h
  · next ha hb hc hd =>
    exact .cons (digit ha) (.cons (digit hb) (.cons (digit hc) (.cons (digit hd) low_nil)))
  · cases h

theorem low_of_letterEscape {a : UInt8} {c : Char} (h : letterEscape a = some c) : a < 128 := by
  unfold letterEscape at h
  repeat' split at h
  all_goals first | cases h; done | (subst a; decide)

theorem Escape.low {x : Bytes} {c : Char} (hx : Escape x c) : Low x := by
  cases hx with
  | letter hb => exact .cons (low_of_letterEscape hb) low_nil
  | point hn => exact .cons (by decide) (low_of_hexFour hn)
  | pair hn _ hn' =>
    exact .cons (by decide) ((low_of_hexFour hn).append
      (.cons (by decide) (.cons (by decide) (low_of_hexFour hn'))))

/-- What spells a text is one. -/
theorem Spells.isText {raw : Bytes} {name : String} (h : Spells raw name) : IsText raw := by
  induction h with
  | nil => exact isText_nil
  | plain ht h ih => exact (isText_bytes _).append ih
  | escape hx h ih => exact ((Low.cons (by decide) hx.low).isText).append ih

/-! ## Strings as text -/

theorem Written.mono (hST : ∀ s, S s → T s) {part : Part} (h : Written S part b) :
    Written T part b := by
  induction h with
  | null => exact .null
  | tt => exact .tt
  | ff => exact .ff
  | number hn => exact .number hn
  | string hs => exact .string (hST _ hs)
  | empty k hg => exact .empty k hg
  | filled _ ih => exact .filled ih
  | last _ ih => exact .last ih
  | more _ _ ih ihs => exact .more ih ihs
  | element hg _ hg' ih => exact .element hg ih hg'
  | member hg hs hg₁ hg₂ _ hg' ih => exact .member hg (hST _ hs) hg₁ hg₂ ih hg'

theorem Bracket.opening_low (k : Bracket) : k.opening < 128 := by cases k <;> decide

theorem Bracket.close_low (k : Bracket) : k.close < 128 := by cases k <;> decide

/-- What stands in a pair of brackets, or of quotes. -/
theorem isText_between {o c : UInt8} (ho : o < 128) (hc : c < 128) :
    IsText (o :: (b ++ [c])) ↔ IsText b := by
  rw [isText_cons ho, isText_append_low (Low.cons hc low_nil)]

theorem isText_member {g s g₁ t : Bytes} (hg : Gap g) (hg₁ : Gap g₁) :
    IsText (g ++ 34 :: (s ++ 34 :: (g₁ ++ 58 :: t))) ↔ IsText s ∧ IsText t := by
  have hquote : (34 : UInt8) < 128 := by decide
  have hcolon : (58 : UInt8) < 128 := by decide
  rw [isText_low_append hg.low, isText_cons hquote, isText_append_cons hquote,
    isText_low_append hg₁.low, isText_cons hcolon]

theorem isText_gaps {g v g' : Bytes} (hg : Gap g) (hg' : Gap g') :
    IsText (g ++ (v ++ g')) ↔ IsText v := by
  rw [isText_low_append hg.low, isText_append_low hg'.low]

/-- **A part is text if and only if its strings are.** -/
theorem written_strict_iff {part : Part} :
    Written Strict part b ↔ Written Inside part b ∧ IsText b := by
  have hcomma : (44 : UInt8) < 128 := by decide
  have hquote : (34 : UInt8) < 128 := by decide
  constructor
  · intro h
    refine ⟨h.mono fun _ hs => hs.1, ?_⟩
    induction h with
    | null | tt | ff => exact (low_of_all rfl).isText
    | number hn => exact hn.low.isText
    | string hs => exact (isText_between hquote hquote).2 hs.2
    | empty k hg => exact (isText_between k.opening_low k.close_low).2 hg.low.isText
    | @filled k _ _ ih => exact (isText_between k.opening_low k.close_low).2 ih
    | last _ ih => exact ih
    | more _ _ ih ihs => exact (isText_append_cons hcomma).2 ⟨ih, ihs⟩
    | element hg _ hg' ih => exact (isText_gaps hg hg').2 ih
    | member hg hs hg₁ hg₂ _ hg' ih =>
      exact (isText_member hg hg₁).2 ⟨hs.2, (isText_gaps hg₂ hg').2 ih⟩
  · rintro ⟨h, ht⟩
    induction h with
    | null => exact .null
    | tt => exact .tt
    | ff => exact .ff
    | number hn => exact .number hn
    | string hs => exact .string ⟨hs, (isText_between hquote hquote).1 ht⟩
    | empty k hg => exact .empty k hg
    | @filled k _ _ ih => exact .filled (ih ((isText_between k.opening_low k.close_low).1 ht))
    | last _ ih => exact .last (ih ht)
    | more _ _ ih ihs =>
      obtain ⟨hb, hbs⟩ := (isText_append_cons hcomma).1 ht
      exact .more (ih hb) (ihs hbs)
    | element hg _ hg' ih => exact .element hg (ih ((isText_gaps hg hg').1 ht)) hg'
    | member hg hs hg₁ hg₂ _ hg' ih =>
      obtain ⟨hs', hv⟩ := (isText_member hg hg₁).1 ht
      exact .member hg ⟨hs, hs'⟩ hg₁ hg₂ (ih ((isText_gaps hg₂ hg').1 hv)) hg'

/-! ## Whole documents -/

variable {α : Type} {P Q : α → Bytes → Prop} {as : List α}

/-- An item is cut from what follows it, which begins with a gap or a comma. -/
theorem More.isText_append {t : Bytes} (hm : More P as t) :
    IsText (b ++ t) ↔ IsText b ∧ IsText t := by
  have head : ∀ a t', t = a :: t' → a < 128 := by
    intro a t' ht
    cases hm with
    | done hg => exact hg.low a (ht ▸ List.mem_cons_self)
    | @next g _ _ _ _ hg =>
      cases g with
      | nil =>
        obtain ⟨rfl, -⟩ := List.cons.inj ht
        decide
      | cons c g =>
        obtain ⟨rfl, -⟩ := List.cons.inj ht
        exact hg.low c List.mem_cons_self
  cases t with
  | nil =>
    rw [List.append_nil]
    exact ⟨fun h => ⟨h, isText_nil⟩, fun h => h.1⟩
  | cons a t' => rw [isText_append_cons (head a t' rfl), isText_cons (head a t' rfl)]

theorem more_text_iff (hPQ : ∀ a b, P a b ↔ Q a b ∧ IsText b) :
    More P as b ↔ More Q as b ∧ IsText b := by
  have hcomma : (44 : UInt8) < 128 := by decide
  constructor
  · intro h
    induction h with
    | done hg => exact ⟨.done hg, hg.low.isText⟩
    | next hg ha _ ih =>
      obtain ⟨ha, ht⟩ := (hPQ _ _).1 ha
      exact ⟨.next hg ha ih.1, (isText_append_cons hcomma).2 ⟨hg.low.isText, ht.append ih.2⟩⟩
  · rintro ⟨h, ht⟩
    induction h with
    | done hg => exact .done hg
    | next hg ha hm ih =>
      obtain ⟨hb, ht⟩ := hm.isText_append.1 ((isText_append_cons hcomma).1 ht).2
      exact .next hg ((hPQ _ _).2 ⟨ha, hb⟩) (ih ht)

theorem body_text_iff (hPQ : ∀ a b, P a b ↔ Q a b ∧ IsText b) :
    Body P as b ↔ Body Q as b ∧ IsText b := by
  constructor
  · intro h
    cases h with
    | empty hg => exact ⟨.empty hg, hg.low.isText⟩
    | filled ha hm =>
      obtain ⟨ha, ht⟩ := (hPQ _ _).1 ha
      obtain ⟨hm, hmt⟩ := (more_text_iff hPQ).1 hm
      exact ⟨.filled ha hm, ht.append hmt⟩
  · rintro ⟨h, ht⟩
    cases h with
    | empty hg => exact .empty hg
    | filled ha hm =>
      obtain ⟨hb, ht⟩ := hm.isText_append.1 ht
      exact .filled ((hPQ _ _).2 ⟨ha, hb⟩) ((more_text_iff hPQ).2 ⟨hm, ht⟩)

theorem bracketed_text_iff {k : Bracket} (hPQ : ∀ a b, P a b ↔ Q a b ∧ IsText b) :
    Bracketed k P as b ↔ Bracketed k Q as b ∧ IsText b := by
  have cut : ∀ {g body g' : Bytes}, Gap g → Gap g' →
      (IsText (g ++ k.opening :: (body ++ k.close :: g')) ↔ IsText body) := by
    intro g body g' hg hg'
    rw [isText_low_append hg.low, isText_cons k.opening_low,
      isText_append_low (Low.cons k.close_low hg'.low)]
  constructor
  · rintro ⟨g, body, g', hg, hb, hg', rfl⟩
    obtain ⟨hb, ht⟩ := (body_text_iff hPQ).1 hb
    exact ⟨⟨g, body, g', hg, hb, hg', rfl⟩, (cut hg hg').2 ht⟩
  · rintro ⟨⟨g, body, g', hg, hb, hg', rfl⟩, ht⟩
    exact ⟨g, body, g', hg, (body_text_iff hPQ).2 ⟨hb, (cut hg hg').1 ht⟩, hg', rfl⟩

/-- A list is text if and only if the strings in its values are. -/
theorem listText_strict_iff {vs : List Bytes} :
    ListText Strict vs b ↔ ListText Inside vs b ∧ IsText b := by
  refine bracketed_text_iff fun v b => ?_
  constructor
  · rintro ⟨g, hg, hv, rfl⟩
    obtain ⟨hv, ht⟩ := written_strict_iff.1 hv
    exact ⟨⟨g, hg, hv, rfl⟩, (isText_low_append hg.low).2 ht⟩
  · rintro ⟨⟨g, hg, hv, rfl⟩, ht⟩
    exact ⟨g, hg, written_strict_iff.2 ⟨hv, (isText_low_append hg.low).1 ht⟩, rfl⟩

/-- An object is text if and only if the strings in the values of its members are. -/
theorem objectText_strict_iff {ms : List Member} :
    ObjectText Strict ms b ↔ ObjectText Inside ms b ∧ IsText b := by
  refine bracketed_text_iff fun m b => ?_
  constructor
  · rintro ⟨g, raw, g₁, g₂, hg, hraw, hg₁, hg₂, hv, rfl⟩
    obtain ⟨hv, ht⟩ := written_strict_iff.1 hv
    exact ⟨⟨g, raw, g₁, g₂, hg, hraw, hg₁, hg₂, hv, rfl⟩,
      (isText_member hg hg₁).2 ⟨hraw.isText, (isText_low_append hg₂.low).2 ht⟩⟩
  · rintro ⟨⟨g, raw, g₁, g₂, hg, hraw, hg₁, hg₂, hv, rfl⟩, ht⟩
    have htv := (isText_low_append hg₂.low).1 ((isText_member hg hg₁).1 ht).2
    exact ⟨g, raw, g₁, g₂, hg, hraw, hg₁, hg₂, written_strict_iff.2 ⟨hv, htv⟩, rfl⟩

end Switchboard.Json
