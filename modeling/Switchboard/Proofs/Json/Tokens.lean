import Switchboard.Proofs.Json.Grammar

/-!
# Tokens that are passed over

The scanners that pass a string, a numeral or a word accept the tokens of the grammar and nothing
else.  A numeral is passed as far as it goes, so something that ends it must follow.

    skipString (inside ++ quote ++ rest) = ok rest
    skipUnsigned (whole ++ fraction ++ exponent ++ rest) = ok rest
-/

namespace Switchboard.Json

variable {s rest : Bytes} {b : UInt8}

/-! ## Strings -/

theorem scanHexFour_eq_ok_iff {n : Nat} :
    scanHexFour s = .ok (n, rest) ↔
      ∃ a b c d, s = a :: b :: c :: d :: rest ∧ hexFour a b c d = some n := by
  constructor
  · intro h
    unfold scanHexFour at h
    split at h
    · next a b c d r =>
      split at h
      · next m hm =>
        cases h
        exact ⟨a, b, c, d, rfl, hm⟩
      · cases h
    · cases h
  · rintro ⟨a, b, c, d, rfl, hn⟩
    simp only [scanHexFour, hn]

theorem ne_point_of_letterEscape (h : (letterEscape b).isSome = true) : b ≠ 117 := by
  rintro rfl
  cases h

theorem skipEscape_eq_ok_iff :
    skipEscape s = .ok rest ↔ (∃ b, s = b :: rest ∧ (letterEscape b).isSome = true) ∨
      ∃ a b c d, s = 117 :: a :: b :: c :: d :: rest ∧ (hexFour a b c d).isSome = true := by
  constructor
  · intro h
    unfold skipEscape at h
    split at h
    · cases h
    · next b r =>
      split at h
      · next hb =>
        subst hb
        split at h
        · cases h
        · next n r' hn =>
          cases h
          obtain ⟨a, b, c, d, rfl, hx⟩ := scanHexFour_eq_ok_iff.1 hn
          exact .inr ⟨a, b, c, d, rfl, by rw [hx]; rfl⟩
      · split at h
        · next hb =>
          cases h
          exact .inl ⟨b, rfl, hb⟩
        · cases h
  · rintro (⟨b, rfl, hb⟩ | ⟨a, b, c, d, rfl, hn⟩)
    · simp only [skipEscape, if_neg (ne_point_of_letterEscape hb), hb, if_true]
    · obtain ⟨n, hn⟩ := Option.isSome_iff_exists.1 hn
      have hx : scanHexFour (a :: b :: c :: d :: rest) = .ok (n, rest) :=
        scanHexFour_eq_ok_iff.2 ⟨a, b, c, d, rfl, hn⟩
      simp only [skipEscape, if_true, hx]

theorem isPlain_iff : isPlain b = true ↔ b ≠ 34 ∧ b ≠ 92 ∧ ¬ b < 32 := by
  simp only [isPlain, Bool.and_eq_true, decide_eq_true_eq, UInt8.not_lt, and_assoc]

theorem skipStringAux_of_inside {raw : Bytes} (h : Inside raw) (rest : Bytes) {fuel : Nat}
    (hf : raw.length < fuel) : skipStringAux fuel (raw ++ 34 :: rest) = .ok rest := by
  induction h generalizing fuel with
  | nil =>
    obtain ⟨fuel, rfl⟩ := Nat.exists_eq_add_one.2 hf
    rfl
  | @plain b s hb hs ih =>
    obtain ⟨fuel, rfl⟩ := Nat.exists_eq_add_one.2 (Nat.zero_lt_of_lt hf)
    obtain ⟨hq, he, hc⟩ := isPlain_iff.1 hb
    rw [List.cons_append, skipStringAux, if_neg hq, if_neg he, if_neg hc]
    exact ih (Nat.lt_of_succ_lt_succ hf)
  | @letter b s hb hs ih =>
    obtain ⟨fuel, rfl⟩ := Nat.exists_eq_add_one.2 (Nat.zero_lt_of_lt hf)
    have hskip : skipEscape (b :: (s ++ 34 :: rest)) = .ok (s ++ 34 :: rest) :=
      skipEscape_eq_ok_iff.2 (.inl ⟨b, rfl, hb⟩)
    simp only [List.cons_append, skipStringAux, hskip]
    refine ih ?_
    simp only [List.length_cons] at hf
    omega
  | @point a b c d s hn hs ih =>
    obtain ⟨fuel, rfl⟩ := Nat.exists_eq_add_one.2 (Nat.zero_lt_of_lt hf)
    have hskip : skipEscape (117 :: a :: b :: c :: d :: (s ++ 34 :: rest)) =
        .ok (s ++ 34 :: rest) := skipEscape_eq_ok_iff.2 (.inr ⟨a, b, c, d, rfl, hn⟩)
    simp only [List.cons_append, skipStringAux, hskip]
    refine ih ?_
    simp only [List.length_cons] at hf
    omega

theorem inside_of_skipStringAux {fuel : Nat} (h : skipStringAux fuel s = .ok rest) :
    ∃ raw, Inside raw ∧ s = raw ++ 34 :: rest := by
  induction fuel generalizing s with
  | zero => cases h
  | succ fuel ih =>
    cases s with
    | nil => cases h
    | cons b s =>
      rw [skipStringAux] at h
      split at h
      · next hb =>
        cases h
        exact ⟨[], .nil, by rw [hb]; rfl⟩
      · next hq =>
        split at h
        · next hb =>
          subst hb
          split at h
          · cases h
          · next r hr =>
            obtain ⟨raw, hraw, rfl⟩ := ih h
            obtain ⟨b, rfl, hb⟩ | ⟨a, b, c, d, rfl, hn⟩ := skipEscape_eq_ok_iff.1 hr
            · exact ⟨92 :: b :: raw, .letter hb hraw, rfl⟩
            · exact ⟨92 :: 117 :: a :: b :: c :: d :: raw, .point hn hraw, rfl⟩
        · next he =>
          split at h
          · cases h
          · next hc =>
            obtain ⟨raw, hraw, rfl⟩ := ih h
            exact ⟨b :: raw, .plain (isPlain_iff.2 ⟨hq, he, hc⟩) hraw, rfl⟩

theorem skipString_of_inside {raw : Bytes} (h : Inside raw) (rest : Bytes) :
    skipString (raw ++ 34 :: rest) = .ok rest := by
  refine skipStringAux_of_inside h rest ?_
  rw [List.length_append, List.length_cons]
  omega

/-! ## Numerals -/

theorem isDigit_ne {c : UInt8} (hb : isDigit b = true) (hc : isDigit c = false) : b ≠ c := by
  rintro rfl
  rw [hb] at hc
  cases hc

theorem skipExponent_bare (hb : isDigit b = true) (s : Bytes) :
    skipExponent (b :: s) = .ok (dropDigits s) := by
  unfold skipExponent
  split
  · next h => exact absurd (List.cons.inj h).1 (isDigit_ne hb rfl)
  · next h => exact absurd (List.cons.inj h).1 (isDigit_ne hb rfl)
  · exact if_pos hb

theorem skipExponent_signed {c : UInt8} (hc : c = 43 ∨ c = 45) (hb : isDigit b = true) (s : Bytes) :
    skipExponent (c :: b :: s) = .ok (dropDigits s) := by
  rcases hc with rfl | rfl <;> simp only [skipExponent, hb, if_true]

theorem Digits.drop {ds : Bytes} (hd : Digits ds)
    (hr : ∀ c, rest.head? = some c → isDigit c = false) :
    ∃ d ds', ds = d :: ds' ∧ isDigit d = true ∧ dropDigits (ds' ++ rest) = rest := by
  obtain ⟨hne, hall⟩ := hd
  obtain ⟨d, ds', rfl⟩ := List.exists_cons_of_ne_nil hne
  exact ⟨d, ds', rfl, hall d List.mem_cons_self,
    (takeDigits_append (fun x hx => hall x (List.mem_cons_of_mem d hx)) hr).2⟩

theorem skipExponent_append {c : UInt8} {e : Bytes} (he : Exponent (c :: e)) (hr : Ends rest) :
    skipExponent (e ++ rest) = .ok rest := by
  have stop : ∀ x, rest.head? = some x → isDigit x = false := fun x hx => (hr x hx).1
  cases he with
  | bare _ hd =>
    obtain ⟨d, ds', rfl, hdigit, hdrop⟩ := hd.drop stop
    rw [List.cons_append, skipExponent_bare hdigit, hdrop]
  | signed _ hs hd =>
    obtain ⟨d, ds', rfl, hdigit, hdrop⟩ := hd.drop stop
    rw [List.cons_append, List.cons_append, skipExponent_signed hs hdigit, hdrop]

theorem skipNumberTail_exponent {e : Bytes} (he : Exponent e) (hr : Ends rest) :
    skipNumberTail (e ++ rest) = .ok rest := by
  cases hcase : e with
  | nil =>
    rw [List.nil_append]
    unfold skipNumberTail
    split
    · exact absurd rfl (hr _ rfl).2.1
    · exact absurd rfl (hr _ rfl).2.2.1
    · exact absurd rfl (hr _ rfl).2.2.2
    · rfl
  | cons c e' =>
    subst hcase
    have hskip := skipExponent_append he hr
    rcases he.head rfl with rfl | rfl <;> exact hskip

theorem skipFraction_append {ds e : Bytes} (hd : Digits ds) (he : Exponent e) (hr : Ends rest) :
    skipFraction (ds ++ (e ++ rest)) = .ok rest := by
  obtain ⟨htake, hdrop⟩ := takeDigits_append hd.2 fun c hc => (he.stops hr c hc).1
  have hne : ds.isEmpty = false := List.isEmpty_eq_false_iff.2 hd.1
  simp only [skipFraction, htake, hdrop, hne, Bool.false_eq_true, if_false]
  cases hcase : e with
  | nil =>
    rw [List.nil_append]
    split
    · exact absurd rfl (hr _ rfl).2.2.1
    · exact absurd rfl (hr _ rfl).2.2.2
    · rfl
  | cons c e' =>
    subst hcase
    have hskip := skipExponent_append he hr
    rcases he.head rfl with rfl | rfl <;> exact hskip

theorem skipNumberTail_append {f e : Bytes} (hf : Fraction f) (he : Exponent e) (hr : Ends rest) :
    skipNumberTail (f ++ (e ++ rest)) = .ok rest := by
  cases hf with
  | absent => exact skipNumberTail_exponent he hr
  | point hd => exact skipFraction_append hd he hr

/-- The digits of an integer and what stands behind them. -/
theorem skipUnsigned_append {ds f e : Bytes} (hd : Whole ds) (hf : Fraction f) (he : Exponent e)
    (hr : Ends rest) : skipUnsigned (ds ++ (f ++ (e ++ rest))) = .ok rest := by
  have stop := hf.stops he hr
  obtain ⟨d, ds', rfl, hdigit, hdrop⟩ := hd.1.drop stop
  have htail := skipNumberTail_append hf he hr
  rw [List.cons_append, skipUnsigned]
  split
  · next hzero =>
    subst hzero
    obtain rfl := (List.cons.inj (hd.2 rfl)).2
    rw [List.nil_append, takeDigits_eq_nil stop, htail]
    rfl
  · rw [hdrop, htail]

theorem digits_takeDigits (hb : isDigit b = true) (s : Bytes) : Digits (b :: takeDigits s) :=
  ⟨List.cons_ne_nil _ _, fun _ hd => (List.mem_cons.1 hd).elim (fun h => h ▸ hb)
    isDigit_of_mem_takeDigits⟩

theorem exponent_of_skipExponent {c : UInt8} (hc : c = 101 ∨ c = 69)
    (h : skipExponent s = .ok rest) : ∃ e, Exponent (c :: e) ∧ s = e ++ rest := by
  unfold skipExponent at h
  extract_lets t at h
  obtain ⟨u, hu⟩ : ∃ u, u = t := ⟨t, rfl⟩
  rw [← hu] at h
  have bare : ∃ ds, Digits ds ∧ u = ds ++ rest := by
    cases u with
    | nil => cases h
    | cons d r =>
      dsimp only at h
      split at h
      · next hd =>
        cases h
        exact ⟨d :: takeDigits r, digits_takeDigits hd r,
          congrArg (d :: ·) (takeDigits_append_dropDigits r).symm⟩
      · cases h
  obtain ⟨ds, hds, hsplit⟩ := bare
  have ht := hu.symm.trans hsplit
  dsimp only [t] at ht
  split at ht <;> subst ht
  · exact ⟨43 :: ds, .signed hc (.inl rfl) hds, rfl⟩
  · exact ⟨45 :: ds, .signed hc (.inr rfl) hds, rfl⟩
  · exact ⟨ds, .bare hc hds, rfl⟩

theorem fraction_of_skipFraction (h : skipFraction s = .ok rest) :
    ∃ f e, Fraction (46 :: f) ∧ Exponent e ∧ s = f ++ (e ++ rest) := by
  unfold skipFraction at h
  split at h
  · cases h
  · next hne =>
    have hds : Digits (takeDigits s) :=
      ⟨fun hnil => hne (by rw [hnil]; rfl), fun _ hd => isDigit_of_mem_takeDigits hd⟩
    have hsplit := (takeDigits_append_dropDigits s).symm
    split at h
    · next r hr =>
      obtain ⟨e, he, rfl⟩ := exponent_of_skipExponent (.inl rfl) h
      exact ⟨_, _, .point hds, he, hsplit.trans (congrArg (takeDigits s ++ ·) hr)⟩
    · next r hr =>
      obtain ⟨e, he, rfl⟩ := exponent_of_skipExponent (.inr rfl) h
      exact ⟨_, _, .point hds, he, hsplit.trans (congrArg (takeDigits s ++ ·) hr)⟩
    · cases h
      exact ⟨_, _, .point hds, .absent, hsplit⟩

theorem tail_of_skipNumberTail (h : skipNumberTail s = .ok rest) :
    ∃ f e, Fraction f ∧ Exponent e ∧ s = f ++ (e ++ rest) := by
  unfold skipNumberTail at h
  split at h
  · obtain ⟨f, e, hf, he, rfl⟩ := fraction_of_skipFraction h
    exact ⟨46 :: f, e, hf, he, rfl⟩
  · obtain ⟨e, he, rfl⟩ := exponent_of_skipExponent (.inl rfl) h
    exact ⟨[], _, .absent, he, rfl⟩
  · obtain ⟨e, he, rfl⟩ := exponent_of_skipExponent (.inr rfl) h
    exact ⟨[], _, .absent, he, rfl⟩
  · cases h
    exact ⟨[], [], .absent, .absent, rfl⟩

theorem numeral_of_skipUnsigned (h : skipUnsigned s = .ok rest) (negative : Bool) :
    ∃ v, Numeral v ∧ sign negative ++ s = v ++ rest := by
  have numeral : ∀ (ds : Bytes) {r : Bytes}, Whole ds → s = ds ++ r → skipNumberTail r = .ok rest →
      ∃ v, Numeral v ∧ sign negative ++ s = v ++ rest := by
    intro ds r hd hs h
    obtain ⟨f, e, hf, he, rfl⟩ := tail_of_skipNumberTail h
    exact ⟨_, .mk negative hd hf he, by simp only [hs, List.append_assoc]⟩
  cases s with
  | nil => cases h
  | cons b s =>
    rw [skipUnsigned] at h
    split at h
    · next hb =>
      subst hb
      split at h
      · exact numeral [48] whole_zero rfl h
      · cases h
    · next hb =>
      split at h
      · next hd =>
        refine numeral (b :: takeDigits s) ⟨digits_takeDigits hd s, fun hz => ?_⟩ ?_ h
        · exact absurd (Option.some.inj hz) hb
        · exact congrArg (b :: ·) (takeDigits_append_dropDigits s).symm
      · cases h

/-! ## Values that are no brackets -/

theorem skipName_append {g raw g₁ : Bytes} (hg : Gap g) (hr : Inside raw) (hg₁ : Gap g₁)
    (rest : Bytes) : skipName (g ++ 34 :: (raw ++ 34 :: (g₁ ++ 58 :: rest))) = .ok rest := by
  simp only [skipName, skipBlank_gap_cons hg (b := 34) rfl, if_true, skipString_of_inside hr,
    skipBlank_gap_cons hg₁ (b := 58) rfl]

theorem name_of_skipName (h : skipName s = .ok rest) : ∃ g raw g₁, Gap g ∧ Inside raw ∧ Gap g₁ ∧
    s = g ++ 34 :: (raw ++ 34 :: (g₁ ++ 58 :: rest)) := by
  unfold skipName at h
  split at h
  · cases h
  · next b r hb =>
    obtain ⟨g, hg, rfl⟩ := gap_of_skipBlank_cons hb
    split at h
    · next hquote =>
      subst hquote
      split at h
      · cases h
      · next r' hr' =>
        obtain ⟨raw, hraw, rfl⟩ := inside_of_skipStringAux hr'
        split at h
        · cases h
        · next c r'' hc =>
          obtain ⟨g₁, hg₁, rfl⟩ := gap_of_skipBlank_cons hc
          split at h
          · next hcolon =>
            subst hcolon
            cases h
            exact ⟨g, raw, g₁, hg, hraw, hg₁, rfl⟩
          · cases h
    · cases h

theorem word_of_scanWord {w : Bytes} (h : scanWord w s = .ok rest) : s = w ++ rest := by
  induction w generalizing s with
  | nil =>
    cases s <;> cases h <;> rfl
  | cons c w ih =>
    cases s with
    | nil => cases h
    | cons b s =>
      rw [scanWord] at h
      split at h
      · next hb => rw [hb, ih h, List.cons_append]
      · cases h

theorem value_of_skipScalar (h : skipScalar b s = .ok rest) :
    ∃ v, Written Inside .value v ∧ b :: s = v ++ rest := by
  unfold skipScalar at h
  split at h
  · next hb => exact ⟨_, .null, by rw [hb, word_of_scanWord h]; rfl⟩
  split at h
  · next hb => exact ⟨_, .tt, by rw [hb, word_of_scanWord h]; rfl⟩
  split at h
  · next hb => exact ⟨_, .ff, by rw [hb, word_of_scanWord h]; rfl⟩
  split at h
  · next hb =>
    obtain ⟨v, hv, hs⟩ := numeral_of_skipUnsigned h true
    exact ⟨v, .number hv, by rw [hb, ← hs]; rfl⟩
  split at h
  · obtain ⟨v, hv, hs⟩ := numeral_of_skipUnsigned h false
    exact ⟨v, .number hv, hs⟩
  split at h
  · next hb =>
    obtain ⟨raw, hraw, rfl⟩ := inside_of_skipStringAux h
    exact ⟨_, .string hraw, by rw [hb]; simp⟩
  · cases h

theorem skipScalar_numeral {v : Bytes} (hv : Numeral v) (hr : Ends rest) :
    ∃ b s, v = b :: s ∧ (b = 45 ∨ isDigit b = true) ∧ skipScalar b (s ++ rest) = .ok rest := by
  cases hv with
  | @mk negative ds f e hd hf he =>
    have hskip := skipUnsigned_append hd hf he hr
    cases negative with
    | true =>
      refine ⟨45, ds ++ (f ++ e), rfl, .inl rfl, ?_⟩
      simp only [List.append_assoc]
      exact hskip
    | false =>
      obtain ⟨d, ds', rfl⟩ := List.exists_cons_of_ne_nil hd.1.1
      have hdigit : isDigit d = true := hd.1.2 d List.mem_cons_self
      refine ⟨d, ds' ++ (f ++ e), rfl, .inr hdigit, ?_⟩
      rw [skipScalar, if_neg (isDigit_ne hdigit rfl), if_neg (isDigit_ne hdigit rfl),
        if_neg (isDigit_ne hdigit rfl), if_neg (isDigit_ne hdigit rfl), if_pos hdigit]
      simp only [List.append_assoc]
      exact hskip

end Switchboard.Json
