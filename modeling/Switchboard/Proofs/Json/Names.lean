import Switchboard.Proofs.Json.Tokens

/-!
# Strings that are read

A string is read as the text that it spells, piece by piece: runs of plain bytes, each a text of its
own, and an escape between two of them.

    scanString s = ok (name, rest) ↔ s = raw ++ quote ++ rest, and raw spells name
-/

namespace Switchboard.Json

variable {s rest raw : Bytes} {b : UInt8} {c : Char} {name : String}

/-! ## Escapes -/

theorem not_surrogates {n : Nat} (h : isHighSurrogate n = true) : isLowSurrogate n = false := by
  simp only [isHighSurrogate, isLowSurrogate, Bool.and_eq_true, decide_eq_true_eq,
    Bool.and_eq_false_iff, decide_eq_false_iff_not] at h ⊢
  omega

theorem scanLowHalf_eq_ok_iff {high : Nat} : scanLowHalf high s = .ok (c, rest) ↔
    ∃ a b c' d low, s = 92 :: 117 :: a :: b :: c' :: d :: rest ∧ hexFour a b c' d = some low ∧
      isLowSurrogate low = true ∧ c = pairOf high low := by
  constructor
  · intro h
    unfold scanLowHalf at h
    split at h
    · cases h
    · next b r =>
      split at h
      · cases h
      · next hb =>
        split at h
        · cases h
        · next u r' =>
          split at h
          · cases h
          · next hu =>
            obtain rfl := Decidable.not_not.1 hb
            obtain rfl := Decidable.not_not.1 hu
            split at h
            · cases h
            · next low r'' hlow =>
              obtain ⟨a, b, c', d, rfl, hn⟩ := scanHexFour_eq_ok_iff.1 hlow
              split at h
              · next hs =>
                obtain ⟨hc, hr⟩ := Prod.mk.inj (Except.ok.inj h)
                exact ⟨a, b, c', d, low, by rw [hr], hn, hs, hc.symm⟩
              · cases h
  · rintro ⟨a, b, c', d, low, rfl, hn, hs, hc⟩
    have hx : scanHexFour (a :: b :: c' :: d :: rest) = .ok (low, rest) :=
      scanHexFour_eq_ok_iff.2 ⟨a, b, c', d, rfl, hn⟩
    simp [scanLowHalf, hx, hs, hc, pairOf]

theorem escape_of_scanPoint (h : scanPoint s = .ok (c, rest)) :
    ∃ x, Escape (117 :: x) c ∧ s = x ++ rest := by
  unfold scanPoint at h
  split at h
  · cases h
  · next n r hn =>
    obtain ⟨x, y, z, w, rfl, hx⟩ := scanHexFour_eq_ok_iff.1 hn
    split at h
    · cases h
    · next hlow =>
      split at h
      · next hhigh =>
        obtain ⟨a, b, c', d, low, rfl, hn', hs', hc⟩ := scanLowHalf_eq_ok_iff.1 h
        rw [hc]
        exact ⟨[x, y, z, w, 92, 117, a, b, c', d], .pair hx hhigh hn' hs', rfl⟩
      · next hhigh =>
        cases h
        exact ⟨[x, y, z, w], .point hx ⟨Bool.eq_false_iff.2 hhigh, Bool.eq_false_iff.2 hlow⟩, rfl⟩

theorem scanEscape_eq_ok_iff :
    scanEscape s = .ok (c, rest) ↔ ∃ x, Escape x c ∧ s = x ++ rest := by
  constructor
  · intro h
    unfold scanEscape at h
    split at h
    · cases h
    · next b r =>
      split at h
      · next hb =>
        subst hb
        obtain ⟨x, hx, rfl⟩ := escape_of_scanPoint h
        exact ⟨_, hx, rfl⟩
      · split at h
        · next hb =>
          cases h
          exact ⟨_, .letter hb, rfl⟩
        · cases h
  · rintro ⟨x, hx, rfl⟩
    cases hx with
    | letter hb =>
      have hne : ¬ _ = (117 : UInt8) := ne_point_of_letterEscape (Option.isSome_of_eq_some hb)
      simp only [List.singleton_append, scanEscape, if_neg hne, hb]
    | @point a b c d n hn hs =>
      have hx : scanHexFour (a :: b :: c :: d :: rest) = .ok (n, rest) :=
        scanHexFour_eq_ok_iff.2 ⟨a, b, c, d, rfl, hn⟩
      simp only [List.cons_append, List.nil_append, scanEscape, if_true, scanPoint, hx, hs.1, hs.2,
        Bool.false_eq_true, if_false]
    | @pair a b c d a' b' c' d' high low hn hs hn' hs' =>
      have hx : scanHexFour (a :: b :: c :: d :: 92 :: 117 :: a' :: b' :: c' :: d' :: rest) =
          .ok (high, 92 :: 117 :: a' :: b' :: c' :: d' :: rest) :=
        scanHexFour_eq_ok_iff.2 ⟨a, b, c, d, rfl, hn⟩
      simp only [List.cons_append, List.nil_append, scanEscape, if_true, scanPoint, hx, hs,
        not_surrogates hs, Bool.false_eq_true, if_false]
      exact scanLowHalf_eq_ok_iff.2 ⟨a', b', c', d', low, rfl, hn', hs', rfl⟩

/-! ## Pieces -/

theorem takePlain_append {t : Bytes} (ht : ∀ b ∈ t, isPlain b = true) (hb : isPlain b = false)
    (s : Bytes) :
    (t ++ b :: s).takeWhile isPlain = t ∧ (t ++ b :: s).dropWhile isPlain = b :: s := by
  have hneg : ¬ isPlain b = true := by
    rw [hb]
    exact Bool.false_ne_true
  rw [List.takeWhile_append_of_pos ht, List.dropWhile_append_of_pos ht,
    List.takeWhile_cons_of_neg hneg, List.dropWhile_cons_of_neg hneg, List.append_nil]
  exact ⟨rfl, rfl⟩

/-- The text `t` stands for what was read of the run of plain bytes that is going on. -/
theorem stringPieces_of_spells (h : Spells raw name) (done t : String)
    (ht : ∀ b ∈ Text.bytes t, isPlain b = true) {fuel : Nat} (hf : raw.length < fuel) :
    stringPieces fuel done (Text.bytes t ++ (raw ++ 34 :: rest)) =
      .ok (done ++ (t ++ name), rest) := by
  induction h generalizing done t fuel with
  | nil =>
    obtain ⟨fuel, rfl⟩ := Nat.exists_eq_add_one.2 hf
    obtain ⟨htake, hdrop⟩ := takePlain_append ht (b := 34) rfl rest
    have hquote : ¬ (34 : UInt8) < 32 := by decide
    simp only [List.nil_append, stringPieces, htake, hdrop, if_neg hquote, Text.text?_bytes, if_true,
      String.append_empty]
  | @plain t' name raw ht' h ih =>
    have hrun : Text.bytes t ++ ((Text.bytes t' ++ raw) ++ 34 :: rest) =
        Text.bytes (t ++ t') ++ (raw ++ 34 :: rest) := by
      rw [Text.bytes_append, List.append_assoc, List.append_assoc]
    rw [List.length_append] at hf
    rw [hrun, ih done (t ++ t') (fun b hb => ?_) (by omega), String.append_assoc]
    rw [Text.bytes_append] at hb
    exact (List.mem_append.1 hb).elim (ht b) (ht' b)
  | @escape x raw c name hx h ih =>
    obtain ⟨fuel, rfl⟩ := Nat.exists_eq_add_one.2 (Nat.zero_lt_of_lt hf)
    have hsplit : Text.bytes t ++ ((92 :: (x ++ raw)) ++ 34 :: rest) =
        Text.bytes t ++ 92 :: (x ++ (raw ++ 34 :: rest)) := by
      rw [List.cons_append, List.append_assoc]
    obtain ⟨htake, hdrop⟩ := takePlain_append ht (b := 92) rfl (x ++ (raw ++ 34 :: rest))
    have hlow : ¬ (92 : UInt8) < 32 := by decide
    have hquote : ¬ (92 : UInt8) = 34 := by decide
    have hscan : scanEscape (x ++ (raw ++ 34 :: rest)) = .ok (c, raw ++ 34 :: rest) :=
      scanEscape_eq_ok_iff.2 ⟨x, hx, rfl⟩
    have hfuel : raw.length < fuel := by
      rw [List.length_cons, List.length_append] at hf
      omega
    have hrest := ih ((done ++ t).push c) "" (fun b hb => by cases hb) hfuel
    rw [hsplit]
    simp only [stringPieces, htake, hdrop, if_neg hlow, Text.text?_bytes, if_neg hquote, hscan]
    refine hrest.trans ?_
    rw [String.empty_append, String.push_eq_append, String.append_assoc, String.append_assoc]

theorem spells_of_stringPieces {fuel : Nat} {done : String}
    (h : stringPieces fuel done s = .ok (name, rest)) :
    ∃ raw tail, Spells raw tail ∧ s = raw ++ 34 :: rest ∧ name = done ++ tail := by
  induction fuel generalizing done s with
  | zero => cases h
  | succ fuel ih =>
    have hsplit := List.takeWhile_append_dropWhile (p := isPlain) (l := s)
    simp only [stringPieces] at h
    split at h
    · cases h
    · next b r hb =>
      rw [hb] at hsplit
      split at h
      · cases h
      · next hlow =>
        split at h
        · cases h
        · next t ht =>
          have hbytes := Text.bytes_of_text? ht
          have hplain : ∀ x ∈ Text.bytes t, isPlain x = true := fun x hx =>
            List.mem_takeWhile_imp (hbytes ▸ hx)
          rw [← hbytes] at hsplit
          split at h
          · next hquote =>
            cases h
            refine ⟨_, _, .plain hplain .nil, ?_, by rw [String.append_empty]⟩
            rw [← hsplit, hquote, List.append_nil]
          · next hquote =>
            split at h
            · cases h
            · next c r' hr =>
              obtain ⟨x, hx, rfl⟩ := scanEscape_eq_ok_iff.1 hr
              obtain ⟨raw, tail, hraw, rfl, rfl⟩ := ih h
              have hb92 : b = 92 := by
                by_contra hne
                have hstop := not_of_dropWhile hb
                rw [isPlain_iff.2 ⟨hquote, hne, hlow⟩] at hstop
                cases hstop
              refine ⟨_, _, .plain hplain (.escape hx hraw), ?_, ?_⟩
              · rw [← hsplit, hb92]
                simp
              · rw [String.push_eq_append, String.append_assoc, String.append_assoc]

/-! ## Top theorem -/

/-- **A string is read as the text that it spells.** -/
theorem scanString_eq_ok_iff :
    scanString s = .ok (name, rest) ↔ ∃ raw, Spells raw name ∧ s = raw ++ 34 :: rest := by
  constructor
  · intro h
    obtain ⟨raw, tail, hraw, hs, rfl⟩ := spells_of_stringPieces h
    exact ⟨raw, by rwa [String.empty_append], hs⟩
  · rintro ⟨raw, hraw, rfl⟩
    have hfuel : raw.length < (raw ++ 34 :: rest).length + 1 := by
      rw [List.length_append]
      omega
    have h : scanString (Text.bytes "" ++ (raw ++ 34 :: rest)) = .ok ("" ++ ("" ++ name), rest) :=
      stringPieces_of_spells hraw "" "" (fun b hb => by cases hb) hfuel
    rwa [String.empty_append, String.empty_append] at h

end Switchboard.Json
