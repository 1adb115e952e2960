import Switchboard.Config.Level
import Switchboard.Proofs.Text.Lowering
import Switchboard.Proofs.Text.Trimming

/-!
# Which texts name a level

A text names a level if it is one of the names of that level between white space, its letters A to Z
written large or small.  Lower-casing is that of all letters there are, but a name is in ASCII and
has no k, so no letter from elsewhere becomes part of one.

    ofText s = ok l ↔ lowerAscii t names l      for the text t between the white space of s
    ofText (blanks ++ l.name ++ blanks) = ok l
-/

namespace Switchboard.Level

open Text

/-! ## Specification -/

/-- The names, in small letters; two levels have a second one. -/
inductive Denotes : String → Level → Prop
  | trace : Denotes "trace" trace
  | debug : Denotes "debug" debug
  | info : Denotes "info" info
  | warn : Denotes "warn" warn
  | warning : Denotes "warning" warn
  | error : Denotes "error" error
  | err : Denotes "err" error

variable {s t n : String} {l : Level}

/-! ## Names -/

theorem denotes_of_mem_names (h : (n, l) ∈ names) : Denotes n l := by
  simp only [names, List.mem_cons, List.not_mem_nil, or_false, Prod.mk.injEq] at h
  obtain ⟨rfl, rfl⟩ | ⟨rfl, rfl⟩ | ⟨rfl, rfl⟩ | ⟨rfl, rfl⟩ | ⟨rfl, rfl⟩ | ⟨rfl, rfl⟩ | ⟨rfl, rfl⟩ := h
  · exact .trace
  · exact .debug
  · exact .info
  · exact .warn
  · exact .warning
  · exact .error
  · exact .err

/-- The table holds every name once. -/
theorem find?_names_of_denotes (h : Denotes n l) : names.find? (·.1 == n) = some (n, l) := by
  cases h <;> rfl

theorem denotes_name (l : Level) : Denotes l.name l := by
  cases l
  · exact .trace
  · exact .debug
  · exact .info
  · exact .warn
  · exact .error

/-- What is needed of the letters of names: they are in ASCII, none of them is k, none is white. -/
theorem Denotes.letters (h : Denotes n l) :
    ∀ c ∈ n.toList, c.toNat < 128 ∧ c ≠ 'k' ∧ c.toNat ∉ whiteSpace := by
  have hall : n.toList.all (fun c => c.toNat < 128 ∧ c ≠ 'k' ∧ c.toNat ∉ whiteSpace) = true := by
    cases h <;> decide
  exact fun c hc => of_decide_eq_true (List.all_eq_true.1 hall c hc)

/-! ## Texts -/

theorem ofText_eq_ok_iff : ofText s = .ok l ↔ Denotes (lower (trim s)) l := by
  unfold ofText
  generalize lower (trim s) = n
  dsimp only
  constructor
  · intro h
    split at h
    · next m l' hfind =>
      cases h
      have hbeq := List.find?_some hfind
      obtain rfl : m = n := eq_of_beq hbeq
      exact denotes_of_mem_names (List.mem_of_find?_eq_some hfind)
    · cases h
  · intro h
    rw [find?_names_of_denotes h]

theorem ofText_eq_error (h : ∀ l, ofText s ≠ .ok l) : ofText s = .error ⟨lower (trim s)⟩ := by
  unfold ofText at h ⊢
  dsimp only at h ⊢
  split
  · next hfind =>
    rw [hfind] at h
    exact absurd rfl (h _)
  · rfl

/-- Lower-casing makes a name of nothing but that name, in whatever case. -/
theorem denotes_lower_iff : Denotes (lower t) l ↔ Denotes (lowerAscii t) l := by
  have hsame : ∀ {n}, Denotes n l → (lower t = n ↔ lowerAscii t = n) := fun h =>
    lower_eq_iff (fun c hc => (h.letters c hc).1) fun hk => (h.letters _ hk).2.1 rfl
  constructor
  · intro h
    rw [(hsame h).1 rfl]
    exact h
  · intro h
    rw [(hsame h).2 rfl]
    exact h

theorem ofText_of_trimmed (hs : Trimmed s t) : ofText s = .ok l ↔ Denotes (lowerAscii t) l := by
  rw [ofText_eq_ok_iff, trim_eq_iff.2 hs, denotes_lower_iff]

/-! ## Letters -/

theorem toLower_mem_of_lowerAscii (h : lowerAscii t = n) {c : Char} (hc : c ∈ t.toList) :
    c.toLower ∈ n.toList := by
  rw [← h, lowerAscii, String.toList_ofList]
  exact List.mem_map_of_mem hc

theorem toLower_white {c : Char} (hc : c.toNat ∈ whiteSpace) : c.toLower = c := by
  have hcapital : ∀ m ∈ whiteSpace, ¬ (65 ≤ m ∧ m ≤ 90) := by decide
  exact Char.toLower_eq_of_not_isUpper (isUpper_iff.not.2 (hcapital _ hc))

/-- A name in whatever case has no white space. -/
theorem not_white_of_denotes (h : Denotes (lowerAscii t) l) :
    ∀ c ∈ t.toList, c.toNat ∉ whiteSpace := fun c hc hwhite => by
  have hletter := h.letters _ (toLower_mem_of_lowerAscii rfl hc)
  rw [toLower_white hwhite] at hletter
  exact hletter.2.2 hwhite

/-- A name in whatever case is in ASCII. -/
theorem isAscii_of_denotes (h : Denotes (lowerAscii t) l) : IsAscii t.toList := fun c hc => by
  have hletter := (h.letters _ (toLower_mem_of_lowerAscii rfl hc)).1
  by_contra hout
  rw [toLower_outside (Nat.le_of_not_lt hout)] at hletter
  exact hout hletter

theorem trimmed_of_denotes (h : Denotes (lowerAscii t) l) {b b' : String} (hb : Blanks b)
    (hb' : Blanks b') : Trimmed (b ++ t ++ b') t where
  padded := ⟨b, b', hb, hb', rfl⟩
  head c hc := not_white_of_denotes h c (List.mem_of_mem_head? hc)
  last c hc := not_white_of_denotes h c (List.mem_of_getLast? hc)

/-! ## Top theorem -/

/-- **Which texts name a level.**  A text is accepted exactly if what stands between the white space
at its two ends is, up to the case of A to Z, a name, and then for the level of that name.  If there is a
character outside ASCII in between, the text is refused, whatever its lower case is, and that lower
case is told.  The name that a level is shown by gives it back, between any white space and in any case. -/
theorem recognised_exactly :
    (∀ s l, ofText s = .ok l ↔ ∃ t, Trimmed s t ∧ Denotes (lowerAscii t) l) ∧
    (∀ s t, Trimmed s t → (∃ c ∈ t.toList, 128 ≤ c.toNat) → ofText s = .error ⟨lower t⟩) ∧
    ∀ l b t b', Blanks b → Blanks b' → lowerAscii t = l.name → ofText (b ++ t ++ b') = .ok l := by
  refine ⟨fun s l => ⟨fun h => ?_, ?_⟩, fun s t hs ⟨c, hc, hout⟩ => ?_,
    fun l b t b' hb hb' ht => ?_⟩
  · have hs := trimmed_trim s
    exact ⟨trim s, hs, (ofText_of_trimmed hs).1 h⟩
  · rintro ⟨t, hs, hn⟩
    exact (ofText_of_trimmed hs).2 hn
  · have hrefused : ∀ l, ofText s ≠ .ok l := fun l hok => by
      have hlow := isAscii_of_denotes ((ofText_of_trimmed hs).1 hok) c hc
      omega
    rw [ofText_eq_error hrefused, trim_eq_iff.2 hs]
  · have hn : Denotes (lowerAscii t) l := ht ▸ denotes_name l
    exact (ofText_of_trimmed (trimmed_of_denotes hn hb hb')).2 hn

/-- A name between an ideographic space and a line end, one of which the first letter is İ, and one
between a tab and a space that does not break. -/
theorem recognised_padded :
    (Trimmed "\u3000WaRnInG\n" "WaRnInG" ∧ ofText "\u3000WaRnInG\n" = .ok .warn) ∧
    (Trimmed "\u0130nfo " "\u0130nfo" ∧ ofText "\u0130nfo " = .error ⟨"i\u0307nfo"⟩) ∧
    Blanks "\t" ∧ Blanks "\u00a0" ∧ lowerAscii "eRROr" = name .error ∧
    ofText ("\t" ++ "eRROr" ++ "\u00a0") = .ok .error := by
  obtain ⟨hiff, hforeign, hshown⟩ := recognised_exactly
  have hwarning : Trimmed "\u3000WaRnInG\n" "WaRnInG" := trim_eq_iff.1 (by decide)
  have hinfo : Trimmed "\u0130nfo " "\u0130nfo" := trim_eq_iff.1 (by decide)
  have hlower : lower "\u0130nfo" = "i\u0307nfo" := by decide +kernel
  refine ⟨⟨hwarning, (hiff _ _).2 ⟨_, hwarning, .warning⟩⟩, ⟨hinfo, ?_⟩, by decide, by decide, rfl,
    hshown .error _ _ _ (by decide) (by decide) rfl⟩
  rw [← hlower]
  exact hforeign _ _ hinfo ⟨'\u0130', by decide, by decide⟩

end Switchboard.Level
