import Mathlib.Data.List.DropRight
import Switchboard.Text.Blank

/-!
# What trimming leaves

Trimming takes the blanks in front of a text and behind it, all of them and nothing else.  What is
left is told by that alone: it stands between blanks and has none at its own ends.

    trim s = t ↔ Trimmed s t
    isBlank c ↔ c ∈ whiteSpace
-/

namespace Switchboard.Text

/-! ## Specification -/

/-- The code points with the property White_Space. -/
def whiteSpace : List Nat := [
  0x9, 0xA, 0xB, 0xC, 0xD, 0x20, 0x85, 0xA0, 0x1680, 0x2000, 0x2001, 0x2002, 0x2003, 0x2004, 0x2005,
  0x2006, 0x2007, 0x2008, 0x2009, 0x200A, 0x2028, 0x2029, 0x202F, 0x205F, 0x3000]

/-- Nothing but white space, or nothing at all. -/
def Blanks (b : String) : Prop := ∀ c ∈ b.toList, c.toNat ∈ whiteSpace

instance (b : String) : Decidable (Blanks b) := List.decidableBAll _ _

/-- `t` is what stands between the white space at the two ends of `s`. -/
structure Trimmed (s t : String) : Prop where
  padded : ∃ b b', Blanks b ∧ Blanks b' ∧ s = b ++ t ++ b'
  head : ∀ c ∈ t.toList.head?, c.toNat ∉ whiteSpace
  last : ∀ c ∈ t.toList.getLast?, c.toNat ∉ whiteSpace

variable {s t : String} {cs : List Char} {c : Char}

/-! ## Blanks -/

theorem isBlank_iff : isBlank c = true ↔ c.toNat ∈ whiteSpace := by
  simp only [isBlank, whiteSpace, Bool.or_eq_true, Bool.and_eq_true, decide_eq_true_eq, beq_iff_eq,
    List.mem_cons, List.not_mem_nil, or_false]
  omega

theorem isBlank_eq_false_iff : isBlank c = false ↔ c.toNat ∉ whiteSpace := by
  rw [← isBlank_iff, Bool.not_eq_true]

/-! ## Ends -/

/-- What is dropped in front ends where the rest begins. -/
theorem dropWhile_isBlank_append {g r : List Char} (hg : ∀ c ∈ g, isBlank c = true)
    (hr : ∀ c ∈ r.head?, isBlank c = false) : (g ++ r).dropWhile isBlank = r := by
  rw [List.dropWhile_append_of_pos hg]
  cases r with
  | nil => rfl
  | cons c r =>
    refine List.dropWhile_cons_of_neg ?_
    rw [hr c rfl]
    exact Bool.false_ne_true

theorem trimEnd_append {g r : List Char} (hr : ∀ c ∈ r.getLast?, isBlank c = false)
    (hg : ∀ c ∈ g, isBlank c = true) : trimEnd (r ++ g) = r := by
  have hreverse : (g.reverse ++ r.reverse).dropWhile isBlank = r.reverse := by
    refine dropWhile_isBlank_append (fun c hc => hg c (List.mem_reverse.1 hc)) fun c hc => ?_
    rw [List.head?_reverse] at hc
    exact hr c hc
  rw [trimEnd, List.reverse_append, hreverse, List.reverse_reverse]

theorem trimChars_append {b b' : List Char} (hb : ∀ c ∈ b, isBlank c = true)
    (hb' : ∀ c ∈ b', isBlank c = true) (hhead : ∀ c ∈ cs.head?, isBlank c = false)
    (hlast : ∀ c ∈ cs.getLast?, isBlank c = false) : trimChars (b ++ cs ++ b') = cs := by
  rw [trimChars, List.append_assoc]
  cases cs with
  | nil =>
    -- There is no place where the blanks in front end and those behind begin.
    have hall : (b ++ ([] ++ b')).dropWhile isBlank = [] :=
      List.dropWhile_eq_nil_iff.2 fun c hc => (List.mem_append.1 hc).elim (hb c) (hb' c)
    rw [hall]
    rfl
  | cons c cs =>
    have hfront : (b ++ (c :: cs ++ b')).dropWhile isBlank = c :: cs ++ b' :=
      dropWhile_isBlank_append hb hhead
    rw [hfront]
    exact trimEnd_append hlast hb'

/-- What is left, in its place between what was taken. -/
theorem exists_trimChars (cs : List Char) : ∃ b b', (∀ c ∈ b, isBlank c = true) ∧
    (∀ c ∈ b', isBlank c = true) ∧ cs = b ++ trimChars cs ++ b' := by
  refine ⟨cs.takeWhile isBlank, (cs.dropWhile isBlank).rtakeWhile isBlank,
    fun c hc => List.mem_takeWhile_imp hc, fun c hc => List.mem_rtakeWhile_imp hc, ?_⟩
  have hend : trimChars cs ++ (cs.dropWhile isBlank).rtakeWhile isBlank = cs.dropWhile isBlank :=
    List.rdropWhile_append_rtakeWhile
  rw [List.append_assoc, hend, List.takeWhile_append_dropWhile]

theorem head_trimChars (hc : c ∈ (trimChars cs).head?) : isBlank c = false := by
  -- The end is taken from what begins where the blanks in front end.
  obtain ⟨r, hr⟩ : trimChars cs <+: cs.dropWhile isBlank := List.rdropWhile_prefix isBlank _
  obtain ⟨ds, hds⟩ := List.head?_eq_some_iff.1 hc
  have hhead := List.head?_dropWhile_not isBlank cs
  rw [← hr, hds] at hhead
  exact hhead

theorem last_trimChars (hc : c ∈ (trimChars cs).getLast?) : isBlank c = false := by
  rw [trimChars, trimEnd, List.getLast?_reverse] at hc
  have hhead := List.head?_dropWhile_not isBlank (cs.dropWhile isBlank).reverse
  rw [Option.mem_def.1 hc] at hhead
  exact hhead

/-! ## Texts -/

theorem trimmed_trim (s : String) : Trimmed s (trim s) := by
  obtain ⟨b, b', hb, hb', heq⟩ := exists_trimChars s.toList
  have hchars : (trim s).toList = trimChars s.toList := String.toList_ofList
  refine ⟨⟨.ofList b, .ofList b', ?_, ?_, ?_⟩, ?_, ?_⟩
  · rw [Blanks, String.toList_ofList]
    exact fun c hc => isBlank_iff.1 (hb c hc)
  · rw [Blanks, String.toList_ofList]
    exact fun c hc => isBlank_iff.1 (hb' c hc)
  · rw [trim, ← String.ofList_append, ← String.ofList_append, ← heq, String.ofList_toList]
  · rw [hchars]
    exact fun c hc => isBlank_eq_false_iff.1 (head_trimChars hc)
  · rw [hchars]
    exact fun c hc => isBlank_eq_false_iff.1 (last_trimChars hc)

/-- **What is left of a text.** -/
theorem trim_eq_iff : trim s = t ↔ Trimmed s t := by
  constructor
  · rintro rfl
    exact trimmed_trim s
  · rintro ⟨⟨b, b', hb, hb', rfl⟩, hhead, hlast⟩
    have hchars : trimChars (b ++ t ++ b').toList = t.toList := by
      rw [String.toList_append, String.toList_append]
      exact trimChars_append (fun c hc => isBlank_iff.2 (hb c hc))
        (fun c hc => isBlank_iff.2 (hb' c hc)) (fun c hc => isBlank_eq_false_iff.2 (hhead c hc))
        fun c hc => isBlank_eq_false_iff.2 (hlast c hc)
    rw [trim, hchars, String.ofList_toList]

end Switchboard.Text
