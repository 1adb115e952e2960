import Switchboard.Proofs.Config.Overrides

/-!
# What an override stands for

The text of an override is read as a document if it is one, of whatever kind, and is kept as it
stands otherwise.  A number within the doubles, true and false come out as such (`SaysSimple`), and
as long as there are no other documents that is what is promised (`Promised`); null, strings in
quotes, lists and objects are read all the same.

    Numeral (bytes t) → Moderate (bytes t) → ∃ n, scalar t = number n, and t stands for n
    t is no document → scalar t = string t
    t is no document but a simple one → Promised t (scalar t)
-/

namespace Switchboard.Config

open Json

/-! ## Specification -/

/-- Numbers, true and false. -/
inductive Simple : Value → Prop
  | number (n : Number) : Simple (.number n)
  | bool (b : Bool) : Simple (.bool b)

/-- A number, true or false, between blanks, where numerals stand for numbers as `N` says. -/
def SaysSimple (N : Bytes → Number → Prop) (v : Value) (b : Bytes) : Prop :=
  Simple v ∧ ∃ g t g', Gap g ∧ Plainly ⟨N, fun _ _ => False⟩ v t ∧ Gap g' ∧ b = g ++ (t ++ g')

/-- What an override is to stand for: a number, true or false if it is one, and else itself. -/
inductive Promised (t : String) : Value → Prop
  | simple {v : Value} (h : SaysSimple Stands v (Text.bytes t)) : Promised t v
  | text (h : ∀ v, ¬ SaysSimple Held v (Text.bytes t)) : Promised t (.string t)

variable {N N' : Bytes → Number → Prop} {t : String} {v w : Value} {b : Bytes} {n : Number}

/-! ## Simple texts -/

theorem SaysSimple.documentText (h : SaysSimple N v b) : DocumentText N v b := by
  obtain ⟨-, g, t, g', hg, ht, hg', rfl⟩ := h
  exact ⟨1, g, t, g', hg, ht.depicts _, hg', rfl⟩

/-- How numbers, true and false begin. -/
def SimpleHead (c : UInt8) : Prop := c = 45 ∨ isDigit c = true ∨ c = 116 ∨ c = 102

theorem SimpleHead.other {c x : UInt8} (h : SimpleHead c)
    (hx : x ≠ 45 ∧ isDigit x = false ∧ x ≠ 116 ∧ x ≠ 102) : c ≠ x := by
  rintro rfl
  obtain ⟨hminus, hdigit, htrue, hfalse⟩ := hx
  rcases h with h | h | h | h
  · exact hminus h
  · cases hdigit.symm.trans h
  · exact htrue h
  · exact hfalse h

theorem head_of_simple {S : Sense} (h : Plainly S v b) (hv : Simple v) :
    ∃ c r, b = c :: r ∧ SimpleHead c ∧ isBlank c = false := by
  obtain ⟨c, r, rfl, hbegins⟩ := h.begins
  refine ⟨c, r, rfl, ?_, (not_beginsValue hbegins).1⟩
  generalize heq : c :: r = b at h
  cases hv with
  | bool x =>
    cases x with
    | true =>
      cases h
      exact .inr (.inr (.inl (List.cons.inj heq).1))
    | false =>
      cases h
      exact .inr (.inr (.inr (List.cons.inj heq).1))
  | number n =>
    cases h with
    | number ht =>
      obtain ⟨d, s, hs, hd, -⟩ := skipScalar_numeral ht ends_nil
      obtain ⟨rfl, -⟩ := List.cons.inj (heq.trans hs)
      exact hd.imp_right .inl

theorem saysSimple_of_plainly {S : Sense} {c : UInt8} {r : Bytes} (h : Plainly S v (c :: r))
    (hc : SimpleHead c) : Simple v ∧ Plainly ⟨S.number, fun _ _ => False⟩ v (c :: r) := by
  generalize heq : c :: r = b at h
  cases h with
  | null => exact absurd (List.cons.inj heq).1 (hc.other (by decide))
  | tt => exact ⟨.bool true, .tt⟩
  | ff => exact ⟨.bool false, .ff⟩
  | number ht hn => exact ⟨.number _, .number ht hn⟩
  | string => exact absurd (List.cons.inj heq).1 (hc.other (by decide))

/-- Where a text is a number, true or false, it says nothing else. -/
theorem saysSimple_of_documentText (h : SaysSimple N v b) (hw : DocumentText N' w b) :
    SaysSimple N' w b := by
  obtain ⟨hv, g, t, g', hg, ht, -, rfl⟩ := h
  obtain ⟨c, r, rfl, hc, hblank⟩ := head_of_simple ht hv
  obtain ⟨nested, hw⟩ := hw
  cases nested with
  | zero => cases hw
  | succ nested =>
    obtain ⟨g₂, t₂, g₂', hg₂, hw, hg₂', heq⟩ := hw
    obtain ⟨c₂, r₂, rfl, hbegins⟩ := hw.begins
    -- both texts begin where the blanks end
    have hskip := congrArg skipBlank heq
    rw [List.cons_append, List.cons_append, skipBlank_gap_cons hg hblank,
      skipBlank_gap_cons hg₂ (not_beginsValue hbegins).1] at hskip
    obtain ⟨rfl, -⟩ := List.cons.inj hskip
    obtain ⟨hsimple, hplain⟩ := saysSimple_of_plainly
      (plainly_of_depicts hw (hc.other (by decide)) (hc.other (by decide))) hc
    exact ⟨hsimple, g₂, c :: r₂, g₂', hg₂, hplain, hg₂', heq⟩

/-- A numeral says what it stands for, and nothing else. -/
theorem number_of_documentText (h : Numeral b) (hv : DocumentText N v b) :
    ∃ n, v = .number n ∧ N b n := by
  have hplain : Plainly ⟨fun _ _ => True, fun _ _ => False⟩ (.number (.integer 0)) b :=
    .number h trivial
  have hsays : SaysSimple (fun _ _ => True) (.number (.integer 0)) b :=
    ⟨.number _, [], b, [], gap_nil, hplain, gap_nil, by simp⟩
  obtain ⟨-, g, t, g', hg, ht, hg', heq⟩ := saysSimple_of_documentText hsays hv
  obtain ⟨c, r, rfl, hbegins⟩ := hplain.begins
  obtain ⟨d, s, hs, hd, -⟩ := skipScalar_numeral h ends_nil
  obtain ⟨rfl, rfl⟩ := List.cons.inj hs
  obtain rfl : g = [] := by
    cases g with
    | nil => rfl
    | cons x g =>
      have hblank := hg x List.mem_cons_self
      rw [← (List.cons.inj heq).1, (not_beginsValue hbegins).1] at hblank
      cases hblank
  rw [List.nil_append] at heq
  have hhead : t.head? = some c := by
    obtain ⟨x, y, rfl, -⟩ := ht.begins
    rw [(List.cons.inj heq).1]
    rfl
  have other : ∀ {x : UInt8}, x ≠ 45 → isDigit x = false → some x ≠ some c := by
    intro x hminus hx hxc
    obtain rfl := Option.some.inj hxc
    exact hd.elim hminus fun hd => by cases hx.symm.trans hd
  cases ht with
  | number hnum hn =>
    rw [← List.append_nil (c :: r)] at heq
    obtain ⟨rfl, -⟩ := Written.unique (fun _ => id) (.number h) (.number hnum) ends_nil
      (ends_of_gap hg') heq
    exact ⟨_, rfl, hn⟩
  | null | tt | ff | string => exact absurd hhead (other (by decide) rfl)

/-! ## Texts -/

theorem scalar_of_document (h : document (Text.bytes t) = .ok v) : scalar t = v := by
  have hne : t ≠ "" := by
    rintro rfl
    cases h
  rw [scalar, if_neg hne, h]

theorem scalar_of_error {p : Problem} (h : document (Text.bytes t) = .error p) :
    scalar t = .string t := by
  unfold scalar
  split
  · next hempty => rw [hempty]
  · rw [h]

/-- A document stands for what it says, of whatever kind it is. -/
theorem scalar_of_documentText (h : DocumentText Held v (Text.bytes t)) :
    DocumentText Stands (scalar t) (Text.bytes t) := by
  obtain ⟨w, hw⟩ := document_of_documentText h
  rw [scalar_of_document hw]
  exact documentText_of_document hw

/-- What begins as no value does is no document. -/
theorem not_documentText_of_head {c : UInt8} (hblank : isBlank c = false)
    (hc : beginsValue c = false) : ¬ DocumentText N v (c :: b) := by
  rintro ⟨nested, h⟩
  cases nested with
  | zero => cases h
  | succ nested =>
    obtain ⟨g, t, g', hg, ht, -, heq⟩ := h
    obtain ⟨d, r, rfl, hd⟩ := ht.begins
    have hskip := congrArg skipBlank heq
    rw [List.cons_append, skipBlank_cons hblank,
      skipBlank_gap_cons hg (not_beginsValue hd).1] at hskip
    obtain ⟨rfl, -⟩ := List.cons.inj hskip
    cases hc.symm.trans hd

theorem scalar_of_no_document (h : ∀ v, ¬ DocumentText Stands v (Text.bytes t)) :
    scalar t = .string t := by
  obtain ⟨p, hp⟩ := document_eq_error h
  exact scalar_of_error hp

/-- What is kept is no document. -/
theorem no_document_of_scalar (h : scalar t = .string t) (v : Value) :
    ¬ DocumentText Held v (Text.bytes t) := fun hv =>
  not_documentText_self t (h ▸ scalar_of_documentText hv)

/-- An integer of at most 64 bits is read as it is written. -/
theorem scalar_of_denotes {m : Int} (h : Denotes (Text.bytes t) m) (hm : FitsWord m) :
    scalar t = .number (.integer m) := by
  have hscan : Scanned (Text.bytes t) (.integer m) :=
    scanNumber_eq_ok_iff.2 ⟨_, h, (List.append_nil _).symm, ends_nil, hm.1, hm.2⟩
  have hplain : Plainly ⟨Scanned, fun _ _ => False⟩ (.number (.integer m)) (Text.bytes t) :=
    .number h.numeral hscan
  exact scalar_of_document (document_eq_ok_iff.2
    (SaysSimple.documentText ⟨.number _, [], _, [], gap_nil, hplain, gap_nil, by simp⟩))

/-- **A numeral within the doubles is read as a number**, and as what it stands for. -/
theorem scalar_of_moderate (h : Numeral (Text.bytes t)) (hm : Moderate (Text.bytes t)) :
    ∃ n, scalar t = .number n ∧ Stands (Text.bytes t) n := by
  obtain ⟨n, hn⟩ := scanNumber_of_moderate hm
  have hplain : Plainly ⟨Scanned, fun _ _ => False⟩ (.number n) (Text.bytes t) := .number h hn
  refine ⟨n, scalar_of_document (document_eq_ok_iff.2 (SaysSimple.documentText
    ⟨.number _, [], _, [], gap_nil, hplain, gap_nil, by simp⟩)), stands_of_scanNumber hn⟩

/-- **A numeral beyond the doubles is kept.** -/
theorem scalar_of_beyond (h : Numeral (Text.bytes t)) (hb : Beyond (Text.bytes t)) :
    scalar t = .string t := by
  refine scalar_of_no_document fun v hv => ?_
  obtain ⟨n, -, hn⟩ := number_of_documentText h hv
  exact hb.not_stands hn

/-- **What is promised holds of texts that are no documents but simple ones.** -/
theorem promised_scalar
    (h : ∀ v, DocumentText Stands v (Text.bytes t) → ∃ w, SaysSimple Stands w (Text.bytes t)) :
    Promised t (scalar t) := by
  cases hd : document (Text.bytes t) with
  | ok v =>
    rw [scalar_of_document hd]
    have hv := documentText_of_document hd
    obtain ⟨w, hw⟩ := h v hv
    exact .simple (saysSimple_of_documentText hw hv)
  | error p =>
    rw [scalar_of_error hd]
    refine .text fun v hv => ?_
    obtain ⟨w, hw⟩ := document_of_documentText hv.documentText
    cases hd.symm.trans hw

/-- **It holds of no others** that are read. -/
theorem simple_of_promised (h : Promised t (scalar t)) (hv : DocumentText Held v (Text.bytes t)) :
    ∃ w, SaysSimple Stands w (Text.bytes t) := by
  have hsays := scalar_of_documentText hv
  generalize scalar t = u at h hsays
  cases h with
  | simple h => exact ⟨_, h⟩
  | text => exact absurd hsays (not_documentText_self t)

/-! ## Top theorem -/

/-- **What an override stands for.**  A numeral within the doubles stands for a number, an integer of
64 bits for itself, true and false for themselves; and a numeral beyond the doubles, and whatever is
no document, for the text that it is.  Any other document stands for what it says, so what is promised
holds of texts that are no documents but simple ones, and of no others.  What the trimmed value of a
variable stands for is found at the path of that. -/
theorem scalars_exactly (t : String) :
    (∀ m, Denotes (Text.bytes t) m → FitsWord m → scalar t = .number (.integer m)) ∧
    (Numeral (Text.bytes t) → Moderate (Text.bytes t) →
      ∃ n, scalar t = .number n ∧ Stands (Text.bytes t) n) ∧
    (Numeral (Text.bytes t) → Beyond (Text.bytes t) → scalar t = .string t) ∧
    (∀ c, t = (if c then "true" else "false") → scalar t = .bool c) ∧
    ((∀ v, ¬ DocumentText Stands v (Text.bytes t)) → scalar t = .string t) ∧
    (∀ v, DocumentText Held v (Text.bytes t) → DocumentText Stands (scalar t) (Text.bytes t) ∧
      scalar t ≠ .string t) ∧
    ((∀ v, DocumentText Stands v (Text.bytes t) → ∃ w, SaysSimple Stands w (Text.bytes t)) →
      Promised t (scalar t)) ∧
    (Promised t (scalar t) → ∀ v, DocumentText Held v (Text.bytes t) →
      ∃ w, SaysSimple Stands w (Text.bytes t)) ∧
    ∀ (v : Value) (before after : Env) (var : String × String) (p : List String), Sets var.1 p →
      (∀ x ∈ after, ∀ q, Sets x.1 q → Apart p q) → Text.trim var.2 = t →
      (applyOverrides v (before ++ var :: after)).at? p = some (scalar t) := by
  refine ⟨fun _ => scalar_of_denotes, scalar_of_moderate, scalar_of_beyond, fun c hc => ?_,
    scalar_of_no_document, fun v hv => ⟨scalar_of_documentText hv, fun h =>
      no_document_of_scalar h v hv⟩, promised_scalar, fun h _ => simple_of_promised h,
    fun v before after var p hvar h htrim => ?_⟩
  · subst hc
    cases c <;> rfl
  · rw [at?_applyOverrides_last v before after hvar h, htrim]

/-- A word that is no document, for a field. -/
def worded : Env := [("SIGNAL_RELAY__HOST", " localhost ")]

theorem parts_fraction : Parts (Text.bytes "1.5") false 15 1 0 := by
  have hone : Whole [49] := ⟨⟨List.cons_ne_nil _ _, List.all_eq_true.1 rfl⟩, by decide⟩
  have hhalf : Digits [53] := ⟨List.cons_ne_nil _ _, List.all_eq_true.1 rfl⟩
  exact .mk false hone (.point hhalf) .absent

theorem parts_power : Parts (Text.bytes "1e400") false 1 0 400 := by
  have hone : Whole [49] := ⟨⟨List.cons_ne_nil _ _, List.all_eq_true.1 rfl⟩, by decide⟩
  have hpower : Digits [52, 48, 48] := ⟨List.cons_ne_nil _ _, List.all_eq_true.1 rfl⟩
  exact .mk false hone .absent (.bare (.inl rfl) hpower)

theorem moderate_fraction : Moderate (Text.bytes "1.5") := by
  refine ⟨false, _, .finite parts_fraction (by decide), ?_⟩
  have htop : (2 : ℚ) ^ (2 : ℤ) ≤ 2 ^ (1024 : ℤ) := Double.two_zpow_le (by decide)
  rw [slack_eq, roundoff_eq]
  -- the power is too great to be worked out
  generalize (2 : ℚ) ^ (1024 : ℤ) = top at htop ⊢
  norm_num at htop ⊢
  linarith

theorem beyond_power : Beyond (Text.bytes "1e400") := by
  refine .finite (.finite parts_power (by decide)) ?_
  have hbelow := above_all Nat.one_pos (by decide : 308 < 399)
  have hpower : (400 : Int) - (0 : Nat) = (399 + 1 : Nat) := rfl
  have htop := Double.two_zpow_pos 1024
  rw [hpower, zpow_natCast, pow_succ, ← mul_assoc ((1 : Nat) : ℚ), slack_eq, roundoff_eq]
  -- the powers are too great to be worked out
  generalize (2 : ℚ) ^ (1024 : ℤ) = top at hbelow htop ⊢
  generalize ((1 : Nat) : ℚ) * 10 ^ 399 = below at hbelow ⊢
  linarith

theorem scalars_worded : scalar "-12" = .number (.integer (-12)) ∧
    (∃ n, scalar "1.5" = .number n ∧ Stands (Text.bytes "1.5") n) ∧
    scalar "1e400" = .string "1e400" ∧
    (applyOverrides defaults worded).at? ["host"] = some (.string "localhost") ∧
    Promised "localhost" (scalar "localhost") := by
  obtain ⟨hinteger, -⟩ := scalars_exactly "-12"
  obtain ⟨-, hnumber, -⟩ := scalars_exactly "1.5"
  obtain ⟨-, -, hbeyond, -⟩ := scalars_exactly "1e400"
  obtain ⟨-, -, -, -, htext, -, hpromised, -, hpath⟩ := scalars_exactly "localhost"
  have hdigits : Whole [49, 50] := ⟨⟨List.cons_ne_nil _ _, List.all_eq_true.1 rfl⟩, by decide⟩
  have htwelve : Denotes (Text.bytes "-12") (-12) := .minus hdigits (by decide)
  have hword : ∀ v, ¬ DocumentText Stands v (Text.bytes "localhost") := fun v =>
    not_documentText_of_head (c := 108) rfl rfl
  have hsets : Sets "SIGNAL_RELAY__HOST" ["host"] := by decide +kernel
  refine ⟨hinteger _ htwelve ⟨by decide, by decide⟩, hnumber parts_fraction.numeral moderate_fraction,
    hbeyond parts_power.numeral beyond_power, ?_, hpromised fun v hv => absurd hv (hword v)⟩
  rw [← htext hword]
  exact hpath defaults [] [] ("SIGNAL_RELAY__HOST", " localhost ") ["host"] hsets nofun rfl

/-- Null is not kept as a text: the assets that a variable names so are none at all. -/
theorem null_not_promised :
    scalar "null" = .null ∧ ¬ Promised "null" (scalar "null") ∧
      (applyOverrides defaults [("SIGNAL_RELAY__ASSETS__WWW_PATH", "null")]).at?
        ["assets", "www_path"] = some .null ∧
      (load { env := [("SIGNAL_RELAY__ASSETS__WWW_PATH", "null")] }).1.wwwPath = none := by
  refine ⟨rfl, fun h => ?_, rfl, rfl⟩
  have hnull : scalar "null" = .null := rfl
  rw [hnull] at h
  cases h with
  | simple h => cases h.1

end Switchboard.Config
