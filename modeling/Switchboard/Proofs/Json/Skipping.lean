import Switchboard.Proofs.Json.Tokens

/-!
# What is passed over is a value

The scanner that passes a value accepts the grammar, and nothing else.  It is a machine with a stack
of open brackets: a written part takes it from one state to another whatever fuel there is (`Leads`),
and what a state still asks of the text is a derivation of its own (`Asks`, `Closes`).

    skipValue s = ok rest → s = gap ++ value ++ rest
    skipValue (gap ++ value ++ rest) = ok rest      where rest cannot go on with a numeral
-/

namespace Switchboard.Json

variable {s rest : Bytes} {b : UInt8}

/-! ## What parts begin with -/

/-- The bytes that values begin with. -/
def beginsValue (b : UInt8) : Bool :=
  b == 110 || b == 116 || b == 102 || b == 45 || b == 34 || b == 91 || b == 123 || isDigit b

theorem not_beginsValue (hb : beginsValue b = true) :
    isBlank b = false ∧ b ≠ 93 ∧ b ≠ 125 ∧ b ≠ 44 := by
  have differ : ∀ {c : UInt8}, beginsValue c = false → b ≠ c := by
    rintro c hc rfl
    rw [hb] at hc
    cases hc
  refine ⟨?_, differ rfl, differ rfl, differ rfl⟩
  simp only [isBlank, Bool.or_eq_false_iff, beq_eq_false_iff_ne]
  exact ⟨⟨⟨differ rfl, differ rfl⟩, differ rfl⟩, differ rfl⟩

variable {S : Bytes → Prop}

theorem Written.begins {v : Bytes} (h : Written S .value v) :
    ∃ b s, v = b :: s ∧ beginsValue b = true := by
  cases h with
  | null => exact ⟨110, nullTail, rfl, rfl⟩
  | tt => exact ⟨116, trueTail, rfl, rfl⟩
  | ff => exact ⟨102, falseTail, rfl, rfl⟩
  | number hn =>
    obtain ⟨b, s, rfl, hb, -⟩ := skipScalar_numeral hn ends_nil
    refine ⟨b, s, rfl, ?_⟩
    rcases hb with rfl | hb
    · rfl
    · simp only [beginsValue, hb, Bool.or_true]
  | string => exact ⟨34, _, rfl, rfl⟩
  | empty k | @filled k => cases k <;> exact ⟨_, _, rfl, rfl⟩

theorem Written.skipBlank_value {g v : Bytes} (hg : Gap g) (h : Written S .value v) (s : Bytes) :
    skipBlank (g ++ (v ++ s)) = v ++ s := by
  obtain ⟨b, r, rfl, hb⟩ := h.begins
  exact skipBlank_gap_cons hg (not_beginsValue hb).1 _

/-- No item begins with the bracket that would close the list or the object. -/
theorem Written.items_begin {k : Bracket} {b : Bytes} (h : Written S (.items k) b) (s : Bytes) :
    ∃ c r, skipBlank (b ++ s) = c :: r ∧ c ≠ k.close := by
  have item : ∀ {b : Bytes} (s : Bytes), Written S (.item k) b →
      ∃ c r, skipBlank (b ++ s) = c :: r ∧ c ≠ k.close := by
    intro b s h
    cases h with
    | @element g v g' hg hv hg' =>
      obtain ⟨c, r, rfl, hc⟩ := hv.begins
      refine ⟨c, r ++ (g' ++ s), ?_, (not_beginsValue hc).2.1⟩
      simp only [List.append_assoc, List.cons_append, skipBlank_gap_cons hg (not_beginsValue hc).1]
    | @member g raw g₁ g₂ v g' hg =>
      refine ⟨34, raw ++ 34 :: (g₁ ++ 58 :: (g₂ ++ (v ++ (g' ++ s)))), ?_, by decide⟩
      simp only [List.append_assoc, List.cons_append, skipBlank_gap_cons hg (b := 34) rfl]
  cases h with
  | last hb => exact item s hb
  | more hb =>
    rw [List.append_assoc]
    exact item _ hb

theorem Written.gap {k : Bracket} {g b : Bytes} (hg : Gap g) (h : Written S (.items k) b) :
    Written S (.items k) (g ++ b) := by
  have item : ∀ {b : Bytes}, Written S (.item k) b → Written S (.item k) (g ++ b) := by
    intro b h
    cases h with
    | element hg₀ hv hg' =>
      rw [← List.append_assoc]
      exact .element (hg.append hg₀) hv hg'
    | member hg₀ hs hg₁ hg₂ hv hg' =>
      rw [← List.append_assoc]
      exact .member (hg.append hg₀) hs hg₁ hg₂ hv hg'
  cases h with
  | last hb => exact .last (item hb)
  | more hb hbs =>
    rw [← List.append_assoc]
    exact .more (item hb) hbs

/-! ## The machine -/

/-- Whatever fuel there is, enough for the text, the machine comes from one state to another. -/
def Leads (e : Expect) (o : List Bracket) (s : Bytes) (e' : Expect) (o' : List Bracket)
    (s' : Bytes) : Prop :=
  ∀ fuel, s.length < fuel → ∃ fuel', s'.length < fuel' ∧ skipAux fuel e o s = skipAux fuel' e' o' s'

variable {e e' e'' : Expect} {o o' o'' : List Bracket} {s' s'' : Bytes}

theorem Leads.trans (h : Leads e o s e' o' s') (h' : Leads e' o' s' e'' o'' s'') :
    Leads e o s e'' o'' s'' := fun fuel hf => by
  obtain ⟨fuel', hf', heq⟩ := h fuel hf
  obtain ⟨fuel'', hf'', heq'⟩ := h' fuel' hf'
  exact ⟨fuel'', hf'', heq.trans heq'⟩

/-- One step takes one unit of fuel, and something from the text. -/
theorem leads_step (hs : s'.length < s.length)
    (h : ∀ fuel, skipAux (fuel + 1) e o s = skipAux fuel e' o' s') : Leads e o s e' o' s' :=
  fun fuel hf => by
    obtain ⟨fuel, rfl⟩ := Nat.exists_eq_add_one.2 (Nat.zero_lt_of_lt hf)
    exact ⟨fuel, by omega, h fuel⟩

/-- The gap behind an item. -/
theorem leads_gap {g : Bytes} (hg : Gap g) (k : Bracket) (s : Bytes) :
    Leads .next (k :: o) (g ++ s) .next (k :: o) s := fun fuel hf => by
  obtain ⟨fuel, rfl⟩ := Nat.exists_eq_add_one.2 (Nat.zero_lt_of_lt hf)
  rw [List.length_append] at hf
  exact ⟨fuel + 1, by omega,
    skipAux_congr (.inr (List.cons_ne_nil _ _)) (skipBlank_append hg s) fuel⟩

theorem leads_comma (k : Bracket) (s : Bytes) :
    Leads .next (k :: o) (44 :: s) k.inside (k :: o) s :=
  leads_step (Nat.lt_succ_self _) fun fuel => by
    simp only [skipAux, skipBlank_cons (b := 44) rfl, if_true]

theorem leads_close (k : Bracket) (s : Bytes) : Leads .next (k :: o) (k.close :: s) .next o s :=
  leads_step (Nat.lt_succ_self _) fun fuel => by
    have hcomma : k.close ≠ 44 := by cases k <;> decide
    simp only [skipAux, skipBlank_cons k.isBlank_close, if_neg hcomma, if_true]

theorem Bracket.isBlank_opening (k : Bracket) : isBlank k.opening = false := by cases k <;> rfl

theorem skipAux_opening {k : Bracket} {r : Bytes} (h : skipBlank s = k.opening :: r) (fuel : Nat) :
    skipAux (fuel + 1) .value o s =
      match skipBlank r with
      | [] => .error (.ahead k.unclosed [])
      | c :: r' =>
        if c = k.close then skipAux fuel .next o r'
        else skipAux fuel k.inside (k :: o) (c :: r') := by
  cases k <;> simp only [skipAux, h] <;> rfl

theorem leads_empty {g g' : Bytes} (hg : Gap g) (hg' : Gap g') (k : Bracket) (s : Bytes) :
    Leads .value o (g ++ k.opening :: (g' ++ k.close :: s)) .next o s := by
  refine leads_step (by simp only [List.length_append, List.length_cons]; omega) fun fuel => ?_
  rw [skipAux_opening (skipBlank_gap_cons hg k.isBlank_opening _),
    skipBlank_gap_cons hg' k.isBlank_close]
  exact if_pos rfl

theorem leads_open {g b : Bytes} (hg : Gap g) (k : Bracket)
    (hb : ∃ c r, skipBlank b = c :: r ∧ c ≠ k.close) :
    Leads .value o (g ++ k.opening :: b) k.inside (k :: o) b := fun fuel hf => by
  obtain ⟨c, r, hcr, hc⟩ := hb
  have hpos : 0 < b.length := by
    have hle := length_skipBlank_le b
    rw [hcr, List.length_cons] at hle
    omega
  rw [List.length_append, List.length_cons] at hf
  obtain ⟨fuel, rfl⟩ : ∃ n, fuel = n + 2 := ⟨fuel - 2, by omega⟩
  refine ⟨fuel + 1, by omega, ?_⟩
  have hagain : skipBlank (c :: r) = skipBlank b := by
    rw [hcr, skipBlank_cons (isBlank_of_skipBlank hcr)]
  have hinside : k.inside ≠ .next := by cases k <;> decide
  rw [← skipAux_congr (.inl hinside) hagain,
    skipAux_opening (skipBlank_gap_cons hg k.isBlank_opening _), hcr]
  exact if_neg hc

theorem leads_scalar {g v : Bytes} (hg : Gap g) {b : UInt8} {r : Bytes} (hv : v = b :: r)
    (hb : beginsValue b = true) (ho : b ≠ 91 ∧ b ≠ 123)
    (h : skipScalar b (r ++ rest) = .ok rest) : Leads .value o (g ++ (v ++ rest)) .next o rest := by
  subst hv
  refine leads_step (by simp only [List.length_append, List.length_cons]; omega) fun fuel => ?_
  simp only [List.cons_append, skipAux, skipBlank_gap_cons hg (not_beginsValue hb).1,
    ho.1, ho.2, Bool.or_eq_true, or_self, if_false, h, decide_false, Bool.false_eq_true]

/-- Where the machine comes when it passes a part of a document; only a numeral has to be ended by
what stands behind it. -/
def Passes : Part → Bytes → Prop
  | .value, v => ∀ o g rest, Gap g → (Numeral v → Ends rest) →
      Leads .value o (g ++ (v ++ rest)) .next o rest
  | .item k, b => ∀ o c rest, c = 44 ∨ c = k.close →
      Leads k.inside (k :: o) (b ++ c :: rest) .next (k :: o) (c :: rest)
  | .items k, b => ∀ o rest, Leads k.inside (k :: o) (b ++ k.close :: rest) .next o rest

theorem Bracket.ends_of {k : Bracket} {c : UInt8} (hc : c = 44 ∨ c = k.close) (s : Bytes) :
    Ends (c :: s) := by
  rcases hc with rfl | rfl
  · exact ends_cons (by decide) s
  · exact k.ends_close s

/-- **The machine passes all that is written.** -/
theorem Written.passes (hS : ∀ s, S s → Inside s) {part : Part} {v : Bytes}
    (h : Written S part v) : Passes part v := by
  induction h with
  | null =>
    exact fun o g rest hg _ => leads_scalar hg rfl rfl (by decide) (scanWord_append nullTail rest)
  | tt =>
    exact fun o g rest hg _ => leads_scalar hg rfl rfl (by decide) (scanWord_append trueTail rest)
  | ff =>
    exact fun o g rest hg _ => leads_scalar hg rfl rfl (by decide) (scanWord_append falseTail rest)
  | number hn =>
    intro o g rest hg hr
    obtain ⟨b, r, rfl, hb, hskip⟩ := skipScalar_numeral hn (hr hn)
    obtain ⟨b', r', heq, hbegins⟩ := (Written.number (S := S) hn).begins
    obtain ⟨rfl, rfl⟩ := List.cons.inj heq
    refine leads_scalar hg rfl hbegins ?_ hskip
    rcases hb with rfl | hb
    · decide
    · exact ⟨isDigit_ne hb rfl, isDigit_ne hb rfl⟩
  | @string s hs =>
    intro o g rest hg _
    refine leads_scalar hg rfl rfl (by decide) ?_
    rw [List.append_assoc]
    exact skipString_of_inside (hS s hs) rest
  | empty k hg' =>
    intro o g rest hg _
    have hleads := leads_empty (o := o) hg hg' k rest
    simpa only [List.cons_append, List.append_assoc, List.nil_append] using hleads
  | @filled k b hb ih =>
    intro o g rest hg _
    have hleads := (leads_open (o := o) hg k (hb.items_begin (k.close :: rest))).trans (ih o rest)
    simpa only [List.cons_append, List.append_assoc, List.nil_append] using hleads
  | @last k b hb ih =>
    intro o rest
    exact (ih o k.close rest (.inr rfl)).trans (leads_close k rest)
  | @more k b bs hb hbs ih ihs =>
    intro o rest
    rw [List.append_assoc]
    exact (ih o 44 _ (.inl rfl)).trans ((leads_comma k _).trans (ihs o rest))
  | @element g v g' hg hv hg' ih =>
    intro o c rest hc
    simp only [List.append_assoc]
    exact (ih _ g _ hg fun _ => .gap hg' (Bracket.ends_of hc rest)).trans (leads_gap hg' .list _)
  | @member g s g₁ g₂ v g' hg hs hg₁ hg₂ hv hg' ih =>
    intro o c rest hc
    have hname := skipName_append hg (hS s hs) hg₁ (g₂ ++ (v ++ (g' ++ c :: rest)))
    have hstep : Leads .member (.object :: o)
        (g ++ 34 :: (s ++ 34 :: (g₁ ++ 58 :: (g₂ ++ (v ++ (g' ++ c :: rest)))))) .value
        (.object :: o) (g₂ ++ (v ++ (g' ++ c :: rest))) :=
      leads_step (by simp only [List.length_append, List.length_cons]; omega) fun fuel => by
        simp only [skipAux, hname]
    have hvalue := ih (.object :: o) g₂ _ hg₂ fun _ => .gap hg' (Bracket.ends_of hc rest)
    simp only [List.append_assoc, List.cons_append]
    exact hstep.trans (hvalue.trans (leads_gap hg' .object _))

/-- A value is passed, with the gap in front of it, if what follows is no part of it. -/
theorem skipValue_written (hS : ∀ s, S s → Inside s) {g v : Bytes} (hg : Gap g)
    (hv : Written S .value v) (hr : Numeral v → Ends rest) :
    skipValue (g ++ (v ++ rest)) = .ok rest := by
  obtain ⟨fuel, hf, heq⟩ := hv.passes hS [] g rest hg hr _ (Nat.lt_succ_self _)
  obtain ⟨fuel, rfl⟩ := Nat.exists_eq_add_one.2 (Nat.zero_lt_of_lt hf)
  rw [skipValue, heq, skipAux]

theorem skipValue_append (hS : ∀ s, S s → Inside s) {g v : Bytes} (hg : Gap g)
    (hv : Written S .value v) (hr : Ends rest) : skipValue (g ++ (v ++ rest)) = .ok rest :=
  skipValue_written hS hg hv fun _ => hr

/-! ## What the machine accepts -/

/-- What a stack of open brackets still asks of the text. -/
inductive Closes : List Bracket → Bytes → Prop
  | done : Closes [] []
  | close {k : Bracket} {o : List Bracket} {g t : Bytes} (hg : Gap g) (ht : Closes o t) :
      Closes (k :: o) (g ++ k.close :: t)
  | more {k : Bracket} {o : List Bracket} {g b t : Bytes} (hg : Gap g)
      (hb : Written Inside (.items k) b) (ht : Closes o t) :
      Closes (k :: o) (g ++ 44 :: (b ++ k.close :: t))

/-- What a state of the machine asks of the text. -/
def Asks (o : List Bracket) : Expect → Bytes → Prop
  | .value, s => ∃ g v t, Gap g ∧ Written Inside .value v ∧ Closes o t ∧ s = g ++ (v ++ t)
  | .member, s => ∃ g raw g₁ g₂ v t, Gap g ∧ Inside raw ∧ Gap g₁ ∧ Gap g₂ ∧
      Written Inside .value v ∧ Closes o t ∧
      s = g ++ 34 :: (raw ++ 34 :: (g₁ ++ 58 :: (g₂ ++ (v ++ t))))
  | .next, s => Closes o s

/-- Inside a bracket that is items, and then what the others ask. -/
theorem Asks.items {k : Bracket} (h : Asks (k :: o) k.inside s) :
    ∃ b t, Written Inside (.items k) b ∧ Closes o t ∧ s = b ++ k.close :: t := by
  have finish : ∀ {b t : Bytes}, (∀ {g}, Gap g → Written Inside (.item k) (b ++ g)) →
      Closes (k :: o) t → ∃ b' t', Written Inside (.items k) b' ∧ Closes o t' ∧
        b ++ t = b' ++ k.close :: t' := by
    intro b t hitem ht
    cases ht with
    | @close _ _ g t hg ht =>
      exact ⟨b ++ g, t, .last (hitem hg), ht, (List.append_assoc ..).symm⟩
    | @more _ _ g bs t hg hbs ht =>
      refine ⟨(b ++ g) ++ 44 :: bs, t, .more (hitem hg) hbs, ht, ?_⟩
      simp only [List.append_assoc, List.cons_append]
  cases k with
  | list =>
    obtain ⟨g, v, t, hg, hv, ht, rfl⟩ := h
    rw [← List.append_assoc]
    exact finish (fun hg' => by rw [List.append_assoc]; exact .element hg hv hg') ht
  | object =>
    obtain ⟨g, raw, g₁, g₂, v, t, hg, hraw, hg₁, hg₂, hv, ht, rfl⟩ := h
    have hsplit : g ++ 34 :: (raw ++ 34 :: (g₁ ++ 58 :: (g₂ ++ (v ++ t)))) =
        (g ++ 34 :: (raw ++ 34 :: (g₁ ++ 58 :: (g₂ ++ v)))) ++ t := by
      simp only [List.append_assoc, List.cons_append]
    rw [hsplit]
    refine finish (fun hg' => ?_) ht
    simp only [List.append_assoc, List.cons_append]
    exact .member hg hraw hg₁ hg₂ hv hg'

/-- With this fuel the machine accepts nothing but what its state asks for. -/
def Exact (fuel : Nat) : Prop :=
  ∀ {e : Expect} {o : List Bracket} {s rest : Bytes}, skipAux fuel e o s = .ok rest →
    ∃ c, Asks o e c ∧ s = c ++ rest

theorem Exact.value {fuel : Nat} (ih : Exact fuel) (h : skipAux (fuel + 1) .value o s = .ok rest) :
    ∃ c, Asks o .value c ∧ s = c ++ rest := by
  cases hb : skipBlank s with
  | nil =>
    rw [skipAux, hb] at h
    cases h
  | cons b r =>
    obtain ⟨g, hg, rfl⟩ := gap_of_skipBlank_cons hb
    by_cases hk : ∃ k : Bracket, b = k.opening
    · obtain ⟨k, rfl⟩ := hk
      rw [skipAux_opening hb] at h
      split at h
      · cases h
      · next c r' hc =>
        obtain ⟨g', hg', rfl⟩ := gap_of_skipBlank_cons hc
        split at h
        · next hclose =>
          subst hclose
          obtain ⟨t, ht, rfl⟩ := ih h
          exact ⟨_, ⟨g, _, t, hg, .empty k hg', ht, rfl⟩, by simp⟩
        · obtain ⟨t, ht, heq⟩ := ih h
          obtain ⟨b, t', hitems, ht', rfl⟩ := ht.items
          refine ⟨_, ⟨g, _, t', hg, .filled (.gap hg' hitems), ht', rfl⟩, ?_⟩
          rw [heq]
          simp
    · have hopening : (b = 91 || b = 123) = false := by
        simp only [Bool.or_eq_false_iff, decide_eq_false_iff_not]
        exact ⟨fun hb => hk ⟨.list, hb⟩, fun hb => hk ⟨.object, hb⟩⟩
      simp only [skipAux, hb, hopening, Bool.false_eq_true, if_false] at h
      split at h
      · cases h
      · next r' hr =>
        obtain ⟨t, ht, rfl⟩ := ih h
        obtain ⟨v, hv, heq⟩ := value_of_skipScalar hr
        exact ⟨_, ⟨g, v, t, hg, hv, ht, rfl⟩, by rw [heq]; simp⟩

theorem Exact.member {fuel : Nat} (ih : Exact fuel)
    (h : skipAux (fuel + 1) .member o s = .ok rest) : ∃ c, Asks o .member c ∧ s = c ++ rest := by
  rw [skipAux] at h
  split at h
  · cases h
  · next r hr =>
    obtain ⟨g, raw, g₁, hg, hraw, hg₁, rfl⟩ := name_of_skipName hr
    obtain ⟨c, ⟨g₂, v, t, hg₂, hv, ht, rfl⟩, rfl⟩ := ih h
    exact ⟨_, ⟨g, raw, g₁, g₂, v, t, hg, hraw, hg₁, hg₂, hv, ht, rfl⟩, by simp⟩

theorem Exact.next {fuel : Nat} (ih : Exact fuel) (h : skipAux (fuel + 1) .next o s = .ok rest) :
    ∃ c, Asks o .next c ∧ s = c ++ rest := by
  cases o with
  | nil =>
    rw [skipAux] at h
    cases h
    exact ⟨[], .done, rfl⟩
  | cons k o =>
    rw [skipAux] at h
    split at h
    · cases h
    · next b r hb =>
      obtain ⟨g, hg, rfl⟩ := gap_of_skipBlank_cons hb
      split at h
      · next hcomma =>
        subst hcomma
        obtain ⟨c, hc, rfl⟩ := ih h
        obtain ⟨b, t, hitems, ht, rfl⟩ := hc.items
        exact ⟨_, .more hg hitems ht, by simp⟩
      · split at h
        · next hclose =>
          subst hclose
          obtain ⟨t, ht, rfl⟩ := ih h
          exact ⟨_, .close hg ht, by simp⟩
        · cases h

/-- **The machine accepts nothing but what its state asks for.** -/
theorem exact_skipAux (fuel : Nat) : Exact fuel := by
  induction fuel with
  | zero =>
    intro e o s rest h
    rw [skipAux] at h
    cases h
  | succ fuel ih =>
    intro e o s rest h
    cases e with
    | value => exact ih.value h
    | member => exact ih.member h
    | next => exact ih.next h

/-! ## Top theorem -/

/-- **What is passed over is a value**, behind a gap. -/
theorem value_of_skipValue (h : skipValue s = .ok rest) :
    ∃ g v, Gap g ∧ Written Inside .value v ∧ s = g ++ (v ++ rest) := by
  obtain ⟨c, ⟨g, v, t, hg, hv, ht, rfl⟩, rfl⟩ := exact_skipAux _ h
  cases ht
  exact ⟨g, v, hg, hv, by simp⟩

/-- Where a value ends is known from the text. -/
theorem Written.unique (hS : ∀ s, S s → Inside s) {v v' : Bytes} (hv : Written S .value v)
    (hv' : Written S .value v') (hr : Ends rest) (hr' : Ends s') (h : v ++ rest = v' ++ s') :
    v = v' ∧ rest = s' := by
  have hskip := skipValue_append hS gap_nil hv hr
  rw [h, skipValue_append hS gap_nil hv' hr'] at hskip
  obtain rfl := Except.ok.inj hskip
  exact ⟨List.append_cancel_right h, rfl⟩

end Switchboard.Json
