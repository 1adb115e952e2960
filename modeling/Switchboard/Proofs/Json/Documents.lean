import Switchboard.Proofs.Json.Numerals
import Switchboard.Proofs.Json.Records
import Switchboard.Proofs.Json.Trees
import Switchboard.Proofs.Text.Pieces

/-!
# Documents that are read

What a text says (`Depicts`) follows its grammar: a word, a number or a string stands for itself, a
list for its elements in order, an object for its members, of which the last one of each name counts.
At most so many brackets are inside each other as may be.  Which numbers numerals stand for is a
parameter, and so is what a text stands for that an object has under `rawName` (`Quoted`); in a
document that text is a document again.  A reader takes such texts and nothing else, and what it
gives is what they say.

    document s = ok v ↔ s is a text that says v, between blanks
-/

namespace Switchboard.Json

/-! ## Specification -/

/-- What numerals stand for, and the texts that stand for values. -/
structure Sense where
  number : Bytes → Number → Prop
  text : Bytes → Value → Prop

/-- A value that is no bracket, as it is written. -/
inductive Plainly (S : Sense) : Value → Bytes → Prop
  | null : Plainly S .null (110 :: nullTail)
  | tt : Plainly S (.bool true) (116 :: trueTail)
  | ff : Plainly S (.bool false) (102 :: falseTail)
  | number {t : Bytes} {n : Number} (ht : Numeral t) (hn : S.number t n) : Plainly S (.number n) t
  | string {raw : Bytes} {t : String} (h : Spells raw t) : Plainly S (.string t) (34 :: (raw ++ [34]))

section Items

variable {α : Type}

/-- An element of a list, of which `Q` says how it is written. -/
def Element (Q : α → Bytes → Prop) (a : α) (b : Bytes) : Prop :=
  ∃ g t, Gap g ∧ Q a t ∧ b = g ++ t

/-- A member of an object, of which `Q` says how its value is written. -/
def Entry (name : α → String) (Q : α → Bytes → Prop) (a : α) (b : Bytes) : Prop :=
  ∃ g raw g₁ g₂ t, Gap g ∧ Spells raw (name a) ∧ Gap g₁ ∧ Gap g₂ ∧ Q a t ∧
    b = g ++ 34 :: (raw ++ 34 :: (g₁ ++ 58 :: (g₂ ++ t)))

end Items

/-- The first member, if there is any, has another name than `rawName`. -/
def Unquoted (ms : Members) : Prop := ∀ m ∈ ms.head?, m.1 ≠ rawName

/-- An object that has nothing but a text, under `rawName`, and what that stands for. -/
def Quoted (S : Sense) (v : Value) (b : Bytes) : Prop :=
  ∃ t body, Body (Entry Prod.fst fun m => Plainly S m.2) [(rawName, .string t)] body ∧
    S.text (Text.bytes t) v ∧ b = 123 :: (body ++ [125])

/-- What a text says, inside at most `depth` more brackets. -/
def Depicts (S : Sense) : Nat → Value → Bytes → Prop
  | 0, v, b => Plainly S v b
  | depth + 1, v, b => Plainly S v b ∨
    (∃ vs body, Body (Element (Depicts S depth)) vs body ∧ v = .array vs ∧
      b = 91 :: (body ++ [93])) ∨
    (∃ ms body, Body (Entry Prod.fst fun m => Depicts S depth m.2) ms body ∧ Unquoted ms ∧
      v = .object (Members.ofList ms) ∧ b = 123 :: (body ++ [125])) ∨
    Quoted S v b

/-- A whole text that says a value. -/
def SaysWhole (S : Sense) (v : Value) (b : Bytes) : Prop :=
  ∃ g t g', Gap g ∧ Depicts S maxDepth v t ∧ Gap g' ∧ b = g ++ (t ++ g')

/-- A whole text that says a value, where numerals stand for numbers as `N` says and texts for values
at most `nested - 1` times inside each other. -/
def SaysWithin (N : Bytes → Number → Prop) : Nat → Value → Bytes → Prop
  | 0, _, _ => False
  | nested + 1, v, b => SaysWhole ⟨N, fun t u => SaysWithin N nested u t⟩ v b

/-- A document, and the value that it says. -/
def DocumentText (N : Bytes → Number → Prop) (v : Value) (b : Bytes) : Prop :=
  ∃ nested, SaysWithin N nested v b

/-- What is read of a numeral. -/
def Scanned (t : Bytes) (n : Number) : Prop := scanNumber t = .ok (n, [])

/-- What is read of numerals, and by `inner` of texts. -/
def senseOf (inner : Bytes → Except Problem Value) : Sense := ⟨Scanned, fun t v => inner t = .ok v⟩

/-! ## Items of a list -/

variable {σ α : Type} {s t rest : Bytes} {b : UInt8} {v : Value} {depth fuel : Nat} {first : Bool}
  {S : Sense} {inner : Bytes → Except Problem Value}

/-- The text begins as values do. -/
def Begins (t : Bytes) : Prop := ∃ b r, t = b :: r ∧ beginsValue b = true

theorem ends_of_gap {g : Bytes} (hg : Gap g) : Ends g := by
  have h := Ends.gap hg ends_nil
  rwa [List.append_nil] at h

theorem nextElement_begins {g : Bytes} (hg : Gap g) (ht : Begins t) (s : Bytes) :
    nextElement true (g ++ (t ++ s)) = .ok (.item (t ++ s)) := by
  obtain ⟨b, r, rfl, hb⟩ := ht
  obtain ⟨hblank, hclose, -⟩ := not_beginsValue hb
  simp only [nextElement, List.cons_append, skipBlank_gap_cons hg hblank, if_neg hclose, if_true]

theorem nextElement_comma_begins {g g' : Bytes} (hg : Gap g) (hg' : Gap g') (ht : Begins t)
    (s : Bytes) : nextElement false (g ++ 44 :: (g' ++ (t ++ s))) = .ok (.item (t ++ s)) := by
  obtain ⟨b, r, rfl, hb⟩ := ht
  obtain ⟨hblank, hclose, -⟩ := not_beginsValue hb
  have h44 : ¬ (44 : UInt8) = 93 := by decide
  simp only [nextElement, List.cons_append, skipBlank_gap_cons hg (b := 44) rfl,
    skipBlank_gap_cons hg' hblank, if_neg hclose, if_neg h44, Bool.false_eq_true, if_false, if_true]

theorem ends_of_leadsIn {g : Bytes} (h : leadsIn false g) (s : Bytes) : Ends (g ++ s) := by
  obtain ⟨g₁, g₂, hg₁, -, rfl⟩ := h
  rw [List.append_assoc]
  exact .gap hg₁ (ends_cons (by decide) _)

theorem ends_of_nextElement {turn : Turn} (h : nextElement false s = .ok turn) : Ends s := by
  obtain ⟨g, r, -, hg, rfl⟩ | ⟨g, r, -, hg, rfl⟩ := of_nextElement h
  · exact .gap hg (Bracket.ends_close .list r)
  · exact ends_of_leadsIn hg r

theorem ends_of_nextMember {turn : Turn} (h : nextMember false s = .ok turn) : Ends s := by
  obtain ⟨g, r, -, hg, rfl⟩ | ⟨g, r, -, hg, rfl⟩ := of_nextMember h
  · exact .gap hg (Bracket.ends_close .object r)
  · exact ends_of_leadsIn hg _

section Elements

variable {step : σ → Bytes → Scan σ} {Q : α → Bytes → Prop} {takes : σ → α → σ → Prop} {as : List α}
  {acc acc' : σ}

/-- One element, and then the others. -/
theorem foldElements_item {r r' : Bytes} {c : σ} (hnext : nextElement first s = .ok (.item r))
    (hone : step acc r = .ok (c, r')) :
    foldElements step (fuel + 1) first acc s = foldElements step fuel false c r' := by
  rw [foldElements, hnext]
  dsimp only
  rw [hone]

/-- Elements are folded over one after the other, up to the bracket. -/
theorem foldElements_more (hbegins : ∀ {a t}, Q a t → Begins t)
    (hstep : ∀ {acc a acc' t rest}, takes acc a acc' → Q a t → Ends rest →
      step acc (t ++ rest) = .ok (acc', rest))
    (hm : More (Element Q) as t) (h : Admits takes as acc acc') (hf : as.length < fuel) :
    foldElements step fuel false acc (t ++ 93 :: rest) = .ok (acc', rest) := by
  induction hm generalizing acc fuel with
  | done hg =>
    obtain ⟨fuel, rfl⟩ := Nat.exists_eq_add_one.2 (Nat.zero_lt_of_lt hf)
    rw [foldElements, nextElement_close hg, (h : acc' = acc)]
  | @next g b t a as hg ha hm ih =>
    obtain ⟨fuel, rfl⟩ := Nat.exists_eq_add_one.2 (Nat.zero_lt_of_lt hf)
    obtain ⟨g', u, hg', hu, rfl⟩ := ha
    obtain ⟨c, hc, hrest⟩ := h
    have hnext := nextElement_comma_begins hg hg' (hbegins hu) (t ++ 93 :: rest)
    have hone : step acc (u ++ (t ++ 93 :: rest)) = .ok (c, t ++ 93 :: rest) :=
      hstep hc hu (hm.ends .list rest)
    simp only [List.append_assoc, List.cons_append]
    rw [foldElements_item hnext hone]
    exact ih hrest (Nat.lt_of_succ_lt_succ hf)

theorem foldElements_body (hbegins : ∀ {a t}, Q a t → Begins t)
    (hstep : ∀ {acc a acc' t rest}, takes acc a acc' → Q a t → Ends rest →
      step acc (t ++ rest) = .ok (acc', rest))
    (hb : Body (Element Q) as t) (h : Admits takes as acc acc') (hf : as.length < fuel) :
    foldElements step fuel true acc (t ++ 93 :: rest) = .ok (acc', rest) := by
  obtain ⟨fuel, rfl⟩ := Nat.exists_eq_add_one.2 (Nat.zero_lt_of_lt hf)
  cases hb with
  | empty hg => rw [foldElements, nextElement_close hg, (h : acc' = acc)]
  | @filled b t a as ha hm =>
    obtain ⟨g, u, hg, hu, rfl⟩ := ha
    obtain ⟨c, hc, hrest⟩ := h
    have hnext := nextElement_begins hg (hbegins hu) (t ++ 93 :: rest)
    have hone : step acc (u ++ (t ++ 93 :: rest)) = .ok (c, t ++ 93 :: rest) :=
      hstep hc hu (hm.ends .list rest)
    simp only [List.append_assoc]
    rw [foldElements_item hnext hone]
    exact foldElements_more @hbegins @hstep hm hrest (Nat.lt_of_succ_lt_succ hf)

/-- What further elements are folded over ends what stands in front of it. -/
theorem ends_of_foldElements (h : foldElements step fuel false acc s = .ok (acc', rest)) : Ends s := by
  cases fuel with
  | zero => cases h
  | succ fuel =>
    rw [foldElements] at h
    split at h
    · cases h
    · next hnext => exact ends_of_nextElement hnext
    · next hnext => exact ends_of_nextElement hnext

/-- What is folded over are the elements of a list. -/
theorem elements_of_foldElements
    (hstep : ∀ {acc s acc' rest}, step acc s = .ok (acc', rest) → Ends rest →
      ∃ a g t, Gap g ∧ Q a t ∧ takes acc a acc' ∧ s = g ++ (t ++ rest))
    (h : foldElements step fuel first acc s = .ok (acc', rest)) :
    (∃ g, Gap g ∧ acc' = acc ∧ s = g ++ 93 :: rest) ∨ ∃ g a as b t, leadsIn first g ∧
      (∀ {g'}, Gap g' → Element Q a (g' ++ b)) ∧ More (Element Q) as t ∧
      Admits takes (a :: as) acc acc' ∧ s = g ++ (b ++ (t ++ 93 :: rest)) := by
  induction fuel generalizing first acc s with
  | zero => cases h
  | succ fuel ih =>
    rw [foldElements] at h
    split at h
    · cases h
    · next r hr =>
      cases h
      obtain ⟨g, r, hturn, hg, rfl⟩ | ⟨g, r, hturn, -⟩ := of_nextElement hr
      · cases hturn
        exact .inl ⟨g, hg, rfl, rfl⟩
      · cases hturn
    · next r hr =>
      obtain ⟨g, r, hturn, -⟩ | ⟨g, r, hturn, hg, rfl⟩ := of_nextElement hr
      · cases hturn
      · cases hturn
        split at h
        · cases h
        · next acc₁ r' hone =>
          obtain ⟨a, g₁, t, hg₁, ha, htakes, rfl⟩ := hstep hone (ends_of_foldElements h)
          have helement : ∀ {g'}, Gap g' → Element Q a (g' ++ (g₁ ++ t)) := fun {g'} hg' =>
            ⟨g' ++ g₁, t, hg'.append hg₁, ha, (List.append_assoc ..).symm⟩
          obtain ⟨g₃, hg₃, rfl, rfl⟩ | ⟨g₃, a', as, b, t', hlead, hb, hmore, hadmits, rfl⟩ := ih h
          · exact .inr ⟨g, a, [], _, g₃, hg, helement, .done hg₃, ⟨_, htakes, rfl⟩, by simp⟩
          · obtain ⟨g₄, g₅, hg₄, hg₅, rfl⟩ := hlead
            exact .inr ⟨g, a, a' :: as, _, _, hg, helement, .next hg₄ (hb hg₅) hmore,
              ⟨_, htakes, hadmits⟩, by simp⟩

end Elements

/-! ## Members of an object -/

section Entries

variable {step : σ → String → Bytes → Scan σ} {name : α → String} {Q : α → Bytes → Prop}
  {takes : σ → α → σ → Prop} {as : List α} {acc acc' : σ}

/-- One member, and then the others. -/
theorem foldMembers_item {raw r r' : Bytes} {n : String} {c : σ}
    (hnext : nextMember first s = .ok (.item (raw ++ 34 :: r))) (hraw : Spells raw n)
    (hone : step acc n r = .ok (c, r')) :
    foldMembers step (fuel + 1) first acc s = foldMembers step fuel false c r' := by
  have hname : scanString (raw ++ 34 :: r) = .ok (n, r) := scanString_eq_ok_iff.2 ⟨raw, hraw, rfl⟩
  rw [foldMembers, hnext]
  dsimp only
  rw [hname]
  dsimp only
  rw [hone]

/-- Members are folded over one after the other, up to the brace. -/
theorem foldMembers_more
    (hstep : ∀ {acc a acc' t g₁ g₂ rest}, takes acc a acc' → Q a t → Gap g₁ → Gap g₂ → Ends rest →
      step acc (name a) (g₁ ++ 58 :: (g₂ ++ (t ++ rest))) = .ok (acc', rest))
    (hm : More (Entry name Q) as t) (h : Admits takes as acc acc') (hf : as.length < fuel) :
    foldMembers step fuel false acc (t ++ 125 :: rest) = .ok (acc', rest) := by
  induction hm generalizing acc fuel with
  | done hg =>
    obtain ⟨fuel, rfl⟩ := Nat.exists_eq_add_one.2 (Nat.zero_lt_of_lt hf)
    rw [foldMembers, nextMember_close hg, (h : acc' = acc)]
  | @next g b t a as hg ha hm ih =>
    obtain ⟨fuel, rfl⟩ := Nat.exists_eq_add_one.2 (Nat.zero_lt_of_lt hf)
    obtain ⟨g', raw, g₁, g₂, u, hg', hraw, hg₁, hg₂, hu, rfl⟩ := ha
    obtain ⟨c, hc, hrest⟩ := h
    have hnext := nextMember_comma hg hg' (raw ++ 34 :: (g₁ ++ 58 :: (g₂ ++ (u ++
      (t ++ 125 :: rest)))))
    have hone := hstep hc hu hg₁ hg₂ (hm.ends .object rest)
    simp only [List.append_assoc, List.cons_append]
    rw [foldMembers_item hnext hraw hone]
    exact ih hrest (Nat.lt_of_succ_lt_succ hf)

theorem foldMembers_body
    (hstep : ∀ {acc a acc' t g₁ g₂ rest}, takes acc a acc' → Q a t → Gap g₁ → Gap g₂ → Ends rest →
      step acc (name a) (g₁ ++ 58 :: (g₂ ++ (t ++ rest))) = .ok (acc', rest))
    (hb : Body (Entry name Q) as t) (h : Admits takes as acc acc') (hf : as.length < fuel) :
    foldMembers step fuel true acc (t ++ 125 :: rest) = .ok (acc', rest) := by
  obtain ⟨fuel, rfl⟩ := Nat.exists_eq_add_one.2 (Nat.zero_lt_of_lt hf)
  cases hb with
  | empty hg => rw [foldMembers, nextMember_close hg, (h : acc' = acc)]
  | @filled b t a as ha hm =>
    obtain ⟨g, raw, g₁, g₂, u, hg, hraw, hg₁, hg₂, hu, rfl⟩ := ha
    obtain ⟨c, hc, hrest⟩ := h
    have hnext := nextMember_first hg (raw ++ 34 :: (g₁ ++ 58 :: (g₂ ++ (u ++
      (t ++ 125 :: rest)))))
    have hone := hstep hc hu hg₁ hg₂ (hm.ends .object rest)
    simp only [List.append_assoc, List.cons_append]
    rw [foldMembers_item hnext hraw hone]
    exact foldMembers_more @hstep hm hrest (Nat.lt_of_succ_lt_succ hf)

/-- What further members are folded over ends what stands in front of it. -/
theorem ends_of_foldMembers (h : foldMembers step fuel false acc s = .ok (acc', rest)) : Ends s := by
  cases fuel with
  | zero => cases h
  | succ fuel =>
    rw [foldMembers] at h
    split at h
    · cases h
    · next hnext => exact ends_of_nextMember hnext
    · next hnext => exact ends_of_nextMember hnext

/-- What is folded over are the members of an object. -/
theorem entries_of_foldMembers
    (hstep : ∀ {acc n s acc' rest}, step acc n s = .ok (acc', rest) → Ends rest →
      ∃ a g₁ g₂ t, name a = n ∧ Gap g₁ ∧ Gap g₂ ∧ Q a t ∧ takes acc a acc' ∧
        s = g₁ ++ 58 :: (g₂ ++ (t ++ rest)))
    (h : foldMembers step fuel first acc s = .ok (acc', rest)) :
    (∃ g, Gap g ∧ acc' = acc ∧ s = g ++ 125 :: rest) ∨ ∃ g a as b t, leadsIn first g ∧
      (∀ {g'}, Gap g' → Entry name Q a (g' ++ b)) ∧ More (Entry name Q) as t ∧
      Admits takes (a :: as) acc acc' ∧ s = g ++ (b ++ (t ++ 125 :: rest)) := by
  induction fuel generalizing first acc s with
  | zero => cases h
  | succ fuel ih =>
    rw [foldMembers] at h
    split at h
    · cases h
    · next r hr =>
      cases h
      obtain ⟨g, r, hturn, hg, rfl⟩ | ⟨g, r, hturn, -⟩ := of_nextMember hr
      · cases hturn
        exact .inl ⟨g, hg, rfl, rfl⟩
      · cases hturn
    · next r hr =>
      obtain ⟨g, r, hturn, -⟩ | ⟨g, r, hturn, hg, rfl⟩ := of_nextMember hr
      · cases hturn
      · cases hturn
        split at h
        · cases h
        · next n r' hname =>
          obtain ⟨raw, hraw, rfl⟩ := scanString_eq_ok_iff.1 hname
          split at h
          · cases h
          · next acc₁ r'' hone =>
            obtain ⟨a, g₁, g₂, t, rfl, hg₁, hg₂, ha, htakes, rfl⟩ :=
              hstep hone (ends_of_foldMembers h)
            have hentry : ∀ {g'}, Gap g' → Entry name Q a
                (g' ++ 34 :: (raw ++ 34 :: (g₁ ++ 58 :: (g₂ ++ t)))) := fun {g'} hg' =>
              ⟨g', raw, g₁, g₂, t, hg', hraw, hg₁, hg₂, ha, rfl⟩
            obtain ⟨g₃, hg₃, rfl, rfl⟩ | ⟨g₃, a', as, b, t', hlead, hb, hmore, hadmits, rfl⟩ := ih h
            · exact .inr ⟨g, a, [], _, g₃, hg, hentry, .done hg₃, ⟨_, htakes, rfl⟩, by simp⟩
            · obtain ⟨g₄, g₅, hg₄, hg₅, rfl⟩ := hlead
              exact .inr ⟨g, a, a' :: as, _, _, hg, hentry, .next hg₄ (hb hg₅) hmore,
                ⟨_, htakes, hadmits⟩, by simp⟩

end Entries

/-! ## Values -/

theorem Plainly.begins (h : Plainly S v t) : Begins t := by
  cases h with
  | null => exact ⟨110, nullTail, rfl, rfl⟩
  | tt => exact ⟨116, trueTail, rfl, rfl⟩
  | ff => exact ⟨102, falseTail, rfl, rfl⟩
  | number ht => exact (Written.number (S := Inside) ht).begins
  | string => exact ⟨34, _, rfl, rfl⟩

theorem Depicts.begins (h : Depicts S depth v t) : Begins t := by
  cases depth with
  | zero => exact Plainly.begins h
  | succ depth =>
    obtain h | ⟨vs, body, -, -, rfl⟩ | ⟨ms, body, -, -, -, rfl⟩ | ⟨u, body, -, -, rfl⟩ := h
    · exact h.begins
    · exact ⟨91, _, rfl, rfl⟩
    · exact ⟨123, _, rfl, rfl⟩
    · exact ⟨123, _, rfl, rfl⟩

theorem Plainly.depicts (h : Plainly S v t) (depth : Nat) : Depicts S depth v t := by
  cases depth with
  | zero => exact h
  | succ depth => exact .inl h

theorem scanScalar_number {n : Number} (ht : Numeral t) (hn : Scanned t n) (hr : Ends rest) :
    ∃ b r, t = b :: r ∧ isBlank b = false ∧ (b = 91 || b = 123) = false ∧
      scanScalar b (r ++ rest) = .ok (.number n, rest) := by
  have happend := (scanNumber_append ht hr).2 hn
  obtain ⟨b, r, rfl, hb, -⟩ := skipScalar_numeral ht ends_nil
  obtain ⟨b', r', heq, hbegins⟩ := (Written.number (S := Inside) ht).begins
  obtain ⟨rfl, rfl⟩ := List.cons.inj heq
  have hother : ∀ {c : UInt8}, isDigit c = false → c ≠ 45 → b ≠ c := by
    intro c hc hminus hbc
    rcases hb with rfl | hb
    · exact hminus hbc.symm
    · exact isDigit_ne hb hc hbc
  have hsign : (decide (b = 45) || isDigit b) = true := by
    rcases hb with rfl | hb
    · rfl
    · rw [hb, Bool.or_true]
  have hopening : (decide (b = 91) || decide (b = 123)) = false := by
    rw [decide_eq_false (hother rfl (by decide)), decide_eq_false (hother rfl (by decide))]
    rfl
  refine ⟨b, r, rfl, (not_beginsValue hbegins).1, hopening, ?_⟩
  rw [List.cons_append] at happend
  rw [scanScalar, if_neg (hother rfl (by decide)), if_neg (hother rfl (by decide)),
    if_neg (hother rfl (by decide)), if_pos hsign, happend]
  rfl

/-- A value that is no bracket is read as it is written. -/
theorem Plainly.scan (h : Plainly (senseOf inner) v t) (hr : Ends rest) :
    ∃ b r, t = b :: r ∧ isBlank b = false ∧ (b = 91 || b = 123) = false ∧
      scanScalar b (r ++ rest) = .ok (v, rest) := by
  cases h with
  | null =>
    refine ⟨110, nullTail, rfl, rfl, rfl, ?_⟩
    simp only [scanScalar, scanWord_append, if_true]
    rfl
  | tt =>
    refine ⟨116, trueTail, rfl, rfl, rfl, ?_⟩
    simp only [scanScalar, scanWord_append]
    rfl
  | ff =>
    refine ⟨102, falseTail, rfl, rfl, rfl, ?_⟩
    simp only [scanScalar, scanWord_append]
    rfl
  | number ht hn => exact scanScalar_number ht hn hr
  | @string raw t h =>
    have hscan : scanString (raw ++ 34 :: rest) = .ok (t, rest) :=
      scanString_eq_ok_iff.2 ⟨raw, h, rfl⟩
    refine ⟨34, raw ++ [34], rfl, rfl, rfl, ?_⟩
    rw [List.append_assoc, List.singleton_append, scanScalar, if_neg (by decide),
      if_neg (by decide), if_neg (by decide), if_neg (by decide), if_pos rfl, hscan]
    rfl

theorem plainly_of_scanScalar (h : scanScalar b s = .ok (v, rest)) (hr : Ends rest) :
    ∃ t, Plainly (senseOf inner) v t ∧ b :: s = t ++ rest := by
  have word : ∀ {w : Bytes} {u : Value}, ((scanWord w s).map fun r => (u, r)) = .ok (v, rest) →
      u = v ∧ s = w ++ rest := by
    intro w u h
    obtain ⟨r, hscan, heq⟩ := exists_of_map_ok h
    obtain ⟨rfl, rfl⟩ := Prod.mk.inj heq
    exact ⟨rfl, word_of_scanWord hscan⟩
  unfold scanScalar at h
  split at h
  · next hb =>
    obtain ⟨rfl, rfl⟩ := word h
    exact ⟨_, .null, by rw [hb]; rfl⟩
  split at h
  · next hb =>
    obtain ⟨rfl, rfl⟩ := word h
    exact ⟨_, .tt, by rw [hb]; rfl⟩
  split at h
  · next hb =>
    obtain ⟨rfl, rfl⟩ := word h
    exact ⟨_, .ff, by rw [hb]; rfl⟩
  split at h
  · obtain ⟨⟨n, r⟩, hn, heq⟩ := exists_of_map_ok h
    obtain ⟨rfl, rfl⟩ := Prod.mk.inj heq
    obtain ⟨t, ht, hs⟩ := numeral_of_scanNumber hn
    rw [hs] at hn
    exact ⟨t, .number ht ((scanNumber_append ht hr).1 hn), hs⟩
  split at h
  · next hb =>
    obtain ⟨⟨t, r⟩, ht, heq⟩ := exists_of_map_ok h
    obtain ⟨rfl, rfl⟩ := Prod.mk.inj heq
    obtain ⟨raw, hraw, rfl⟩ := scanString_eq_ok_iff.1 ht
    exact ⟨_, .string hraw, by rw [hb]; simp⟩
  · cases h

/-- Folding with a function is admitting one by one what it makes. -/
theorem admits_iff_foldl {f : σ → α → σ} {as : List α} {x y : σ} :
    Admits (fun a x b => b = f a x) as x y ↔ y = as.foldl f x := by
  induction as generalizing x with
  | nil => exact Iff.rfl
  | cons a as ih =>
    rw [List.foldl_cons, ← ih]
    constructor
    · rintro ⟨c, rfl, h⟩
      exact h
    · intro h
      exact ⟨_, rfl, h⟩

/-! ## Texts that stand for values -/

theorem scanObjectEnd_eq_ok_iff :
    scanObjectEnd s = .ok rest ↔ ∃ g, Gap g ∧ s = g ++ 125 :: rest := by
  unfold scanObjectEnd
  constructor
  · intro h
    split at h
    · cases h
    · next b r hs =>
      obtain ⟨g, hg, rfl⟩ := gap_of_skipBlank_cons hs
      split at h
      · next hb =>
        cases h
        exact ⟨g, hg, by rw [hb]⟩
      · split at h <;> cases h
  · rintro ⟨g, hg, rfl⟩
    rw [skipBlank_gap_cons hg (b := 125) rfl]
    rfl

theorem pastRawName?_eq_some_iff : pastRawName? s = some rest ↔
    ∃ g raw, Gap g ∧ Spells raw rawName ∧ s = g ++ 34 :: (raw ++ 34 :: rest) := by
  unfold pastRawName?
  constructor
  · intro h
    split at h
    · next r hnext =>
      obtain ⟨g, r, hturn, -⟩ | ⟨g, r, hturn, hg, rfl⟩ := of_nextMember hnext
      · cases hturn
      · cases hturn
        split at h
        · next name r' hname =>
          obtain ⟨raw, hraw, rfl⟩ := scanString_eq_ok_iff.1 hname
          split at h
          · next heq =>
            cases h
            exact ⟨g, raw, hg, heq ▸ hraw, rfl⟩
          · cases h
        · cases h
    · cases h
  · rintro ⟨g, raw, hg, hraw, rfl⟩
    have hname : scanString (raw ++ 34 :: rest) = .ok (rawName, rest) :=
      scanString_eq_ok_iff.2 ⟨raw, hraw, rfl⟩
    rw [nextMember_first hg]
    dsimp only
    rw [hname]
    exact if_pos rfl

/-- No text stands for an object whose first member has another name. -/
theorem pastRawName?_of_unquoted {ms : Members} {body : Bytes} {Q : String × Value → Bytes → Prop}
    (hb : Body (Entry Prod.fst Q) ms body) (h : Unquoted ms) :
    pastRawName? (body ++ 125 :: rest) = none := by
  unfold pastRawName?
  cases hb with
  | empty hg => rw [nextMember_close hg]
  | @filled b t m ms hm hmore =>
    obtain ⟨g, raw, g₁, g₂, u, hg, hraw, -, -, -, rfl⟩ := hm
    simp only [List.append_assoc, List.cons_append, nextMember_first hg,
      scanString_eq_ok_iff.2 ⟨raw, hraw, rfl⟩, if_neg (h m rfl)]

theorem readRaw_eq_ok_iff : readRaw inner s = .ok (v, rest) ↔
    ∃ g₁ g₂ raw t g₃, Gap g₁ ∧ Gap g₂ ∧ Spells raw t ∧ Gap g₃ ∧ inner (Text.bytes t) = .ok v ∧
      s = g₁ ++ 58 :: (g₂ ++ 34 :: (raw ++ 34 :: (g₃ ++ 125 :: rest))) := by
  unfold readRaw
  constructor
  · intro h
    split at h
    · cases h
    · next s' hcolon =>
      obtain ⟨g₁, hg₁, rfl⟩ := colon_of_scanColon hcolon
      split at h
      · cases h
      · next b r hs =>
        obtain ⟨g₂, hg₂, rfl⟩ := gap_of_skipBlank_cons hs
        split at h
        · next hb =>
          split at h
          · cases h
          · next t r' htext =>
            obtain ⟨raw, hraw, rfl⟩ := scanString_eq_ok_iff.1 htext
            split at h
            · cases h
            · next w hw =>
              obtain ⟨r'', hend, heq⟩ := exists_of_map_ok h
              obtain ⟨rfl, rfl⟩ := Prod.mk.inj heq
              obtain ⟨g₃, hg₃, rfl⟩ := scanObjectEnd_eq_ok_iff.1 hend
              exact ⟨g₁, g₂, raw, t, g₃, hg₁, hg₂, hraw, hg₃, hw, by rw [hb]⟩
        · cases h
  · rintro ⟨g₁, g₂, raw, t, g₃, hg₁, hg₂, hraw, hg₃, hinner, rfl⟩
    have htext : scanString (raw ++ 34 :: (g₃ ++ 125 :: rest)) = .ok (t, g₃ ++ 125 :: rest) :=
      scanString_eq_ok_iff.2 ⟨raw, hraw, rfl⟩
    have hend : scanObjectEnd (g₃ ++ 125 :: rest) = .ok rest :=
      scanObjectEnd_eq_ok_iff.2 ⟨g₃, hg₃, rfl⟩
    simp only [scanColon_append hg₁, skipBlank_gap_cons hg₂ (b := 34) rfl, if_true, htext, hinner,
      hend]
    rfl

/-- **What is read under `rawName` is what its text stands for.** -/
theorem quoted_iff : (∃ r, pastRawName? s = some r ∧ readRaw inner r = .ok (v, rest)) ↔
    ∃ t, Quoted (senseOf inner) v t ∧ 123 :: s = t ++ rest := by
  constructor
  · rintro ⟨r, hname, hread⟩
    obtain ⟨g, raw, hg, hraw, rfl⟩ := pastRawName?_eq_some_iff.1 hname
    obtain ⟨g₁, g₂, raw', t, g₃, hg₁, hg₂, hraw', hg₃, hinner, rfl⟩ := readRaw_eq_ok_iff.1 hread
    have hentry : Entry Prod.fst (fun m => Plainly (senseOf inner) m.2) (rawName, .string t)
        (g ++ 34 :: (raw ++ 34 :: (g₁ ++ 58 :: (g₂ ++ 34 :: (raw' ++ [34]))))) :=
      ⟨g, raw, g₁, g₂, _, hg, hraw, hg₁, hg₂, .string hraw', rfl⟩
    exact ⟨_, ⟨t, _, .filled hentry (.done hg₃), hinner, rfl⟩, by simp⟩
  · rintro ⟨_, ⟨t, body, hb, hinner, rfl⟩, heq⟩
    cases hb with
    | filled hm hmore =>
      obtain ⟨g, raw, g₁, g₂, u, hg, hraw, hg₁, hg₂, hu, rfl⟩ := hm
      cases hmore with
      | done hg₃ =>
        cases hu with
        | @string raw' _ hraw' =>
          obtain rfl := (List.cons.inj heq).2
          refine ⟨_, pastRawName?_eq_some_iff.2 ⟨g, raw, hg, hraw, ?_⟩,
            readRaw_eq_ok_iff.2 ⟨g₁, g₂, raw', t, _, hg₁, hg₂, hraw', hg₃, hinner, rfl⟩⟩
          simp

/-! ## Brackets -/

/-- Takes one element of a list, in front of those that came before. -/
def takeElement (inner : Bytes → Except Problem Value) (depth : Nat) (acc : List Value)
    (s : Bytes) : Scan (List Value) :=
  (readValue inner depth s).map fun (v, rest) => (v :: acc, rest)

/-- Takes one member of an object, from behind its name. -/
def takeMember (inner : Bytes → Except Problem Value) (depth : Nat) (acc : Members) (name : String)
    (s : Bytes) : Scan Members :=
  match scanColon s with
  | .error f => .error f
  | .ok s' => (readValue inner depth s').map fun (v, rest) => (acc.insert name v, rest)

section Brackets

variable {g : Bytes} (hg : Gap g) (s : Bytes)

include hg

theorem readValue_plain (hblank : isBlank b = false) (ho : (b = 91 || b = 123) = false) :
    readValue inner depth (g ++ b :: s) = scanScalar b s := by
  rw [readValue, skipBlank_gap_cons hg hblank]
  simp only [ho, Bool.false_eq_true, if_false]

theorem readValue_list : readValue inner (depth + 1) (g ++ 91 :: s) =
    (foldElements (takeElement inner depth) (s.length + 1) true [] s).map fun (vs, r) =>
      (.array vs.reverse, r) := by
  rw [readValue, skipBlank_gap_cons hg (b := 91) rfl]
  rfl

theorem readValue_object : readValue inner (depth + 1) (g ++ 123 :: s) =
    match pastRawName? s with
    | some r => readRaw inner r
    | none => (foldMembers (takeMember inner depth) (s.length + 1) true [] s).map fun (ms, r) =>
      (.object ms, r) := by
  rw [readValue, skipBlank_gap_cons hg (b := 123) rfl]
  rfl

end Brackets

/-- What a text says is read of it inside so many brackets, up to something that ends it. -/
def Complete (inner : Bytes → Except Problem Value) (depth : Nat) : Prop :=
  ∀ {v : Value} {t g rest : Bytes}, Depicts (senseOf inner) depth v t → Gap g → Ends rest →
    readValue inner depth (g ++ (t ++ rest)) = .ok (v, rest)

theorem Complete.list (ih : Complete inner depth) {vs : List Value} {body g : Bytes}
    (hbody : Body (Element (Depicts (senseOf inner) depth)) vs body) (hg : Gap g) (rest : Bytes) :
    readValue inner (depth + 1) (g ++ 91 :: (body ++ 93 :: rest)) = .ok (.array vs, rest) := by
  have hstep : ∀ {acc v acc' t rest}, acc' = v :: acc → Depicts (senseOf inner) depth v t →
      Ends rest → takeElement inner depth acc (t ++ rest) = .ok (acc', rest) := by
    intro acc v acc' t rest hacc ht hr
    have hread := ih ht gap_nil hr
    rw [List.nil_append] at hread
    rw [takeElement, hread, hacc]
    rfl
  have hall : vs.reverse = vs.foldl (fun acc v => v :: acc) [] := by
    rw [List.foldl_flip_cons_eq_append', List.append_nil]
  have hfold : foldElements (takeElement inner depth) ((body ++ 93 :: rest).length + 1) true []
      (body ++ 93 :: rest) = .ok (vs.reverse, rest) :=
    foldElements_body Depicts.begins @hstep hbody (admits_iff_foldl.2 hall) (hbody.lt_fuel 93 rest)
  rw [readValue_list hg, hfold]
  show Except.ok (Value.array vs.reverse.reverse, rest) = _
  rw [List.reverse_reverse]

theorem Complete.object (ih : Complete inner depth) {ms : Members} {body g : Bytes}
    (hbody : Body (Entry Prod.fst fun m => Depicts (senseOf inner) depth m.2) ms body)
    (hms : Unquoted ms) (hg : Gap g) (rest : Bytes) :
    readValue inner (depth + 1) (g ++ 123 :: (body ++ 125 :: rest)) =
      .ok (.object (Members.ofList ms), rest) := by
  have hstep : ∀ {acc : Members} {m : String × Value} {acc' : Members} {t g₁ g₂ rest},
      acc' = acc.insert m.1 m.2 → Depicts (senseOf inner) depth m.2 t → Gap g₁ → Gap g₂ →
      Ends rest →
      takeMember inner depth acc m.1 (g₁ ++ 58 :: (g₂ ++ (t ++ rest))) = .ok (acc', rest) := by
    intro acc m acc' t g₁ g₂ rest hacc ht hg₁ hg₂ hr
    rw [takeMember, scanColon_append hg₁]
    dsimp only
    rw [ih ht hg₂ hr, hacc]
    rfl
  have hfold : foldMembers (takeMember inner depth) ((body ++ 125 :: rest).length + 1) true []
      (body ++ 125 :: rest) = .ok (Members.ofList ms, rest) :=
    foldMembers_body @hstep hbody (admits_iff_foldl.2 rfl) (hbody.lt_fuel 125 rest)
  rw [readValue_object hg, pastRawName?_of_unquoted hbody hms, hfold]
  rfl

/-- **What a text says is what is read of it**, with the gap in front of it. -/
theorem complete_readValue (inner : Bytes → Except Problem Value) (depth : Nat) :
    Complete inner depth := by
  have plain : ∀ {depth : Nat} {v : Value} {t g rest : Bytes}, Plainly (senseOf inner) v t →
      Gap g → Ends rest → readValue inner depth (g ++ (t ++ rest)) = .ok (v, rest) := by
    intro depth v t g rest h hg hr
    obtain ⟨b, r, rfl, hblank, hopening, hscan⟩ := h.scan hr
    rw [List.cons_append, readValue_plain hg _ hblank hopening, hscan]
  induction depth with
  | zero => exact plain
  | succ depth ih =>
    intro v t g rest h hg hr
    obtain h | ⟨vs, body, hbody, rfl, rfl⟩ | ⟨ms, body, hbody, hms, rfl, rfl⟩ | h := h
    · exact plain h hg hr
    · rw [List.cons_append, List.append_assoc, List.singleton_append]
      exact ih.list hbody hg rest
    · rw [List.cons_append, List.append_assoc, List.singleton_append]
      exact ih.object hbody hms hg rest
    · obtain ⟨t', body, hbody, htext, rfl⟩ := h
      obtain ⟨r, hname, hread⟩ : ∃ r, pastRawName? (body ++ [125] ++ rest) = some r ∧
          readRaw inner r = .ok (v, rest) :=
        quoted_iff.2 ⟨_, ⟨t', body, hbody, htext, rfl⟩, rfl⟩
      rw [List.cons_append, readValue_object hg, hname]
      exact hread

/-- What is read inside so many brackets is what a text says, up to something that ends it. -/
def Sound (inner : Bytes → Except Problem Value) (depth : Nat) : Prop :=
  ∀ {s rest : Bytes} {v : Value}, readValue inner depth s = .ok (v, rest) → Ends rest →
    ∃ g t, Gap g ∧ Depicts (senseOf inner) depth v t ∧ s = g ++ (t ++ rest)

theorem Sound.list (ih : Sound inner depth) {g : Bytes} (hg : Gap g)
    (h : readValue inner (depth + 1) (g ++ 91 :: s) = .ok (v, rest)) :
    ∃ t, Depicts (senseOf inner) (depth + 1) v t ∧ 91 :: s = t ++ rest := by
  have hstep : ∀ {acc s acc' rest}, takeElement inner depth acc s = .ok (acc', rest) → Ends rest →
      ∃ v g t, Gap g ∧ Depicts (senseOf inner) depth v t ∧ acc' = v :: acc ∧
        s = g ++ (t ++ rest) := by
    intro acc s acc' rest hone hends
    obtain ⟨⟨u, r⟩, hread, heq⟩ := exists_of_map_ok hone
    obtain ⟨rfl, rfl⟩ := Prod.mk.inj heq
    obtain ⟨g, t, hg, ht, rfl⟩ := ih hread hends
    exact ⟨u, g, t, hg, ht, rfl, rfl⟩
  rw [readValue_list hg] at h
  obtain ⟨⟨vs, r⟩, hfold, heq⟩ := exists_of_map_ok h
  obtain ⟨rfl, rfl⟩ := Prod.mk.inj heq
  obtain ⟨g', hg', rfl, rfl⟩ | ⟨g', a, as, b, t, hlead, hb, hmore, hadmits, rfl⟩ :=
    elements_of_foldElements @hstep hfold
  · exact ⟨_, .inr (.inl ⟨[], g', .empty hg', rfl, rfl⟩), by simp⟩
  · refine ⟨_, .inr (.inl ⟨a :: as, _, .filled (hb hlead) hmore, ?_, rfl⟩), by simp⟩
    rw [admits_iff_foldl.1 hadmits, List.foldl_flip_cons_eq_append', List.append_nil,
      List.reverse_reverse]

theorem Sound.object (ih : Sound inner depth) {g : Bytes} (hg : Gap g)
    (h : readValue inner (depth + 1) (g ++ 123 :: s) = .ok (v, rest)) :
    ∃ t, Depicts (senseOf inner) (depth + 1) v t ∧ 123 :: s = t ++ rest := by
  let takes : Members → String × Value → Members → Prop :=
    fun acc m acc' => acc' = acc.insert m.1 m.2
  have hstep : ∀ {acc n s acc' rest}, takeMember inner depth acc n s = .ok (acc', rest) →
      Ends rest → ∃ m : String × Value, ∃ g₁ g₂ t, m.1 = n ∧ Gap g₁ ∧ Gap g₂ ∧
        Depicts (senseOf inner) depth m.2 t ∧ takes acc m acc' ∧
          s = g₁ ++ 58 :: (g₂ ++ (t ++ rest)) := by
    intro acc n s acc' rest hone hends
    unfold takeMember at hone
    split at hone
    · cases hone
    · next s' hcolon =>
      obtain ⟨g₁, hg₁, rfl⟩ := colon_of_scanColon hcolon
      obtain ⟨⟨u, r⟩, hread, heq⟩ := exists_of_map_ok hone
      obtain ⟨rfl, rfl⟩ := Prod.mk.inj heq
      obtain ⟨g₂, t, hg₂, ht, rfl⟩ := ih hread hends
      exact ⟨(n, u), g₁, g₂, t, rfl, hg₁, hg₂, ht, rfl, rfl⟩
  rw [readValue_object hg] at h
  cases hname : pastRawName? s with
  | some r =>
    rw [hname] at h
    obtain ⟨t, ht, heq⟩ := quoted_iff.1 ⟨r, hname, h⟩
    exact ⟨t, .inr (.inr (.inr ht)), heq⟩
  | none =>
    rw [hname] at h
    obtain ⟨⟨ms, r⟩, hfold, heq⟩ := exists_of_map_ok h
    obtain ⟨rfl, rfl⟩ := Prod.mk.inj heq
    obtain ⟨g', hg', rfl, rfl⟩ | ⟨g', m, ms', b, t, hlead, hb, hmore, hadmits, rfl⟩ :=
      entries_of_foldMembers @hstep hfold
    · exact ⟨_, .inr (.inr (.inl ⟨[], g', .empty hg', nofun, rfl, rfl⟩)), by simp⟩
    · have hms : ms = Members.ofList (m :: ms') := admits_iff_foldl.1 hadmits
      have hfirst : m.1 ≠ rawName := by
        intro hraw
        obtain ⟨g₀, raw, g₁, g₂, u, hg₀, hspells, -, -, -, heq⟩ := hb hlead
        have hsplit : g' ++ (b ++ (t ++ 125 :: r)) =
            g₀ ++ 34 :: (raw ++ 34 :: (g₁ ++ 58 :: (g₂ ++ u) ++ (t ++ 125 :: r))) := by
          rw [← List.append_assoc, heq]
          simp
        have hsome := pastRawName?_eq_some_iff.2 ⟨g₀, raw, hg₀, hraw ▸ hspells, hsplit⟩
        rw [hname] at hsome
        cases hsome
      refine ⟨_, .inr (.inr (.inl ⟨m :: ms', _, .filled (hb hlead) hmore, ?_, by rw [hms], rfl⟩)),
        by simp⟩
      intro x hx
      cases hx
      exact hfirst

/-- **What is read is what a text says.** -/
theorem sound_readValue (inner : Bytes → Except Problem Value) (depth : Nat) :
    Sound inner depth := by
  have plain : ∀ {depth : Nat} {g r rest : Bytes} {b : UInt8} {v : Value}, Gap g →
      isBlank b = false → (b = 91 || b = 123) = false →
      readValue inner depth (g ++ b :: r) = .ok (v, rest) → Ends rest →
      ∃ g' t, Gap g' ∧ Depicts (senseOf inner) depth v t ∧ g ++ b :: r = g' ++ (t ++ rest) := by
    intro depth g r rest b v hg hblank hopening h hr
    rw [readValue_plain hg r hblank hopening] at h
    obtain ⟨t, ht, heq⟩ := plainly_of_scanScalar h hr
    exact ⟨g, t, hg, ht.depicts depth, by rw [heq]⟩
  induction depth with
  | zero =>
    intro s rest v h hr
    cases hs : skipBlank s with
    | nil =>
      rw [readValue, hs] at h
      cases h
    | cons b r =>
      obtain ⟨g, hg, rfl⟩ := gap_of_skipBlank_cons hs
      by_cases hopening : (b = 91 || b = 123) = true
      · rw [readValue, hs] at h
        simp only [hopening, if_true] at h
        cases h
      · exact plain hg (isBlank_of_skipBlank hs) (Bool.eq_false_iff.2 hopening) h hr
  | succ depth ih =>
    intro s rest v h hr
    cases hs : skipBlank s with
    | nil =>
      rw [readValue, hs] at h
      cases h
    | cons b r =>
      obtain ⟨g, hg, rfl⟩ := gap_of_skipBlank_cons hs
      by_cases hlist : b = 91
      · subst hlist
        obtain ⟨t, ht, heq⟩ := ih.list hg h
        exact ⟨g, t, hg, ht, by rw [heq]⟩
      · by_cases hobject : b = 123
        · subst hobject
          obtain ⟨t, ht, heq⟩ := ih.object hg h
          exact ⟨g, t, hg, ht, by rw [heq]⟩
        · refine plain hg (isBlank_of_skipBlank hs) ?_ h hr
          rw [decide_eq_false hlist, decide_eq_false hobject]
          rfl

/-- A text is read wholly if it says something, and then it is what it says. -/
theorem wholly_readValue_iff :
    wholly (readValue inner maxDepth) s = .ok v ↔ SaysWhole (senseOf inner) v s := by
  rw [wholly_eq_ok_iff]
  constructor
  · rintro ⟨rest, hread, hrest⟩
    obtain ⟨g, t, hg, ht, rfl⟩ := sound_readValue _ _ hread (ends_of_gap hrest)
    exact ⟨g, t, rest, hg, ht, hrest, rfl⟩
  · rintro ⟨g, t, g', hg, ht, hg', rfl⟩
    exact ⟨g', complete_readValue _ _ ht hg (ends_of_gap hg'), hg'⟩

theorem documentWithin_eq_ok_iff {nested : Nat} :
    documentWithin nested s = .ok v ↔ SaysWithin Scanned nested v s := by
  induction nested generalizing s v with
  | zero => exact ⟨nofun, nofun⟩
  | succ nested ih =>
    have hsense : senseOf (documentWithin nested) =
        ⟨Scanned, fun t u => SaysWithin Scanned nested u t⟩ := by
      simp only [senseOf, ih]
    rw [documentWithin, wholly_readValue_iff, hsense]
    exact Iff.rfl

/-! ## Texts inside each other -/

theorem length_bytes_singleton (c : Char) :
    (Text.bytes (String.singleton c)).length = c.utf8Size := by
  have hchar : Text.bytes (String.singleton c) = String.utf8EncodeChar c := by
    rw [Text.bytes_eq_encode, String.toList_singleton, Text.encode, List.flatMap_singleton]
  rw [hchar, String.length_utf8EncodeChar]

theorem utf8Size_of_letterEscape {c : Char} (h : letterEscape b = some c) : c.utf8Size = 1 := by
  unfold letterEscape at h
  repeat' split at h
  all_goals first | cases h; done | (cases h; decide)

/-- What stands between the quotes is no shorter than what it spells. -/
theorem length_le_of_spells {raw : Bytes} {name : String} (h : Spells raw name) :
    (Text.bytes name).length ≤ raw.length := by
  induction h with
  | nil => exact Nat.le_refl 0
  | @plain t name raw _ _ ih =>
    rw [Text.bytes_append, List.length_append, List.length_append]
    omega
  | @escape x raw c name hx _ ih =>
    have hfour := c.utf8Size_le_four
    rw [Text.bytes_append, List.length_append, List.length_cons, List.length_append,
      length_bytes_singleton]
    cases hx with
    | letter hb =>
      rw [utf8Size_of_letterEscape hb, List.length_singleton]
      omega
    | point => simp only [List.length_cons, List.length_nil]; omega
    | pair => simp only [List.length_cons, List.length_nil]; omega

section Mono

variable {P Q : α → Bytes → Prop} {as : List α}

theorem More.mono (h : ∀ a b, b.length ≤ t.length → P a b → Q a b) (hm : More P as t) :
    More Q as t := by
  induction hm with
  | done hg => exact .done hg
  | @next g b t a as hg ha hm ih =>
    refine .next hg (h a b ?_ ha) (ih fun a b hb => h a b (hb.trans ?_))
    · simp only [List.length_append, List.length_cons]; omega
    · simp only [List.length_append, List.length_cons]; omega

theorem Body.mono (h : ∀ a b, b.length ≤ t.length → P a b → Q a b) (hb : Body P as t) :
    Body Q as t := by
  cases hb with
  | empty hg => exact .empty hg
  | @filled b t a as ha hm =>
    refine .filled (h a b ?_ ha) (hm.mono fun a b hb => h a b (hb.trans ?_))
    · rw [List.length_append]; omega
    · rw [List.length_append]; omega

end Mono

/-- The sense `S'` says all that `S` says, of texts that are shorter than `n`. -/
structure Sense.Within (n : Nat) (S S' : Sense) : Prop where
  number : ∀ t m, S.number t m → S'.number t m
  text : ∀ t v, t.length < n → S.text t v → S'.text t v

theorem Sense.Within.le {n k : Nat} {S' : Sense} (h : S.Within n S') (hk : k ≤ n) :
    S.Within k S' :=
  ⟨h.number, fun t v ht => h.text t v (Nat.lt_of_lt_of_le ht hk)⟩

theorem Plainly.mono {S' : Sense} (h : Plainly S v t) (hS : S.Within t.length S') :
    Plainly S' v t := by
  cases h with
  | null => exact .null
  | tt => exact .tt
  | ff => exact .ff
  | number ht hn => exact .number ht (hS.number _ _ hn)
  | string h => exact .string h

/-- The text that an object has under `rawName` is shorter than the object. -/
theorem length_of_quoted {u : String} {body : Bytes}
    (hb : Body (Entry Prod.fst fun m : String × Value => Plainly S m.2) [(rawName, .string u)] body) :
    (Text.bytes u).length < body.length := by
  cases hb with
  | filled hm =>
    obtain ⟨g, raw, g₁, g₂, w, -, -, -, -, hw, rfl⟩ := hm
    cases hw with
    | string hraw =>
      have hle := length_le_of_spells hraw
      simp only [List.length_append, List.length_cons]
      omega

theorem Quoted.mono {S' : Sense} (h : Quoted S v t) (hS : S.Within t.length S') :
    Quoted S' v t := by
  obtain ⟨u, body, hb, hu, rfl⟩ := h
  have hlength := length_of_quoted hb
  refine ⟨u, body, hb.mono fun m b hle hm => ?_, hS.text _ _ ?_ hu, rfl⟩
  · obtain ⟨g, raw, g₁, g₂, w, hg, hraw, hg₁, hg₂, hw, rfl⟩ := hm
    refine ⟨g, raw, g₁, g₂, w, hg, hraw, hg₁, hg₂, hw.mono (hS.le ?_), rfl⟩
    simp only [List.length_append, List.length_cons] at hle ⊢
    omega
  · simp only [List.length_append, List.length_cons]
    omega

/-- A text says no less where numerals, and the shorter texts, stand for no less. -/
theorem Depicts.mono {S' : Sense} (h : Depicts S depth v t) (hS : S.Within t.length S') :
    Depicts S' depth v t := by
  induction depth generalizing v t with
  | zero => exact Plainly.mono h hS
  | succ depth ih =>
    obtain h | ⟨vs, body, hb, rfl, rfl⟩ | ⟨ms, body, hb, hms, rfl, rfl⟩ | h := h
    · exact .inl (h.mono hS)
    · refine .inr (.inl ⟨vs, body, hb.mono fun a b hle ha => ?_, rfl, rfl⟩)
      obtain ⟨g, u, hg, hu, rfl⟩ := ha
      refine ⟨g, u, hg, ih hu (hS.le ?_), rfl⟩
      simp only [List.length_append, List.length_cons] at hle ⊢
      omega
    · refine .inr (.inr (.inl ⟨ms, body, hb.mono fun m b hle hm => ?_, hms, rfl, rfl⟩))
      obtain ⟨g, raw, g₁, g₂, u, hg, hraw, hg₁, hg₂, hu, rfl⟩ := hm
      refine ⟨g, raw, g₁, g₂, u, hg, hraw, hg₁, hg₂, ih hu (hS.le ?_), rfl⟩
      simp only [List.length_append, List.length_cons] at hle ⊢
      omega
    · exact .inr (.inr (.inr (h.mono hS)))

theorem SaysWhole.mono {S' : Sense} (h : SaysWhole S v s) (hS : S.Within s.length S') :
    SaysWhole S' v s := by
  obtain ⟨g, t, g', hg, ht, hg', rfl⟩ := h
  refine ⟨g, t, g', hg, ht.mono (hS.le ?_), hg', rfl⟩
  simp only [List.length_append]
  omega

variable {N N' : Bytes → Number → Prop} {nested : Nat}

/-- More numbers, and texts further inside each other, say no less. -/
theorem SaysWithin.mono {nested' : Nat} (hN : ∀ t n, N t n → N' t n) (hle : nested ≤ nested')
    (h : SaysWithin N nested v s) : SaysWithin N' nested' v s := by
  induction nested generalizing v s nested' with
  | zero => cases h
  | succ nested ih =>
    obtain ⟨nested', rfl⟩ := Nat.exists_eq_add_one.2 (Nat.zero_lt_of_lt hle)
    exact SaysWhole.mono h ⟨hN, fun t v _ ht => ih (Nat.le_of_succ_le_succ hle) ht⟩

theorem DocumentText.mono (hN : ∀ t n, N t n → N' t n) (h : DocumentText N v s) :
    DocumentText N' v s :=
  h.imp fun nested => SaysWithin.mono hN (Nat.le_refl nested)

/-- Texts are not further inside each other than the outermost is long. -/
theorem saysWithin_length (h : DocumentText N v s) : SaysWithin N (s.length + 1) v s := by
  obtain ⟨nested, h⟩ := h
  induction nested generalizing v s with
  | zero => cases h
  | succ nested ih =>
    refine SaysWhole.mono h ⟨fun _ _ => id, fun t v hlt ht => ?_⟩
    exact SaysWithin.mono (fun _ _ => id) hlt (ih ht)

/-- A text is longer than the string that it says. -/
theorem length_of_saysWithin {u : String} (h : SaysWithin N nested (.string u) s) :
    (Text.bytes u).length < s.length := by
  induction nested generalizing s with
  | zero => cases h
  | succ nested ih =>
    obtain ⟨g, t, g', -, ht, -, rfl⟩ := h
    rw [List.length_append, List.length_append]
    obtain h | ⟨_, _, _, h, _⟩ | ⟨_, _, _, _, h, _⟩ | ⟨x, body, hb, hx, rfl⟩ := ht
    · cases h with
      | string h =>
        have hle := length_le_of_spells h
        simp only [List.length_append, List.length_cons]
        omega
    · cases h
    · cases h
    · have hinner := ih hx
      have hlength := length_of_quoted hb
      simp only [List.length_append, List.length_cons]
      omega

/-- No text says itself. -/
theorem not_documentText_self (t : String) : ¬ DocumentText N (.string t) (Text.bytes t) :=
  fun ⟨_, h⟩ => Nat.lt_irrefl _ (length_of_saysWithin h)

/-! ## Top theorem -/

/-- **A document is read if and only if the text says something, and then it is what it says.** -/
theorem document_eq_ok_iff : document s = .ok v ↔ DocumentText Scanned v s :=
  documentWithin_eq_ok_iff.trans ⟨fun h => ⟨_, h⟩, saysWithin_length⟩

end Switchboard.Json
