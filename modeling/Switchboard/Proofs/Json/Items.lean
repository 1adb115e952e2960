import Switchboard.Json.Read
import Switchboard.Proofs.Json.Names
import Switchboard.Proofs.Json.Skipping

/-!
# Items that are read one by one

A scan that is given the text of a part has an exact answer (`Gives`).  The members of an object are
folded over in their order: if each step has an exact answer, so has the whole, and what is folded
over are the members of an object, whatever the steps do with their values.

    each step gives takes → the fold over members ms gives Admits takes ms
-/

namespace Switchboard.Json

/-! ## Specification -/

/-- A scan gives what `P` says, and leaves `rest`; it fails if `P` says nothing. -/
def Gives {α : Type} (x : Scan α) (P : α → Prop) (rest : Bytes) : Prop :=
  ∀ a r, x = .ok (a, r) ↔ P a ∧ r = rest

/-- One after the other, each as `takes` says. -/
def Admits {σ α : Type} (takes : σ → α → σ → Prop) : List α → σ → σ → Prop
  | [], a, b => b = a
  | x :: xs, a, b => ∃ c, takes a x c ∧ Admits takes xs c b

/-- A member of an object, with a value that is written as `V` says. -/
def Spelled (V : Bytes → Prop) (m : Member) (b : Bytes) : Prop :=
  ∃ g raw g₁ g₂, Gap g ∧ Spells raw m.name ∧ Gap g₁ ∧ Gap g₂ ∧ V m.value ∧
    b = g ++ 34 :: (raw ++ 34 :: (g₁ ++ 58 :: (g₂ ++ m.value)))

/-- Steps of a fold over members that take a member as `takes` says. -/
structure Steps (step : σ → String → Bytes → Scan σ) (takes : σ → Member → σ → Prop) : Prop where
  sound : ∀ {acc acc' : σ} {name : String} {s rest : Bytes}, step acc name s = .ok (acc', rest) →
    ∃ g₁ g₂ v, Gap g₁ ∧ Gap g₂ ∧ Written Inside .value v ∧ s = g₁ ++ 58 :: (g₂ ++ (v ++ rest))
  exact : ∀ {acc : σ} {m : Member} {g₁ g₂ rest : Bytes}, Gap g₁ → Gap g₂ →
    Written Inside .value m.value → Ends rest →
    Gives (step acc m.name (g₁ ++ 58 :: (g₂ ++ (m.value ++ rest)))) (takes acc m) rest

/-! ## What a scan gives -/

variable {σ α β : Type} {s t rest : Bytes}

theorem gives_ok {P : α → Prop} {a : α} (ha : P a) (hu : ∀ b, P b → b = a) :
    Gives (.ok (a, rest)) P rest := by
  intro b r
  rw [Except.ok.injEq, Prod.mk.injEq]
  constructor
  · rintro ⟨rfl, rfl⟩
    exact ⟨ha, rfl⟩
  · rintro ⟨hb, rfl⟩
    exact ⟨(hu b hb).symm, rfl⟩

theorem gives_error {P : α → Prop} {f : Fault} (hn : ∀ a, ¬ P a) :
    Gives (.error f : Scan α) P rest :=
  fun a _ => ⟨nofun, fun h => absurd h.1 (hn a)⟩

theorem Gives.cases {x : Scan α} {P : α → Prop} (h : Gives x P rest) :
    (∃ f, x = .error f ∧ ∀ a, ¬ P a) ∨ ∃ a, x = .ok (a, rest) ∧ P a ∧ ∀ b, P b → b = a := by
  cases hx : x with
  | error f =>
    refine .inl ⟨f, rfl, fun a ha => ?_⟩
    have hok := (h a rest).2 ⟨ha, rfl⟩
    rw [hx] at hok
    cases hok
  | ok y =>
    obtain ⟨a, r⟩ := y
    obtain ⟨ha, rfl⟩ := (h a r).1 hx
    refine .inr ⟨a, rfl, ha, fun b hb => ?_⟩
    have hok := (h b r).2 ⟨hb, rfl⟩
    rw [hx] at hok
    exact (Prod.mk.inj (Except.ok.inj hok)).1.symm

theorem Gives.congr {x : Scan α} {P Q : α → Prop} (h : Gives x P rest) (hPQ : ∀ a, P a ↔ Q a) :
    Gives x Q rest := fun a r => by rw [h a r, hPQ]

theorem Gives.map {x : Scan α} {P : α → Prop} (h : Gives x P rest) (f : α → β) :
    Gives (x.map fun (a, r) => (f a, r)) (fun b => ∃ a, P a ∧ b = f a) rest := by
  obtain ⟨e, rfl, hn⟩ | ⟨a, rfl, ha, hu⟩ := h.cases
  · exact gives_error fun b ⟨a, ha, _⟩ => hn a ha
  · exact gives_ok ⟨a, ha, rfl⟩ fun b ⟨a', ha', hb⟩ => by rw [hb, hu a' ha']

theorem ok_of_map_ok {x : Scan α} {f : α → β} {b : β}
    (h : (x.map fun (a, r) => (f a, r)) = .ok (b, rest)) : ∃ a, x = .ok (a, rest) := by
  cases x with
  | error e => cases h
  | ok y =>
    cases h
    exact ⟨y.1, rfl⟩

/-! ## Whole texts -/

theorem scanEnd_eq_ok_iff : scanEnd s = .ok () ↔ Gap s := by
  unfold scanEnd
  cases hs : skipBlank s with
  | nil => exact ⟨fun _ => gap_of_skipBlank_nil hs, fun _ => rfl⟩
  | cons b t =>
    refine ⟨nofun, fun hg => ?_⟩
    rw [skipBlank_of_gap hg] at hs
    cases hs

theorem wholly_eq_ok_iff {read : Bytes → Scan α} {a : α} :
    wholly read s = .ok a ↔ ∃ rest, read s = .ok (a, rest) ∧ Gap rest := by
  unfold wholly
  cases hread : read s with
  | error f => exact ⟨nofun, fun ⟨_, h, _⟩ => nomatch h⟩
  | ok y =>
    obtain ⟨x, rest⟩ := y
    dsimp only
    cases hend : scanEnd rest with
    | error f =>
      refine ⟨nofun, fun ⟨r, h, hg⟩ => ?_⟩
      cases h
      rw [scanEnd_eq_ok_iff.2 hg] at hend
      cases hend
    | ok _ =>
      refine ⟨fun h => ?_, fun ⟨r, h, _⟩ => ?_⟩
      · cases h
        exact ⟨rest, rfl, scanEnd_eq_ok_iff.1 hend⟩
      · cases h
        rfl

/-- A whole text gives what its reading gives, if it ends there. -/
theorem Gives.wholly {read : Bytes → Scan α} {P : α → Prop} (h : Gives (read s) P rest)
    (hg : Gap rest) (a : α) : wholly read s = .ok a ↔ P a := by
  rw [wholly_eq_ok_iff]
  constructor
  · rintro ⟨r, hr, -⟩
    exact ((h a r).1 hr).1
  · intro ha
    exact ⟨rest, (h a rest).2 ⟨ha, rfl⟩, hg⟩

theorem Bracketed.head {P : α → Bytes → Prop} {as : List α} {k : Bracket} {b : Bytes}
    (h : Bracketed k P as b) : (skipBlank b).head? = some k.opening := by
  obtain ⟨g, body, g', hg, -, -, rfl⟩ := h
  rw [skipBlank_gap_cons hg k.isBlank_opening]
  rfl

/-! ## Looking for the next item -/

/-- Where an item ends, a comma or the closing bracket follows. -/
theorem More.ends {P : α → Bytes → Prop} {as : List α} (hm : More P as t) (k : Bracket)
    (rest : Bytes) : Ends (t ++ k.close :: rest) := by
  cases hm with
  | done hg => exact .gap hg (k.ends_close rest)
  | next hg =>
    rw [List.append_assoc]
    exact .gap hg (ends_cons (by decide) _)

theorem nextMember_first {g : Bytes} (hg : Gap g) (s : Bytes) :
    nextMember true (g ++ 34 :: s) = .ok (.item s) := by
  simp only [nextMember, skipBlank_gap_cons hg (b := 34) rfl]
  rfl

theorem nextMember_comma {g g' : Bytes} (hg : Gap g) (hg' : Gap g') (s : Bytes) :
    nextMember false (g ++ 44 :: (g' ++ 34 :: s)) = .ok (.item s) := by
  simp only [nextMember, skipBlank_gap_cons hg (b := 44) rfl, skipBlank_gap_cons hg' (b := 34) rfl]
  rfl

theorem nextMember_close {g : Bytes} (hg : Gap g) (first : Bool) (s : Bytes) :
    nextMember first (g ++ 125 :: s) = .ok (.close s) := by
  simp only [nextMember, skipBlank_gap_cons hg (b := 125) rfl]
  rfl

theorem nextElement_close {g : Bytes} (hg : Gap g) (first : Bool) (s : Bytes) :
    nextElement first (g ++ 93 :: s) = .ok (.close s) := by
  simp only [nextElement, skipBlank_gap_cons hg (b := 93) rfl]
  rfl

theorem nextElement_first {g v : Bytes} (hg : Gap g) (hv : Written Inside .value v) (s : Bytes) :
    nextElement true (g ++ (v ++ s)) = .ok (.item (v ++ s)) := by
  obtain ⟨b, r, rfl, hb⟩ := hv.begins
  obtain ⟨hblank, hclose, -⟩ := not_beginsValue hb
  simp only [nextElement, List.cons_append, skipBlank_gap_cons hg hblank, if_neg hclose, if_true]

theorem nextElement_comma {g g' v : Bytes} (hg : Gap g) (hg' : Gap g')
    (hv : Written Inside .value v) (s : Bytes) :
    nextElement false (g ++ 44 :: (g' ++ (v ++ s))) = .ok (.item (v ++ s)) := by
  obtain ⟨b, r, rfl, hb⟩ := hv.begins
  obtain ⟨hblank, hclose, -⟩ := not_beginsValue hb
  have h44 : ¬ (44 : UInt8) = 93 := by decide
  simp only [nextElement, List.cons_append, skipBlank_gap_cons hg (b := 44) rfl,
    skipBlank_gap_cons hg' hblank, if_neg hclose, if_neg h44, Bool.false_eq_true, if_false, if_true]

/-- What stands in front of the item that comes next. -/
def leadsIn (first : Bool) (t : Bytes) : Prop :=
  if first then Gap t else ∃ g g', Gap g ∧ Gap g' ∧ t = g ++ 44 :: g'

theorem of_nextMember {first : Bool} {turn : Turn} (h : nextMember first s = .ok turn) :
    (∃ g rest, turn = .close rest ∧ Gap g ∧ s = g ++ 125 :: rest) ∨
      ∃ t rest, turn = .item rest ∧ leadsIn first t ∧ s = t ++ 34 :: rest := by
  unfold nextMember at h
  split at h
  · cases h
  · next b r hb =>
    obtain ⟨g, hg, rfl⟩ := gap_of_skipBlank_cons hb
    split at h
    · next hclose =>
      subst hclose
      cases h
      exact .inl ⟨g, r, rfl, hg, rfl⟩
    · cases first with
      | true =>
        simp only [if_true] at h
        split at h
        · next hquote =>
          subst hquote
          cases h
          exact .inr ⟨g, r, rfl, hg, rfl⟩
        · cases h
      | false =>
        simp only [Bool.false_eq_true, if_false] at h
        split at h
        · next hcomma =>
          subst hcomma
          split at h
          · cases h
          · next c r' hc =>
            obtain ⟨g', hg', rfl⟩ := gap_of_skipBlank_cons hc
            split at h
            · next hquote =>
              subst hquote
              cases h
              exact .inr ⟨g ++ 44 :: g', r', rfl, ⟨g, g', hg, hg', rfl⟩, by simp⟩
            · split at h <;> cases h
        · cases h

theorem of_nextElement {first : Bool} {turn : Turn} (h : nextElement first s = .ok turn) :
    (∃ g rest, turn = .close rest ∧ Gap g ∧ s = g ++ 93 :: rest) ∨
      ∃ t rest, turn = .item rest ∧ leadsIn first t ∧ s = t ++ rest := by
  unfold nextElement at h
  split at h
  · cases h
  · next b r hb =>
    obtain ⟨g, hg, rfl⟩ := gap_of_skipBlank_cons hb
    split at h
    · next hclose =>
      subst hclose
      cases h
      exact .inl ⟨g, r, rfl, hg, rfl⟩
    · cases first with
      | true =>
        cases h
        exact .inr ⟨g, b :: r, rfl, hg, rfl⟩
      | false =>
        simp only [Bool.false_eq_true, if_false] at h
        split at h
        · next hcomma =>
          subst hcomma
          split at h
          · cases h
          · next c r' hc =>
            obtain ⟨g', hg', rfl⟩ := gap_of_skipBlank_cons hc
            split at h
            · cases h
            · cases h
              exact .inr ⟨g ++ 44 :: g', c :: r', rfl, ⟨g, g', hg, hg', rfl⟩, by simp⟩
        · cases h

/-! ## Objects -/

section Objects

variable {step : σ → String → Bytes → Scan σ} {takes : σ → Member → σ → Prop} {V : Bytes → Prop}
  (hexact : ∀ {acc : σ} {m : Member} {g₁ g₂ rest : Bytes}, V m.value → Gap g₁ → Gap g₂ →
    Ends rest → Gives (step acc m.name (g₁ ++ 58 :: (g₂ ++ (m.value ++ rest)))) (takes acc m) rest)

include hexact

/-- One member, and then the others. -/
theorem foldMembers_gives_item {first : Bool} {m : Member} {ms : List Member}
    {raw g₁ g₂ rest' : Bytes} {acc : σ} {fuel : Nat}
    (hnext : nextMember first s =
      .ok (.item (raw ++ 34 :: (g₁ ++ 58 :: (g₂ ++ (m.value ++ rest'))))))
    (hraw : Spells raw m.name) (hg₁ : Gap g₁) (hg₂ : Gap g₂) (hv : V m.value) (hr : Ends rest')
    (hrest : ∀ c, Gives (foldMembers step fuel false c rest') (Admits takes ms c) rest) :
    Gives (foldMembers step (fuel + 1) first acc s) (Admits takes (m :: ms) acc) rest := by
  have hname : scanString (raw ++ 34 :: (g₁ ++ 58 :: (g₂ ++ (m.value ++ rest')))) =
      .ok (m.name, g₁ ++ 58 :: (g₂ ++ (m.value ++ rest'))) :=
    scanString_eq_ok_iff.2 ⟨raw, hraw, rfl⟩
  simp only [foldMembers, hnext, hname]
  have hstep : Gives (step acc m.name (g₁ ++ 58 :: (g₂ ++ (m.value ++ rest')))) (takes acc m)
      rest' := hexact hv hg₁ hg₂ hr
  obtain ⟨f, hx, hn⟩ | ⟨c, hx, hc, hu⟩ := hstep.cases
  · rw [hx]
    exact gives_error fun a ⟨c, hc, _⟩ => hn c hc
  · rw [hx]
    refine (hrest c).congr fun a => ⟨fun ha => ⟨c, hc, ha⟩, ?_⟩
    rintro ⟨c', hc', ha⟩
    rwa [← hu c' hc']

theorem foldMembers_gives_more {ms : List Member} (hm : More (Spelled V) ms t) (acc : σ) {fuel : Nat}
    (hf : ms.length < fuel) :
    Gives (foldMembers step fuel false acc (t ++ 125 :: rest)) (Admits takes ms acc) rest := by
  induction hm generalizing acc fuel with
  | done hg =>
    obtain ⟨fuel, rfl⟩ := Nat.exists_eq_add_one.2 (Nat.zero_lt_of_lt hf)
    simp only [foldMembers, nextMember_close hg]
    exact gives_ok rfl fun _ hb => hb
  | @next g b t m ms hg ha hm ih =>
    obtain ⟨fuel, rfl⟩ := Nat.exists_eq_add_one.2 (Nat.zero_lt_of_lt hf)
    obtain ⟨g', raw, g₁, g₂, hg', hraw, hg₁, hg₂, hv, rfl⟩ := ha
    have hnext := nextMember_comma hg hg' (raw ++ 34 :: (g₁ ++ 58 :: (g₂ ++ (m.value ++
      (t ++ 125 :: rest)))))
    simp only [List.append_assoc, List.cons_append]
    exact foldMembers_gives_item hexact hnext hraw hg₁ hg₂ hv (hm.ends .object rest) fun c =>
      ih c (Nat.lt_of_succ_lt_succ hf)

/-- **Members whose steps have exact answers are folded over one after the other.** -/
theorem foldMembers_gives {ms : List Member} (hb : Body (Spelled V) ms t) (acc : σ) {fuel : Nat}
    (hf : ms.length < fuel) :
    Gives (foldMembers step fuel true acc (t ++ 125 :: rest)) (Admits takes ms acc) rest := by
  obtain ⟨fuel, rfl⟩ := Nat.exists_eq_add_one.2 (Nat.zero_lt_of_lt hf)
  cases hb with
  | empty hg =>
    simp only [foldMembers, nextMember_close hg]
    exact gives_ok rfl fun _ hb => hb
  | @filled b t m ms ha hm =>
    obtain ⟨g', raw, g₁, g₂, hg', hraw, hg₁, hg₂, hv, rfl⟩ := ha
    have hnext := nextMember_first hg' (raw ++ 34 :: (g₁ ++ 58 :: (g₂ ++ (m.value ++
      (t ++ 125 :: rest)))))
    simp only [List.append_assoc, List.cons_append]
    exact foldMembers_gives_item hexact hnext hraw hg₁ hg₂ hv (hm.ends .object rest) fun c =>
      foldMembers_gives_more hexact hm c (Nat.lt_of_succ_lt_succ hf)

end Objects

theorem More.length_le {P : α → Bytes → Prop} {as : List α} (hm : More P as t) :
    as.length ≤ t.length := by
  induction hm with
  | done => exact Nat.zero_le _
  | next hg ha hm ih =>
    simp only [List.length_cons, List.length_append]
    omega

theorem Body.length_le {P : α → Bytes → Prop} {as : List α} (hb : Body P as t) :
    as.length ≤ t.length + 1 := by
  cases hb with
  | empty => exact Nat.zero_le _
  | filled ha hm =>
    have hle := hm.length_le
    simp only [List.length_cons, List.length_append]
    omega

/-- There is a unit of fuel for each item, and one for what closes them. -/
theorem Body.lt_fuel {P : α → Bytes → Prop} {as : List α} (hb : Body P as t) (b : UInt8)
    (rest : Bytes) : as.length < (t ++ b :: rest).length + 1 := by
  have hle := hb.length_le
  rw [List.length_append, List.length_cons]
  omega

variable {step : σ → String → Bytes → Scan σ} {takes : σ → Member → σ → Prop}

/-- What is folded over are the members of an object. -/
theorem Steps.members (hst : Steps step takes) {fuel : Nat} {first : Bool} {acc acc' : σ}
    (h : foldMembers step fuel first acc s = .ok (acc', rest)) :
    (∃ g, Gap g ∧ s = g ++ 125 :: rest) ∨ ∃ g m ms b t, leadsIn first g ∧
      (∀ {g'}, Gap g' → MemberText Inside m (g' ++ b)) ∧ More (MemberText Inside) ms t ∧
      s = g ++ (b ++ (t ++ 125 :: rest)) := by
  induction fuel generalizing first acc s with
  | zero => cases h
  | succ fuel ih =>
    rw [foldMembers] at h
    split at h
    · cases h
    · next r hr =>
      cases h
      obtain ⟨g, r, hturn, hg, rfl⟩ | ⟨g, r, hturn, -⟩ := of_nextMember hr
      · cases hturn
        exact .inl ⟨g, hg, rfl⟩
      · cases hturn
    · next r hr =>
      obtain ⟨g, r, hturn, -⟩ | ⟨g, r, hturn, hg, rfl⟩ := of_nextMember hr
      · cases hturn
      · cases hturn
        split at h
        · cases h
        · next name r' hname =>
          obtain ⟨raw, hraw, rfl⟩ := scanString_eq_ok_iff.1 hname
          split at h
          · cases h
          · next acc₁ r'' hstep =>
            obtain ⟨g₁, g₂, v, hg₁, hg₂, hv, rfl⟩ := hst.sound hstep
            have hmember : ∀ {g'}, Gap g' → MemberText Inside ⟨name, v⟩
                (g' ++ 34 :: (raw ++ 34 :: (g₁ ++ 58 :: (g₂ ++ v)))) := fun {g'} hg' =>
              ⟨g', raw, g₁, g₂, hg', hraw, hg₁, hg₂, hv, rfl⟩
            obtain ⟨g₃, hg₃, rfl⟩ | ⟨g₃, m, ms, b, t, hlead, hm, hmore, rfl⟩ := ih h
            · exact .inr ⟨g, _, [], _, g₃, hg, hmember, .done hg₃, by simp⟩
            · obtain ⟨g₄, g₅, hg₄, hg₅, rfl⟩ := hlead
              exact .inr ⟨g, _, m :: ms, _, _, hg, hmember, .next hg₄ (hm hg₅) hmore, by simp⟩

end Switchboard.Json
