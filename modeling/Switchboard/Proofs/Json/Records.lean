import Switchboard.Proofs.Json.Integers
import Switchboard.Proofs.Json.Items

/-!
# Records that are read

A record is read from an object member by member, or from a list place by place.  What is read of a
field is a relation between its value, as it is written, and the state before and after (`Reads`);
the reading of the whole is that of its parts, one after the other (`Makes`, `Fills`).

    object of ms:  r.read gives e ↔ r.Makes P start ms e
    list of vs:    r.read gives e ↔ Fills fields vs start e
    anything else: r.read gives nothing
-/

namespace Switchboard.Json

/-! ## Specification -/

/-- A codec reads of a value what `P` says, and of anything but a value it reads nothing. -/
structure Codec.Reads {α : Type} (c : Codec α) (P : Bytes → α → Prop) : Prop where
  sound : ∀ {depth : Nat} {s rest : Bytes} {a : α}, c.read depth s = .ok (a, rest) →
    ∃ g v, Gap g ∧ Written Inside .value v ∧ s = g ++ (v ++ rest)
  exact : ∀ {depth : Nat} {g v rest : Bytes}, Gap g → Written Inside .value v → Ends rest →
    Gives (c.read depth (g ++ (v ++ rest))) (P v) rest

/-- The same of a field, from one state to another. -/
structure Field.Reads {σ : Type} (f : Field σ) (P : σ → Bytes → σ → Prop) : Prop where
  sound : ∀ {depth : Nat} {s rest : Bytes} {a b : σ}, f.read depth a s = .ok (b, rest) →
    ∃ g v, Gap g ∧ Written Inside .value v ∧ s = g ++ (v ++ rest)
  exact : ∀ {depth : Nat} {g v rest : Bytes} {a : σ}, Gap g → Written Inside .value v →
    Ends rest → Gives (f.read depth a (g ++ (v ++ rest))) (P a v) rest

/-- What is read of a field inside so many brackets, of the values that are written as `V` says. -/
def Field.ReadsAt {σ : Type} (f : Field σ) (depth : Nat) (V : Bytes → Prop)
    (P : σ → Bytes → σ → Prop) : Prop :=
  ∀ {g v rest : Bytes} {a : σ}, Gap g → V v → Ends rest →
    Gives (f.read depth a (g ++ (v ++ rest))) (P a v) rest

/-- The fields take the values in their places, one for each. -/
def Fills {σ : Type} (P : Field σ → σ → Bytes → σ → Prop) :
    List (Field σ) → List Bytes → σ → σ → Prop
  | [], [], a, b => b = a
  | f :: fs, v :: vs, a, b => ∃ c, P f a v c ∧ Fills P fs vs c b
  | _, _, _, _ => False

/-- What a member does to a record of which each field reads what `P` says. -/
def Record.Takes {σ : Type} (r : Record σ) (P : Field σ → σ → Bytes → σ → Prop) (acc : Filled σ)
    (m : Member) (acc' : Filled σ) : Prop :=
  match r.fields.find? (·.name == m.name) with
  | none => acc' = acc
  | some f => m.name ∉ acc.seen ∧ ∃ st, P f acc.state m.value st ∧
      acc' = ⟨m.name :: acc.seen, st⟩

/-- What is made of members: all of them are taken, and nothing that is required is missing. -/
def Record.Makes {σ : Type} (r : Record σ) (P : Field σ → σ → Bytes → σ → Prop) (start : σ)
    (ms : List Member) (e : σ) : Prop :=
  ∃ filled, Admits (r.Takes P) ms ⟨[], start⟩ filled ∧ r.absent filled.seen = none ∧
    e = filled.state

/-! ## Fields -/

variable {σ α : Type} {s t rest : Bytes}

theorem integer_reads {expected : String} {low high : Int} (hlow : -(Bounds.half64 : Int) ≤ low)
    (hhigh : high < Bounds.word64) :
    (integer expected low high).Reads fun v n => Denotes v n ∧ low ≤ n ∧ n ≤ high where
  sound h := by
    obtain ⟨g, v, hg, hv, hs, -⟩ := (integer_read_eq_ok_iff hlow hhigh).1 h
    exact ⟨g, v, hg, .number hv.numeral, hs⟩
  exact {depth g v rest} hg hv hr n r := by
    rw [integer_read_eq_ok_iff hlow hhigh]
    constructor
    · rintro ⟨g', v', hg', hv', heq, hr', hrange⟩
      have hn' : Written Inside .value v' := .number hv'.numeral
      have hskip := hv.skipBlank_value hg rest
      rw [heq, hn'.skipBlank_value hg' r] at hskip
      obtain ⟨rfl, rfl⟩ := hn'.unique (fun _ => id) hv hr' hr hskip
      exact ⟨⟨hv', hrange⟩, rfl⟩
    · rintro ⟨⟨hd, hrange⟩, rfl⟩
      exact ⟨g, v, hg, hd, rfl, hr, hrange⟩

theorem Codec.Reads.map {β : Type} {c : Codec α} {P : Bytes → α → Prop} (h : c.Reads P)
    (f : α → β) : (c.map f).Reads fun v b => ∃ a, P v a ∧ b = f a where
  sound {depth s rest b} hok := by
    obtain ⟨a, ha⟩ := ok_of_map_ok (x := c.read depth s) (f := f) hok
    exact h.sound ha
  exact hg hv hr := (h.exact hg hv hr).map f

/-- A word is read from an integer numeral that denotes it. -/
theorem word64_reads : word64.Reads fun v n => Denotes v n.toNat := by
  have hlow : -(Bounds.half64 : Int) ≤ 0 := by decide
  have hhigh : (Bounds.word64 : Int) - 1 < Bounds.word64 := by decide
  have hinteger : (integer "u64" 0 (Bounds.word64 - 1)).Reads fun v i =>
      Denotes v i ∧ 0 ≤ i ∧ i ≤ (Bounds.word64 : Int) - 1 := integer_reads hlow hhigh
  have hmap := hinteger.map fun i => i.toNat.toUInt64
  refine ⟨hmap.sound, fun hg hv hr => (hmap.exact hg hv hr).congr fun n => ?_⟩
  constructor
  · rintro ⟨i, ⟨hd, hpos, hle⟩, rfl⟩
    have hlt : i.toNat < UInt64.size := by
      have hsize : Bounds.word64 = UInt64.size := rfl
      omega
    rwa [Nat.toUInt64, UInt64.toNat_ofNat_of_lt' hlt, Int.toNat_of_nonneg hpos]
  · intro hd
    have hlt : n.toNat < Bounds.word64 := n.toNat_lt
    exact ⟨n.toNat, ⟨hd, Int.natCast_nonneg _, by omega⟩, UInt64.ofNat_toNat.symm⟩

theorem Codec.Reads.field {c : Codec α} {P : Bytes → α → Prop} (h : c.Reads P) (name : String)
    (set : α → σ → σ) :
    (Field.of name c set).Reads fun a v b => ∃ x, P v x ∧ b = set x a where
  sound {depth s rest a b} hok := by
    obtain ⟨x, hx⟩ := ok_of_map_ok (x := c.read depth s) (f := fun x => set x a) hok
    exact h.sound hx
  exact hg hv hr := (h.exact hg hv hr).map fun x => set x _

/-! ## Members -/

theorem scanColon_append {g : Bytes} (hg : Gap g) (s : Bytes) :
    scanColon (g ++ 58 :: s) = .ok s := by
  simp only [scanColon, skipBlank_gap_cons hg (b := 58) rfl]
  rfl

theorem colon_of_scanColon (h : scanColon s = .ok rest) : ∃ g, Gap g ∧ s = g ++ 58 :: rest := by
  unfold scanColon at h
  split at h
  · cases h
  · next b r hb =>
    obtain ⟨g, hg, rfl⟩ := gap_of_skipBlank_cons hb
    split at h
    · next hcolon =>
      subst hcolon
      cases h
      exact ⟨g, hg, rfl⟩
    · cases h

namespace Record

variable {r : Record σ} {P : Field σ → σ → Bytes → σ → Prop} {depth : Nat} {start e : σ}
  {V : Bytes → Prop}

theorem takes_unknown {acc acc' : Filled σ} {m : Member}
    (hf : r.fields.find? (·.name == m.name) = none) : r.Takes P acc m acc' ↔ acc' = acc := by
  rw [Takes, hf]

theorem takes_known {acc acc' : Filled σ} {m : Member} {f : Field σ}
    (hf : r.fields.find? (·.name == m.name) = some f) : r.Takes P acc m acc' ↔
      m.name ∉ acc.seen ∧ ∃ st, P f acc.state m.value st ∧ acc' = ⟨m.name :: acc.seen, st⟩ := by
  rw [Takes, hf]

/-- What members make is told by a relation that goes through them one by one and comes to nothing
missing at their end. -/
theorem makes_iff_of {R : Filled σ → List Member → Prop}
    (hnil : ∀ acc, R acc [] ↔ r.absent acc.seen = none ∧ e = acc.state)
    (hcons : ∀ acc m ms, R acc (m :: ms) ↔ ∃ acc', r.Takes P acc m acc' ∧ R acc' ms)
    (ms : List Member) : r.Makes P start ms e ↔ R ⟨[], start⟩ ms := by
  suffices hall : ∀ acc, (∃ filled, Admits (r.Takes P) ms acc filled ∧
      r.absent filled.seen = none ∧ e = filled.state) ↔ R acc ms from hall _
  induction ms with
  | nil =>
    intro acc
    rw [hnil]
    constructor
    · rintro ⟨filled, rfl, h⟩
      exact h
    · intro h
      exact ⟨acc, rfl, h⟩
  | cons m ms ih =>
    intro acc
    rw [hcons]
    constructor
    · rintro ⟨filled, ⟨acc', htakes, hadmits⟩, h⟩
      exact ⟨acc', htakes, (ih acc').1 ⟨filled, hadmits, h⟩⟩
    · rintro ⟨acc', htakes, h⟩
      obtain ⟨filled, hadmits, h⟩ := (ih acc').2 h
      exact ⟨filled, ⟨acc', htakes, hadmits⟩, h⟩

/-- What is read as a member behind its name is a colon and a value. -/
theorem value_of_readMember (hP : ∀ f ∈ r.fields, f.Reads (P f)) {acc acc' : Filled σ}
    {name : String} (h : r.readMember depth acc name s = .ok (acc', rest)) :
    ∃ g₁ g₂ v, Gap g₁ ∧ Gap g₂ ∧ Written Inside .value v ∧ s = g₁ ++ 58 :: (g₂ ++ (v ++ rest)) := by
  unfold readMember at h
  split at h
  · next f hf =>
    split at h
    · cases h
    · split at h
      · cases h
      · next s' hcolon =>
        obtain ⟨g₁, hg₁, rfl⟩ := colon_of_scanColon hcolon
        obtain ⟨st, hst⟩ := ok_of_map_ok (f := fun st => (⟨name :: acc.seen, st⟩ : Filled σ)) h
        obtain ⟨g₂, v, hg₂, hv, rfl⟩ := (hP f (List.mem_of_find?_eq_some hf)).sound hst
        exact ⟨g₁, g₂, v, hg₁, hg₂, hv, rfl⟩
  · split at h
    · cases h
    · next s' hcolon =>
      obtain ⟨g₁, hg₁, rfl⟩ := colon_of_scanColon hcolon
      cases hskip : skipValue s' with
      | error e =>
        rw [hskip] at h
        cases h
      | ok s'' =>
        rw [hskip] at h
        cases h
        obtain ⟨g₂, v, hg₂, hv, rfl⟩ := value_of_skipValue hskip
        exact ⟨g₁, g₂, v, hg₁, hg₂, hv, rfl⟩

theorem readMember_gives (hV : ∀ v, V v → Written Inside .value v)
    (hP : ∀ f ∈ r.fields, f.ReadsAt depth V (P f)) {acc : Filled σ} {m : Member} {g₁ g₂ : Bytes}
    (hv : V m.value) (hg₁ : Gap g₁) (hg₂ : Gap g₂) (hr : Ends rest) :
    Gives (r.readMember depth acc m.name (g₁ ++ 58 :: (g₂ ++ (m.value ++ rest)))) (r.Takes P acc m)
      rest := by
  unfold readMember
  cases hf : r.fields.find? (·.name == m.name) with
  | none =>
    simp only [scanColon_append hg₁, skipValue_append (fun _ => id) hg₂ (hV _ hv) hr]
    exact gives_ok ((takes_unknown hf).2 rfl) fun _ => (takes_unknown hf).1
  | some f =>
    dsimp only
    by_cases hseen : m.name ∈ acc.seen
    · have hcontains : acc.seen.contains m.name = true := List.contains_iff_mem.2 hseen
      rw [if_pos hcontains]
      exact gives_error fun _ h => ((takes_known hf).1 h).1 hseen
    · have hcontains : ¬ acc.seen.contains m.name = true := fun h =>
        hseen (List.contains_iff_mem.1 h)
      rw [if_neg hcontains, scanColon_append hg₁]
      have hread : Gives (f.read depth acc.state (g₂ ++ (m.value ++ rest)))
          (P f acc.state m.value) rest := hP f (List.mem_of_find?_eq_some hf) hg₂ hv hr
      refine (hread.map fun st => (⟨m.name :: acc.seen, st⟩ : Filled σ)).congr fun _ => ?_
      rw [takes_known hf]
      exact ⟨fun h => ⟨hseen, h⟩, fun h => h.2⟩

/-- A record takes its members one by one, those that it knows and the others. -/
theorem steps (hP : ∀ f ∈ r.fields, f.Reads (P f)) : Steps (r.readMember depth) (r.Takes P) :=
  ⟨value_of_readMember hP, fun hg₁ hg₂ hv hr =>
    readMember_gives (fun _ => id) (fun f hf => (hP f hf).exact) hv hg₁ hg₂ hr⟩

theorem readMembers_gives (hV : ∀ v, V v → Written Inside .value v)
    (hP : ∀ f ∈ r.fields, f.ReadsAt depth V (P f)) {ms : List Member} (hb : Body (Spelled V) ms t) :
    Gives (r.readMembers depth start (t ++ 125 :: rest)) (r.Makes P start ms) rest := by
  have hfold : Gives (foldMembers (r.readMember depth) ((t ++ 125 :: rest).length + 1) true
      ⟨[], start⟩ (t ++ 125 :: rest)) (Admits (r.Takes P) ms ⟨[], start⟩) rest :=
    foldMembers_gives (readMember_gives hV hP) hb _ (hb.lt_fuel 125 rest)
  unfold readMembers
  obtain ⟨f, hx, hn⟩ | ⟨filled, hx, hc, hu⟩ := hfold.cases
  · rw [hx]
    exact gives_error fun e ⟨filled, hadmits, _⟩ => hn filled hadmits
  · rw [hx]
    dsimp only
    cases habsent : r.absent filled.seen with
    | some name =>
      refine gives_error fun e ⟨filled', hadmits, hnone, _⟩ => ?_
      rw [hu filled' hadmits, habsent] at hnone
      cases hnone
    | none =>
      refine gives_ok ⟨filled, hc, habsent, rfl⟩ fun e ⟨filled', hadmits, _, he⟩ => ?_
      rw [he, hu filled' hadmits]

theorem body_of_readMembers (hP : ∀ f ∈ r.fields, f.Reads (P f))
    (h : r.readMembers depth start s = .ok (e, rest)) :
    ∃ ms t, Body (MemberText Inside) ms t ∧ s = t ++ 125 :: rest := by
  unfold readMembers at h
  split at h
  · cases h
  · next filled s' hfold =>
    split at h
    · cases h
    · cases h
      obtain ⟨g, hg, rfl⟩ | ⟨g, m, ms, b, t, hlead, hm, hmore, rfl⟩ := (steps hP).members hfold
      · exact ⟨[], g, .empty hg, rfl⟩
      · exact ⟨m :: ms, (g ++ b) ++ t, .filled (hm hlead) hmore, by simp⟩

/-! ## Lists -/

theorem scanListEnd_append {g : Bytes} (hg : Gap g) (s : Bytes) :
    scanListEnd (g ++ 93 :: s) = .ok s := by
  simp only [scanListEnd, skipBlank_gap_cons hg (b := 93) rfl]
  rfl

theorem scanListEnd_comma {g : Bytes} (hg : Gap g) (s : Bytes) :
    ∃ f, scanListEnd (g ++ 44 :: s) = .error f := by
  have h44 : ¬ (44 : UInt8) = 93 := by decide
  simp only [scanListEnd, skipBlank_gap_cons hg (b := 44) rfl, if_neg h44, if_true]
  split <;> exact ⟨_, rfl⟩

theorem gap_of_scanListEnd (h : scanListEnd s = .ok rest) : ∃ g, Gap g ∧ s = g ++ 93 :: rest := by
  unfold scanListEnd at h
  split at h
  · cases h
  · next b r hb =>
    obtain ⟨g, hg, rfl⟩ := gap_of_skipBlank_cons hb
    split at h
    · next hclose =>
      subst hclose
      cases h
      exact ⟨g, hg, rfl⟩
    · split at h
      · split at h <;> cases h
      · cases h

/-- One field, and then the others. -/
theorem readPlaces_item {f : Field σ} {fs : List (Field σ)} {vs : List Bytes} {v rest' : Bytes}
    {count : Nat} (hf : f.Reads (P f))
    (hnext : nextElement (count == 0) s = .ok (.item (v ++ rest')))
    (hv : Written Inside .value v) (hr : Ends rest')
    (hrest : ∀ c, Gives (r.readPlaces depth fs (count + 1) c rest') (Fills P fs vs c) rest) :
    Gives (r.readPlaces depth (f :: fs) count start s) (Fills P (f :: fs) (v :: vs) start)
      rest := by
  simp only [readPlaces, hnext]
  have hread : Gives (f.read depth start ([] ++ (v ++ rest'))) (P f start v) rest' :=
    hf.exact gap_nil hv hr
  rw [List.nil_append] at hread
  obtain ⟨x, hx, hn⟩ | ⟨c, hx, hc, hu⟩ := hread.cases
  · rw [hx]
    exact gives_error fun a ⟨c, hc, _⟩ => hn c hc
  · rw [hx]
    refine (hrest c).congr fun a => ⟨fun ha => ⟨c, hc, ha⟩, ?_⟩
    rintro ⟨c', hc', ha⟩
    rwa [← hu c' hc']

theorem readPlaces_more (hr : r.required = true) {fs : List (Field σ)}
    (hP : ∀ f ∈ fs, f.Reads (P f)) {vs : List Bytes} (hm : More (ElementText Inside) vs t)
    (count : Nat) :
    Gives (r.readPlaces depth fs (count + 1) start (t ++ 93 :: rest)) (Fills P fs vs start)
      rest := by
  induction fs generalizing start vs t count with
  | nil =>
    cases hm with
    | done hg =>
      simp only [readPlaces, scanListEnd_append hg]
      exact gives_ok rfl fun _ hb => hb
    | @next g b t v vs hg =>
      obtain ⟨x, hx⟩ := scanListEnd_comma hg (b ++ t ++ 93 :: rest)
      simp only [List.append_assoc, List.cons_append] at hx ⊢
      simp only [readPlaces, hx]
      exact gives_error fun _ => id
  | cons f fs ih =>
    cases hm with
    | done hg =>
      have hfirst : (count + 1 == 0) = false := rfl
      simp only [readPlaces, hfirst, nextElement_close hg, hr, if_true]
      exact gives_error fun _ => id
    | @next g b t v vs hg ha hm =>
      obtain ⟨g', hg', hv, rfl⟩ := ha
      have hnext := nextElement_comma hg hg' hv (t ++ 93 :: rest)
      simp only [List.append_assoc, List.cons_append]
      exact readPlaces_item (hP f List.mem_cons_self) hnext hv (hm.ends .list rest) fun c =>
        ih (fun f hf => hP f (List.mem_cons_of_mem _ hf)) hm (count + 1)

theorem readPlaces_gives (hr : r.required = true) {f : Field σ} {fs : List (Field σ)}
    (hP : ∀ x ∈ f :: fs, x.Reads (P x)) {vs : List Bytes} (hb : Body (ElementText Inside) vs t) :
    Gives (r.readPlaces depth (f :: fs) 0 start (t ++ 93 :: rest)) (Fills P (f :: fs) vs start)
      rest := by
  cases hb with
  | empty hg =>
    have hfirst : (0 == 0) = true := rfl
    simp only [readPlaces, hfirst, nextElement_close hg, hr, if_true]
    exact gives_error fun _ => id
  | @filled b t v vs ha hm =>
    obtain ⟨g', hg', hv, rfl⟩ := ha
    have hnext := nextElement_first hg' hv (t ++ 93 :: rest)
    simp only [List.append_assoc]
    exact readPlaces_item (hP f List.mem_cons_self) hnext hv (hm.ends .list rest) fun c =>
      readPlaces_more hr (fun x hx => hP x (List.mem_cons_of_mem _ hx)) hm 0

/-- What is read place by place are the elements of a list. -/
theorem elements_of_readPlaces (hr : r.required = true) {fs : List (Field σ)}
    (hP : ∀ f ∈ fs, f.Reads (P f)) {count : Nat}
    (h : r.readPlaces depth fs count start s = .ok (e, rest)) :
    (∃ g, Gap g ∧ s = g ++ 93 :: rest) ∨ ∃ g v vs b t, leadsIn (count == 0) g ∧
      (∀ {g'}, Gap g' → ElementText Inside v (g' ++ b)) ∧ More (ElementText Inside) vs t ∧
      s = g ++ (b ++ (t ++ 93 :: rest)) := by
  induction fs generalizing start s count with
  | nil =>
    rw [readPlaces] at h
    cases hend : scanListEnd s with
    | error x =>
      rw [hend] at h
      cases h
    | ok r' =>
      rw [hend] at h
      cases h
      exact .inl (gap_of_scanListEnd hend)
  | cons f fs ih =>
    rw [readPlaces] at h
    split at h
    · cases h
    · rw [if_pos hr] at h
      cases h
    · next r' hnext =>
      split at h
      · cases h
      · next acc' rest' hread =>
        obtain ⟨g₀, v, hg₀, hv, rfl⟩ := (hP f List.mem_cons_self).sound hread
        obtain ⟨_, _, hturn, -⟩ | ⟨g, _, hturn, hlead, rfl⟩ := of_nextElement hnext
        · cases hturn
        · cases hturn
          have helement : ∀ {g'}, Gap g' → ElementText Inside v (g' ++ (g₀ ++ v)) := fun {g'} hg' =>
            ⟨g' ++ g₀, hg'.append hg₀, hv, (List.append_assoc ..).symm⟩
          obtain ⟨g₃, hg₃, rfl⟩ | ⟨g₃, w, vs, b, t, hlead', hw, hmore, rfl⟩ :=
            ih (fun f hf => hP f (List.mem_cons_of_mem _ hf)) h
          · exact .inr ⟨g, v, [], _, g₃, hlead, helement, .done hg₃, by simp⟩
          · obtain ⟨g₄, g₅, hg₄, hg₅, rfl⟩ := hlead'
            exact .inr ⟨g, v, w :: vs, _, _, hlead, helement, .next hg₄ (hw hg₅) hmore, by simp⟩

/-! ## Whole texts -/

theorem read_object {g : Bytes} (hg : Gap g) :
    r.read start (depth + 1) (g ++ 123 :: s) = r.readMembers depth start s := by
  simp only [read, skipBlank_gap_cons hg (b := 123) rfl]
  rfl

theorem read_list {g : Bytes} (hg : Gap g) :
    r.read start (depth + 1) (g ++ 91 :: s) = r.readPlaces depth r.fields 0 start s := by
  simp only [read, skipBlank_gap_cons hg (b := 91) rfl]
  rfl

/-- Only an object or a list is read as a record. -/
theorem of_read (h : r.read start (depth + 1) s = .ok (e, rest)) :
    (∃ g t, Gap g ∧ s = g ++ 123 :: t ∧ r.readMembers depth start t = .ok (e, rest)) ∨
      ∃ g t, Gap g ∧ s = g ++ 91 :: t ∧ r.readPlaces depth r.fields 0 start t = .ok (e, rest) := by
  cases hs : skipBlank s with
  | nil =>
    rw [read, hs] at h
    cases h
  | cons b t =>
    obtain ⟨g, hg, rfl⟩ := gap_of_skipBlank_cons hs
    by_cases hlist : b = 91
    · subst hlist
      rw [read_list hg] at h
      exact .inr ⟨g, t, hg, rfl, h⟩
    · by_cases hobject : b = 123
      · subst hobject
        rw [read_object hg] at h
        exact .inl ⟨g, t, hg, rfl, h⟩
      · simp only [read, hs, hlist, hobject, decide_false, Bool.or_self, Bool.false_eq_true,
          if_false] at h
        cases h

variable {b : Bytes}

theorem parse_spelled (hV : ∀ v, V v → Written Inside .value v)
    (hP : ∀ f ∈ r.fields, f.ReadsAt (maxDepth - 1) V (P f)) {ms : List Member}
    (h : Bracketed .object (Spelled V) ms b) :
    (r.codec start).parse b = .ok e ↔ r.Makes P start ms e := by
  obtain ⟨g, t, g', hg, hb, hg', rfl⟩ := h
  have hread : Gives (r.read start (maxDepth - 1 + 1) (g ++ 123 :: (t ++ 125 :: g')))
      (r.Makes P start ms) g' := by
    rw [read_object hg]
    exact readMembers_gives hV hP hb
  exact hread.wholly hg' e

/-- **An object is read as what its members make.** -/
theorem parse_object (hP : ∀ f ∈ r.fields, f.Reads (P f)) {ms : List Member}
    (h : ObjectText Inside ms b) : (r.codec start).parse b = .ok e ↔ r.Makes P start ms e :=
  parse_spelled (fun _ => id) (fun f hf => (hP f hf).exact) h

/-- **A list is read place by place.** -/
theorem parse_list (hr : r.required = true) {f : Field σ} {fs : List (Field σ)}
    (hfields : r.fields = f :: fs) (hP : ∀ f ∈ r.fields, f.Reads (P f)) {vs : List Bytes}
    (h : ListText Inside vs b) :
    (r.codec start).parse b = .ok e ↔ Fills P r.fields vs start e := by
  obtain ⟨g, t, g', hg, hb, hg', rfl⟩ := h
  have hread : Gives (r.read start maxDepth (g ++ 91 :: (t ++ 93 :: g')))
      (Fills P r.fields vs start) g' := by
    rw [maxDepth, read_list hg]
    rw [hfields] at hP ⊢
    exact readPlaces_gives hr hP hb
  exact hread.wholly hg' e

/-- **Nothing else is read.** -/
theorem document_of_parse (hr : r.required = true) (hP : ∀ f ∈ r.fields, f.Reads (P f))
    (h : (r.codec start).parse b = .ok e) :
    (∃ ms, ObjectText Inside ms b) ∨ ∃ vs, ListText Inside vs b := by
  obtain ⟨rest, hread, hrest⟩ := wholly_eq_ok_iff.1 h
  obtain ⟨g, t, hg, rfl, hmembers⟩ | ⟨g, t, hg, rfl, hplaces⟩ := of_read hread
  · obtain ⟨ms, t', hb, rfl⟩ := body_of_readMembers hP hmembers
    exact .inl ⟨ms, g, t', rest, hg, hb, hrest, rfl⟩
  · obtain ⟨g', hg', rfl⟩ | ⟨g', v, vs, c, t', hlead, hv, hmore, rfl⟩ :=
      elements_of_readPlaces hr hP hplaces
    · exact .inr ⟨[], g, g', rest, hg, .empty hg', hrest, rfl⟩
    · exact .inr ⟨v :: vs, g, (g' ++ c) ++ t', rest, hg, .filled (hv hlead) hmore, hrest,
        by simp [Bracket.opening, Bracket.close]⟩

end Record

end Switchboard.Json
