import Switchboard.Proofs.Json.Printing

/-!
# What comes back from a value

A codec restores a thing from a value (`Restores`) if it reads it from what is written of the value,
and takes it from the value when that is laid over any other.  A record restores what its members
make: they are written in one order and laid over others by rising name, so what they make must be
the same in both orders; members that the record does not know are left aside.

    c.Restores depth v a → c.read d (what is written of v ++ rest) = ok (a, rest)
    c.Restores depth v a → c.ofValue (below.overlay v.sorted) = ok a
-/

namespace Switchboard.Json

open Text

/-! ## Specification -/

/-- The codec reads `a` from what is written of the value, inside at least `depth` more brackets, and
takes it from the value over any other. -/
structure Codec.Restores {α : Type} (c : Codec α) (depth : Nat) (v : Value) (a : α) : Prop where
  read : ∀ {d level : Nat} {g rest : Bytes}, depth ≤ d → Gap g → Ends rest →
    c.read d (g ++ (bytes (indented level v) ++ rest)) = .ok (a, rest)
  ofValue : ∀ {below : Value}, below.Tidy → c.ofValue (below.overlay v.sorted) = .ok a

/-- The same of a field, from one state to another. -/
structure Field.Restores {σ : Type} (f : Field σ) (depth : Nat) (s : σ) (v : Value) (s' : σ) :
    Prop where
  read : ∀ {d level : Nat} {g rest : Bytes}, depth ≤ d → Gap g → Ends rest →
    f.read d s (g ++ (bytes (indented level v) ++ rest)) = .ok (s', rest)
  ofValue : ∀ {below : Value}, below.Tidy → f.ofValue s (below.overlay v.sorted) = .ok s'

/-- The same of the field that a member names. -/
def Record.Restores {σ : Type} (r : Record σ) (depth : Nat) (s : σ) (m : String × Value) (s' : σ) :
    Prop :=
  ∃ f, r.fields.find? (·.name == m.1) = some f ∧ f.Restores depth s m.2 s'

variable {α β σ : Type} {depth : Nat} {v : Value} {rest : Bytes}

theorem Codec.Restores.mono {c : Codec α} {a : α} {depth' : Nat} (h : c.Restores depth v a)
    (hle : depth ≤ depth') : c.Restores depth' v a where
  read hd := h.read (Nat.le_trans hle hd)
  ofValue := h.ofValue

theorem Codec.Restores.map {c : Codec α} {a : α} (h : c.Restores depth v a) (f : α → β) :
    (c.map f).Restores depth v (f a) where
  read {d level g rest} hd hg hr := by
    show (c.read d _).map _ = _
    rw [h.read hd hg hr]
    rfl
  ofValue {below} hbelow := by
    show (c.ofValue _).map f = _
    rw [h.ofValue hbelow]
    rfl

theorem Codec.Restores.field {c : Codec α} {a : α} (h : c.Restores depth v a) (name : String)
    (set : α → σ → σ) (s : σ) : (Field.of name c set).Restores depth s v (set a s) where
  read {d level g rest} hd hg hr := by
    show (c.read d _).map _ = _
    rw [h.read hd hg hr]
    rfl
  ofValue {below} hbelow := by
    show (c.ofValue _).map _ = _
    rw [h.ofValue hbelow]
    rfl

/-! ## Scalars -/

/-- A value that is no bracket hides what lies below it. -/
theorem overlay_plain (below : Value) (hs : v.sorted = v) (hv : ∀ ms, v ≠ .object ms) :
    below.overlay v.sorted = v := by
  rw [hs]
  exact Value.overlay_of_not_object below fun ⟨ms, h⟩ => hv ms h

theorem integer_restores {expected : String} {low high : Int} {n : Nat}
    (hlow : -(Bounds.half64 : Int) ≤ low) (hhigh : high < Bounds.word64) (hge : low ≤ n)
    (hle : (n : Int) ≤ high) :
    (integer expected low high).Restores 0 (.number (.integer n)) n where
  read {d level g rest} _ hg hr :=
    (integer_read_eq_ok_iff hlow hhigh).2 ⟨g, _, hg, denotes_toString n, rfl, hr, hge, hle⟩
  ofValue {below} _ := by
    rw [overlay_plain below rfl fun _ h => by cases h]
    exact intOf_eq_ok_iff.2 ⟨rfl, hge, hle⟩

theorem word16_restores (n : UInt16) : word16.Restores 0 (.number (.integer n.toNat)) n := by
  have hle : (n.toNat : Int) ≤ Bounds.word16 - 1 := by
    have hlt : n.toNat < Bounds.word16 := n.toNat_lt
    omega
  have h : word16.Restores 0 (.number (.integer n.toNat)) (n.toNat : Int).toNat.toUInt16 :=
    (integer_restores (by decide) (by decide) (Int.natCast_nonneg _) hle).map _
  have hback : (n.toNat : Int).toNat.toUInt16 = n := UInt16.ofNat_toNat
  rwa [hback] at h

theorem word64_restores (n : UInt64) : word64.Restores 0 (.number (.integer n.toNat)) n ∧
    size64.Restores 0 (.number (.integer n.toNat)) n := by
  have hle : (n.toNat : Int) ≤ Bounds.word64 - 1 := by
    have hlt : n.toNat < Bounds.word64 := n.toNat_lt
    omega
  have h : ∀ expected, ((integer expected 0 (Bounds.word64 - 1)).map
      fun i => i.toNat.toUInt64).Restores 0 (.number (.integer n.toNat)) n := by
    intro expected
    have hint : (integer expected 0 (Bounds.word64 - 1)).Restores 0
        (.number (.integer n.toNat)) n.toNat :=
      integer_restores (by decide) (by decide) (Int.natCast_nonneg _) hle
    have hback : (n.toNat : Int).toNat.toUInt64 = n := UInt64.ofNat_toNat
    have hmap := hint.map fun i => i.toNat.toUInt64
    rwa [hback] at hmap
  exact ⟨h "u64", h "usize"⟩

theorem string_append (level : Nat) (s : String) (rest : Bytes) :
    bytes (indented level (.string s)) ++ rest = 34 :: (escaped s ++ 34 :: rest) := by
  show bytes (quote s) ++ rest = _
  rw [bytes_quote]
  simp

theorem text_restores (s : String) : text.Restores 0 (.string s) s where
  read {d level g rest} _ hg _ := by
    have hname : scanString (escaped s ++ 34 :: rest) = .ok (s, rest) :=
      scanString_eq_ok_iff.2 ⟨_, spells_escaped s, rfl⟩
    rw [string_append]
    simp only [text, skipBlank_gap_cons hg (b := 34) rfl, if_true, hname]
  ofValue {below} _ := by
    rw [overlay_plain below rfl fun _ h => by cases h]
    rfl

theorem boolean_restores (b : Bool) : boolean.Restores 0 (.bool b) b where
  read {d level g rest} _ hg _ := by
    cases b with
    | true =>
      have hword : bytes (indented level (.bool true)) ++ rest = 116 :: (trueTail ++ rest) := rfl
      rw [hword]
      simp only [boolean, skipBlank_gap_cons hg (b := 116) rfl, if_true, scanWord_append]
      rfl
    | false =>
      have hword : bytes (indented level (.bool false)) ++ rest = 102 :: (falseTail ++ rest) := rfl
      rw [hword]
      simp only [boolean, skipBlank_gap_cons hg (b := 102) rfl, scanWord_append]
      rfl
  ofValue {below} _ := by
    rw [overlay_plain below rfl fun _ h => by cases h]
    rfl

/-- A string is read as a value that it is. -/
theorem anything_restores (s : String) : anything.Restores 0 (.string s) (.string s) where
  read _ hg hr := complete_readValue _ _ ((plainly_quote s).depicts _) hg hr
  ofValue {below} _ := by
    rw [overlay_plain below rfl fun _ h => by cases h]
    rfl

theorem choice_restores {choices : Choices α} {name : String} {a : α}
    (h : choices.find name = .ok a) : (choice choices).Restores 0 (.string name) a where
  read {d level g rest} _ hg _ := by
    have hname : scanString (escaped name ++ 34 :: rest) = .ok (name, rest) :=
      scanString_eq_ok_iff.2 ⟨_, spells_escaped name, rfl⟩
    rw [string_append]
    simp only [choice, skipBlank_gap_cons hg (b := 34) rfl, readChoiceName,
      skipBlank_cons (b := 34) rfl, hname, h]
    rfl
  ofValue {below} _ := by
    rw [overlay_plain below rfl fun _ h => by cases h]
    exact h

theorem optional_restores_none (c : Codec α) : (optional c).Restores 0 .null none where
  read {d level g rest} _ hg _ := by
    have hword : bytes (indented level .null) ++ rest = 110 :: (nullTail ++ rest) := rfl
    rw [hword]
    simp only [optional, skipBlank_gap_cons hg (b := 110) rfl, if_true, scanWord_append]
    rfl
  ofValue {below} _ := by
    rw [overlay_plain below rfl fun _ h => by cases h]
    rfl

theorem optional_restores_some {c : Codec α} {s : String} {a : α}
    (h : c.Restores depth (.string s) a) : (optional c).Restores depth (.string s) (some a) where
  read {d level g rest} hd hg hr := by
    have hread : c.read d ([] ++ (bytes (indented level (.string s)) ++ rest)) = .ok (a, rest) :=
      h.read hd gap_nil hr
    rw [List.nil_append, string_append] at hread
    rw [string_append]
    simp only [optional, skipBlank_gap_cons hg (b := 34) rfl, hread]
    rfl
  ofValue {below} hbelow := by
    have hof := h.ofValue hbelow
    rw [overlay_plain below rfl fun _ h => by cases h] at hof ⊢
    show (c.ofValue _).map some = _
    rw [hof]
    rfl

/-! ## Records -/

namespace Record

variable {r : Record σ} {start e : σ} {ms ms' : Members}

/-- A member that a field of the record is named like. -/
def known (r : Record σ) (m : String × Value) : Bool :=
  (r.fields.find? (·.name == m.1)).isSome

/-- A record sees the members that it knows, and no others. -/
theorem takeMembers_known (ms : Members) (start : σ) :
    r.takeMembers ms start = r.takeMembers (ms.filter r.known) start := by
  induction ms generalizing start with
  | nil => rfl
  | cons m ms ih =>
    obtain ⟨k, v⟩ := m
    rw [takeMembers, List.filter_cons]
    cases hf : r.fields.find? (·.name == k) with
    | none =>
      have hknown : ¬ r.known (k, v) = true := by
        show ¬ (r.fields.find? (·.name == k)).isSome = true
        rw [hf]
        exact Bool.false_ne_true
      rw [if_neg hknown, ih]
    | some f =>
      have hknown : r.known (k, v) = true := by
        show (r.fields.find? (·.name == k)).isSome = true
        rw [hf]
        rfl
      rw [if_pos hknown, takeMembers, hf]
      dsimp only
      cases f.ofValue start v with
      | error c => rfl
      | ok s => exact ih s

/-- By rising name, members that a record finds the same are taken the same. -/
theorem takeMembers_congr (h : ms.Pairwise fun a b => a.1 < b.1)
    (h' : ms'.Pairwise fun a b => a.1 < b.1)
    (hsame : ∀ f ∈ r.fields, ms.find? f.name = ms'.find? f.name) :
    r.takeMembers ms start = r.takeMembers ms' start := by
  have member : ∀ m, m ∈ ms.filter r.known ↔ m ∈ ms'.filter r.known := by
    intro m
    rw [List.mem_filter, List.mem_filter, Members.mem_iff_find? h, Members.mem_iff_find? h']
    refine and_congr_left fun hm => ?_
    obtain ⟨f, hf⟩ := Option.isSome_iff_exists.1 hm
    have hbeq := List.find?_some hf
    have hname : f.name = m.1 := eq_of_beq hbeq
    rw [← hname, hsame f (List.mem_of_find?_eq_some hf)]
  rw [takeMembers_known ms, takeMembers_known ms',
    Members.eq_of_mem_iff (h.filter r.known) (h'.filter r.known) member]

/-- Members that are laid over others, each taken by its field. -/
theorem takeMembers_overlay {below : String → Value} (hbelow : ∀ key, (below key).Tidy)
    (h : Admits (r.Restores depth) ms start e) :
    r.takeMembers (ms.map fun m => (m.1, (below m.1).overlay m.2.sorted)) start = (e, none) := by
  induction ms generalizing start with
  | nil =>
    rw [(h : e = start)]
    rfl
  | cons m ms ih =>
    obtain ⟨s, hs, hrest⟩ := h
    obtain ⟨f, hf, hfield⟩ := hs
    rw [List.map_cons, takeMembers, hf]
    dsimp only
    rw [hfield.ofValue (hbelow m.1)]
    exact ih hrest

/-- An object over anything is taken as a record, if its members by rising name make one. -/
theorem ofValue_overlay {below : Value} (hr : r.required = false) (hbelow : below.Tidy)
    (hsorted : (Value.object ms).sorted = .object (ms'.map fun m => (m.1, m.2.sorted)))
    (hrising : ms'.Pairwise fun a b => a.1 < b.1) (hall : ∀ f ∈ r.fields, f.name ∈ ms'.map (·.1))
    (h : Admits (r.Restores depth) ms' start e) :
    (r.codec start).ofValue (below.overlay (Value.object ms).sorted) = .ok e := by
  let under : String → Value := fun key => (Members.find? below.membersOf key).getD .null
  have hunder : ∀ key, (under key).Tidy := by
    intro key
    show ((Members.find? below.membersOf key).getD .null).Tidy
    cases hfind : Members.find? below.membersOf key with
    | none => exact .null
    | some old => exact hbelow.membersOf.member hfind
  have rising : ∀ f : String → Value → Value,
      (ms'.map fun m => (m.1, f m.1 m.2)).Pairwise fun a b => a.1 < b.1 :=
    fun f => List.pairwise_map.2 hrising
  obtain ⟨all, hover, hsort, hfind⟩ := Value.overlay_object hbelow (rising fun _ v => v.sorted)
  have hsame : ∀ f ∈ r.fields, all.find? f.name =
      Members.find? (ms'.map fun m => (m.1, (under m.1).overlay m.2.sorted)) f.name := by
    intro f hf
    rw [hfind, Members.find?_map ms' fun _ v => v.sorted,
      Members.find?_map ms' fun key v => (under key).overlay v.sorted]
    cases hv : Members.find? ms' f.name with
    | none => exact absurd (hall f hf) (Members.find?_eq_none_iff.1 hv)
    | some v => rfl
  have htake : r.takeMembers all start = (e, none) := by
    rw [takeMembers_congr hsort (rising fun key v => (under key).overlay v.sorted) hsame]
    exact takeMembers_overlay hunder h
  have habsent : r.absent (all.map (·.1)) = none := by
    rw [absent, hr]
    rfl
  rw [hsorted, hover]
  simp only [codec, take, htake, habsent]
  rfl

/-- Names that come once each are all taken in. -/
theorem admits_filled {seen : List String} (hnames : (ms.map (·.1)).Nodup)
    (hseen : ∀ m ∈ ms, m.1 ∉ seen) (h : Admits (r.Restores depth) ms start e) :
    ∃ seen', Admits (fun (acc : Filled σ) m acc' => m.1 ∉ acc.seen ∧
      r.Restores depth acc.state m acc'.state ∧ acc'.seen = m.1 :: acc.seen) ms
      ⟨seen, start⟩ ⟨seen', e⟩ := by
  induction ms generalizing seen start with
  | nil => exact ⟨seen, by rw [(h : e = start)]; rfl⟩
  | cons m ms ih =>
    obtain ⟨s, hs, hrest⟩ := h
    obtain ⟨hm, hms⟩ := List.nodup_cons.1 hnames
    have hlater : ∀ x ∈ ms, x.1 ∉ m.1 :: seen := by
      intro x hx hmem
      rcases List.mem_cons.1 hmem with heq | hmem
      · exact hm (List.mem_map.2 ⟨x, hx, heq⟩)
      · exact hseen x (List.mem_cons_of_mem m hx) hmem
    obtain ⟨seen', hadmits⟩ := ih hms hlater hrest
    exact ⟨seen', ⟨m.1 :: seen, s⟩, ⟨hseen m List.mem_cons_self, hs, rfl⟩, hadmits⟩

/-- A member whose name is new is read by its field. -/
theorem readMember_restores {acc : Filled σ} {m : String × Value} {d level : Nat}
    {g₁ g₂ : Bytes} (hnew : m.1 ∉ acc.seen) (hm : r.Restores depth acc.state m e) (hd : depth ≤ d)
    (hg₁ : Gap g₁) (hg₂ : Gap g₂) (hr : Ends rest) :
    r.readMember d acc m.1 (g₁ ++ 58 :: (g₂ ++ (bytes (indented level m.2) ++ rest))) =
      .ok (⟨m.1 :: acc.seen, e⟩, rest) := by
  obtain ⟨f, hf, hfield⟩ := hm
  have hseen : ¬ acc.seen.contains m.1 = true := fun hc => hnew (List.contains_iff_mem.1 hc)
  rw [readMember, hf]
  dsimp only
  rw [if_neg hseen, scanColon_append hg₁]
  dsimp only
  rw [hfield.read hd hg₂ hr]
  rfl

/-- What is written of an object is read as a record, if its members in their order make one. -/
theorem read_written (hr : r.required = false) (hne : ms ≠ []) (hnames : (ms.map (·.1)).Nodup)
    (h : Admits (r.Restores depth) ms start e) {d level : Nat} {g : Bytes} (hd : depth < d)
    (hg : Gap g) :
    (r.codec start).read d (g ++ (bytes (indented level (.object ms)) ++ rest)) = .ok (e, rest) := by
  obtain ⟨d, rfl⟩ := Nat.exists_eq_add_one.2 (Nat.zero_lt_of_lt hd)
  obtain ⟨seen, hadmits⟩ := admits_filled hnames (fun _ _ => List.not_mem_nil) h
  have hstep : ∀ {acc : Filled σ} {m : String × Value} {acc' : Filled σ} {t g₁ g₂ rest : Bytes},
      (m.1 ∉ acc.seen ∧ r.Restores depth acc.state m acc'.state ∧ acc'.seen = m.1 :: acc.seen) →
      t = bytes (indented (level + 1) m.2) → Gap g₁ → Gap g₂ → Ends rest →
      r.readMember d acc m.1 (g₁ ++ 58 :: (g₂ ++ (t ++ rest))) = .ok (acc', rest) := by
    rintro acc m ⟨_, s⟩ t g₁ g₂ rest ⟨hseen, hm, rfl⟩ rfl hg₁ hg₂ hr
    exact readMember_restores hseen hm (Nat.le_of_lt_succ hd) hg₁ hg₂ hr
  have hself : ms.map (fun m => (m.1, m.2)) = ms := List.map_id' ms
  have hbody : Body (Entry Prod.fst fun m t => t = bytes (indented (level + 1) m.2)) ms
      (bytes (indentedMembers (level + 1) ms) ++ bytes (newLine level)) := by
    have hlines : Body (Entry Prod.fst fun m t => t = bytes (indented (level + 1) m.2))
        (ms.map fun m => (m.1, m.2))
        (bytes (indentedMembers (level + 1) ms) ++ bytes (newLine level)) :=
      body_indentedMembers (f := fun v => v) hne fun _ _ => rfl
    rwa [hself] at hlines
  rw [bytes_object level hne]
  generalize bytes (indentedMembers (level + 1) ms) ++ bytes (newLine level) = body at hbody ⊢
  have hfold : foldMembers (r.readMember d) ((body ++ 125 :: rest).length + 1) true ⟨[], start⟩
      (body ++ 125 :: rest) = .ok (⟨seen, e⟩, rest) :=
    foldMembers_body @hstep hbody hadmits (hbody.lt_fuel 125 rest)
  have habsent : r.absent seen = none := by
    rw [absent, hr]
    rfl
  show r.read start (d + 1) _ = _
  rw [List.cons_append, List.append_assoc, List.singleton_append, read_object hg, readMembers,
    hfold]
  dsimp only
  rw [habsent]

/-- **A record restores what its members make**, in the order in which they are written as well as by
rising name. -/
theorem restores (names : List String) (hr : r.required = false) (hne : ms ≠ [])
    (hdeclared : ms.map (·.1) = r.fields.map (·.name)) (hnodup : (r.fields.map (·.name)).Nodup)
    (hsorted : (Value.object ms).sorted = .object (ms'.map fun m => (m.1, m.2.sorted)))
    (hnames : ms'.map (·.1) = names) (hrising : names.Pairwise (· < ·))
    (hall : ∀ name ∈ r.fields.map (·.name), name ∈ names)
    (h : Admits (r.Restores depth) ms start e) (h' : Admits (r.Restores depth) ms' start e) :
    (r.codec start).Restores (depth + 1) (.object ms) e where
  read hd hg _ := read_written hr hne (hdeclared ▸ hnodup) h hd hg
  ofValue hbelow := by
    have hpairs : ms'.Pairwise fun a b => a.1 < b.1 := List.pairwise_map.1 (hnames ▸ hrising)
    refine ofValue_overlay hr hbelow hsorted hpairs (fun f hf => ?_) h'
    rw [hnames]
    exact hall f.name (List.mem_map_of_mem hf)

end Record

end Switchboard.Json
