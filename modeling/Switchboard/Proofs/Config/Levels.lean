import Switchboard.Config.Document
import Switchboard.Proofs.Json.Alone
import Switchboard.Proofs.Json.Meanings

/-!
# A level that costs nothing else

What a section on logs has for its level does not matter to the rest of it, which is read as if
nothing was there: it is refused as before, or it is the same section with the level that the value
names, and with a notice if it names none and is not null.  That holds of the section as a value and
as a text.  It fails of values in which an object begins with `rawName`, and of texts in which a
numeral is beyond the doubles or too many brackets are inside each other.  A level that stands by
itself is read from the same values.

    reread v = ok v → take (before ++ ("level", v) :: after) = relevel v (take (before ++ after))
    before ++ after makes r ↔ before ++ ⟨"level", t⟩ :: after makes relevel v r
    t says v → (parseLevel t = ok l ↔ Names v l)
-/

namespace Switchboard

/-! ## Members -/

namespace Json.Record

variable {σ : Type} {r : Record σ}

theorem takeMembers_append (ms ms' : Members) (start : σ) : r.takeMembers (ms ++ ms') start =
    match r.takeMembers ms start with
    | (st, none) => r.takeMembers ms' st
    | (st, some c) => (st, some c) := by
  induction ms generalizing start with
  | nil => rfl
  | cons m ms ih =>
    obtain ⟨name, v⟩ := m
    rw [List.cons_append, takeMembers, takeMembers]
    cases r.fields.find? (·.name == name) with
    | none => exact ih start
    | some f =>
      dsimp only
      cases f.ofValue start v with
      | ok st => exact ih st
      | error c => rfl

/-- What the fields of the members leave alone is the same before and after them. -/
theorem takeMembers_map {g : σ → σ} {ms : Members}
    (h : ∀ m ∈ ms, ∀ f ∈ r.fields, f.name = m.1 → ∀ acc v,
      f.ofValue (g acc) v = (f.ofValue acc v).map g) (start : σ) :
    r.takeMembers ms (g start) = (r.takeMembers ms start).map g id := by
  induction ms generalizing start with
  | nil => rfl
  | cons m ms ih =>
    obtain ⟨hm, hms⟩ := List.forall_mem_cons.1 h
    obtain ⟨name, v⟩ := m
    rw [takeMembers, takeMembers]
    cases hf : r.fields.find? (·.name == name) with
    | none => exact ih hms start
    | some f =>
      have hbeq := List.find?_some hf
      dsimp only
      rw [hm f (List.mem_of_find?_eq_some hf) (eq_of_beq hbeq)]
      cases f.ofValue start v with
      | ok st => exact ih hms st
      | error c => rfl

end Json.Record

namespace Config

open Json

/-! ## Specification -/

/-- The value is a text that names the level. -/
def Names (v : Value) (l : Level) : Prop := ∃ s, v = .string s ∧ Level.ofText s = .ok l

/-- The section `d'` is the section `d`, which has no level, but for a level that is written as `v`:
it has the one that is named, and notes a value that names none unless that is null. -/
structure Leveled (v : Value) (d d' : Draft LogSettings) : Prop where
  bare : d.settings.level = none ∧ d.notices = []
  others : { d'.settings with level := none } = d.settings
  level : ∀ l, d'.settings.level = some l ↔ Names v l
  noted : (∃ n, d'.notices = [n]) ↔ v ≠ .null ∧ ∀ l, ¬ Names v l
  silent : d'.notices = [] ↔ v = .null ∨ ∃ l, Names v l

/-- A section is read without a level and with `v` for one: both are refused, or they are alike. -/
inductive Alike {ε : Type} (v : Value) :
    Except ε (Draft LogSettings) → Except ε (Draft LogSettings) → Prop
  | refused (c c' : ε) : Alike v (.error c) (.error c')
  | read {d d' : Draft LogSettings} (h : Leveled v d d') : Alike v (.ok d) (.ok d')

/-- No object in the value has `rawName` for its first name. -/
inductive Unmarked : Value → Prop
  | null : Unmarked .null
  | bool (b : Bool) : Unmarked (.bool b)
  | number (n : Number) : Unmarked (.number n)
  | string (t : String) : Unmarked (.string t)
  | array {vs : List Value} (h : ∀ v ∈ vs, Unmarked v) : Unmarked (.array vs)
  | object {ms : Members} (hms : Unquoted ms) (h : ∀ m ∈ ms, Unmarked m.2) : Unmarked (.object ms)

/-- What numerals stand for, where no text stands for a value. -/
def literally (N : Bytes → Number → Prop) : Sense := ⟨N, fun _ _ => False⟩

/-! ## Levels -/

variable {v : Value} {l : Level} {r : RawLog}

theorem levelOf_eq_ok_iff : levelOf (some v) = .ok (some l) ↔ Names v l := by
  cases v with
  | string s =>
    simp only [levelOf]
    constructor
    · intro h
      split at h
      · next hs =>
        cases h
        exact ⟨s, rfl, hs⟩
      · cases h
    · rintro ⟨s', heq, hs'⟩
      cases heq
      rw [hs']
  | _ => exact ⟨fun h => (by cases h), fun ⟨_, h, _⟩ => (by cases h)⟩

theorem levelOf_eq_none_iff : levelOf (some v) = .ok none ↔ v = .null := by
  cases v with
  | null => exact ⟨fun _ => rfl, fun _ => rfl⟩
  | string s =>
    refine ⟨fun h => ?_, fun h => by cases h⟩
    simp only [levelOf] at h
    split at h <;> cases h
  | _ => exact ⟨fun h => (by cases h), fun h => (by cases h)⟩

/-! ## Values that are read over again -/

theorem rereadItems_eq {vs : List Value} (h : ∀ v ∈ vs, reread v = .ok v) :
    rereadItems vs = .ok vs := by
  induction vs with
  | nil => rfl
  | cons v vs ih =>
    obtain ⟨hv, hvs⟩ := List.forall_mem_cons.1 h
    rw [rereadItems, hv, ih hvs]
    rfl

theorem rereadMembers_eq {ms : Members} (h : ∀ m ∈ ms, reread m.2 = .ok m.2) :
    rereadMembers ms = .ok ms := by
  induction ms with
  | nil => rfl
  | cons m ms ih =>
    obtain ⟨hm, hms⟩ := List.forall_mem_cons.1 h
    obtain ⟨name, v⟩ := m
    rw [rereadMembers, hm, ih hms]
    rfl

theorem rawMember?_eq_none {ms : Members} (h : Unquoted ms) : rawMember? ms = none := by
  cases ms with
  | nil => rfl
  | cons m ms => exact if_neg (h m rfl)

/-- **A value that is not marked is read as it is.** -/
theorem reread_of_unmarked (h : Unmarked v) : reread v = .ok v := by
  induction h with
  | null | bool | number | string => simp only [reread]
  | array _ ih =>
    rw [reread, rereadItems_eq ih]
    rfl
  | object hms _ ih =>
    rw [reread, rawMember?_eq_none hms, rereadMembers_eq ih]
    rfl

/-! ## The rest of the section -/

/-- The section with nothing but `o` for a level. -/
def RawLog.relevel (o : Option Value) (r : RawLog) : RawLog :=
  ⟨{ r.settings with level := none }, o⟩

theorem relevel_update {f : LogSettings → LogSettings}
    (h : ∀ c : LogSettings, f { c with level := none } = { f c with level := none })
    (o : Option Value) (r : RawLog) :
    (r.relevel o).update f = (r.update f).relevel o :=
  congrArg (RawLog.mk · o) (h r.settings)

/-- What the field reads is the same with `o` for a level. -/
def Blind (o : Option Value) (f : Json.Field RawLog) : Prop :=
  ∀ acc : RawLog, (∀ v, f.ofValue (acc.relevel o) v = (f.ofValue acc v).map (RawLog.relevel o)) ∧
    ∀ depth s, f.read depth (acc.relevel o) s =
      (f.read depth acc s).map fun (b, r) => (b.relevel o, r)

/-- No field but that of the level sees it. -/
theorem blind_of_mem (o : Option Value) : ∀ f ∈ logRecord.fields, f.name ≠ "level" → Blind o f := by
  simp only [logRecord, List.forall_mem_cons]
  have other : ∀ {α : Type} (name : String) (c : Codec α) (set : α → LogSettings → LogSettings),
      (∀ a c, set a { c with level := none } = { set a c with level := none }) →
      (Json.Field.of name c fun a => RawLog.update (set a)).name ≠ "level" →
        Blind o (.of name c fun a => RawLog.update (set a)) :=
    fun _ _ _ h _ => Json.Field.of_map fun a => relevel_update (h a) o
  exact ⟨other _ _ _ fun _ _ => rfl, other _ _ _ fun _ _ => rfl, other _ _ _ fun _ _ => rfl,
    fun h => absurd rfl h, other _ _ _ fun _ _ => rfl, other _ _ _ fun _ _ => rfl,
    fun _ hf => absurd hf List.not_mem_nil⟩

variable {ms : Members}

/-- Members of which none is a level are taken the same whatever level there is. -/
theorem takeMembers_relevel (h : "level" ∉ ms.map (·.1)) (o : Option Value) (r : RawLog) :
    logRecord.takeMembers ms (r.relevel o) =
      (logRecord.takeMembers ms r).map (RawLog.relevel o) id := by
  refine Record.takeMembers_map (fun m hm f hf hname => ?_) r
  refine fun acc => (blind_of_mem o f hf (fun hlevel => h ?_) acc).1
  rw [← hlevel, hname]
  exact List.mem_map_of_mem hm

/-- The member for the level puts its value in its place, and null as if it was not there. -/
theorem takeMembers_level (hv : reread v = .ok v) : ∃ o, levelOf o = levelOf (some v) ∧
    ∀ (ms : Members) (r : RawLog), logRecord.takeMembers (("level", v) :: ms) (r.relevel none) =
      logRecord.takeMembers ms (r.relevel o) := by
  have hvalue : ∃ o, levelOf o = levelOf (some v) ∧ (optional anything).ofValue v = .ok o := by
    cases v with
    | null => exact ⟨none, rfl, rfl⟩
    | _ => exact ⟨some _, rfl, congrArg (Except.map some) hv⟩
  obtain ⟨o, ho, hof⟩ := hvalue
  refine ⟨o, ho, fun ms r => ?_⟩
  have hfind : logRecord.fields.find? (·.name == "level") =
      some (.of "level" (optional anything) fun v r => { r with level := v }) := rfl
  have hput : (Json.Field.of "level" (optional anything)
      fun v (r : RawLog) => { r with level := v }).ofValue (r.relevel none) v =
        .ok (r.relevel o) := congrArg (Except.map _) hof
  rw [Record.takeMembers, hfind]
  dsimp only
  rw [hput]

/-- **A level leaves the rest as it was**, up to the same fault if there is one. -/
theorem takeMembers_with_level {before after : Members} (hbefore : "level" ∉ before.map (·.1))
    (hafter : "level" ∉ after.map (·.1)) (hv : reread v = .ok v) :
    ∃ o, levelOf o = levelOf (some v) ∧ ∃ (st : RawLog) (c : Option Cause),
      logRecord.takeMembers (before ++ after) {} = (st.relevel none, c) ∧
        ((logRecord.takeMembers (before ++ ("level", v) :: after) {}).2 = c) ∧
          (c = none →
            (logRecord.takeMembers (before ++ ("level", v) :: after) {}).1 = st.relevel o) := by
  have hstart : ({} : RawLog) = RawLog.relevel none {} := rfl
  obtain ⟨o, ho, hlevel⟩ := takeMembers_level hv
  refine ⟨o, ho, ?_⟩
  rw [hstart, Record.takeMembers_append, Record.takeMembers_append, takeMembers_relevel hbefore]
  obtain ⟨st, c⟩ := logRecord.takeMembers before {}
  cases c with
  | some c => exact ⟨st, some c, rfl, rfl, fun h => by cases h⟩
  | none =>
    dsimp only [Prod.map, id]
    rw [hlevel, takeMembers_relevel hafter, takeMembers_relevel hafter]
    exact ⟨_, _, rfl, rfl, fun _ => rfl⟩

theorem finish_relevel (o : Option Value) (r : RawLog) : (r.relevel o).finish =
    match levelOf o with
    | .ok l => ⟨{ r.settings with level := l }, []⟩
    | .error n => ⟨{ r.settings with level := none }, [n]⟩ := by
  rfl

/-- The same section with and without a level. -/
theorem leveled_finish {o : Option Value} (ho : levelOf o = levelOf (some v)) (r : RawLog) :
    Leveled v (r.relevel none).finish (r.relevel o).finish := by
  have hok := fun l => levelOf_eq_ok_iff (v := v) (l := l)
  have hnone := levelOf_eq_none_iff (v := v)
  rw [finish_relevel, finish_relevel, ho]
  cases hv : levelOf (some v) with
  | error n =>
    have hnull : v ≠ .null := fun h => by
      rw [hnone.2 h] at hv
      cases hv
    have hnames : ∀ l, ¬ Names v l := fun l h => by
      rw [(hok l).2 h] at hv
      cases hv
    exact ⟨⟨rfl, rfl⟩, rfl, fun l => ⟨fun h => (by cases h), fun h => absurd h (hnames l)⟩,
      ⟨fun _ => ⟨hnull, hnames⟩, fun _ => ⟨n, rfl⟩⟩,
      ⟨fun h => (by cases h), fun h => (h.elim hnull fun ⟨l, h⟩ => hnames l h).elim⟩⟩
  | ok o' =>
    have hsilent : v = .null ∨ ∃ l, Names v l := by
      cases o' with
      | none => exact .inl (hnone.1 hv)
      | some l => exact .inr ⟨l, (hok l).1 hv⟩
    refine ⟨⟨rfl, rfl⟩, rfl, fun l => ?_, ⟨fun ⟨_, h⟩ => (by cases h), fun h => ?_⟩,
      ⟨fun _ => hsilent, fun _ => rfl⟩⟩
    · rw [← hok l, hv]
      exact ⟨fun h => congrArg Except.ok h, fun h => Except.ok.inj h⟩
    · exact (hsilent.elim h.1 fun ⟨l, hl⟩ => h.2 l hl).elim

/-! ## The section as a text -/

/-- What the fields of the section read inside its braces. -/
abbrev logMakes : Json.Field RawLog → RawLog → Bytes → RawLog → Prop :=
  Json.Field.Makes (maxDepth - 1)

theorem logRecord_alone :
    ∀ f ∈ logRecord.fields, f.ReadsAt (maxDepth - 1) (Written Inside .value) (logMakes f) := by
  simp only [logRecord, List.forall_mem_cons]
  exact ⟨text_alone.field _ _, text_alone.field _ _, text_alone.field _ _,
    optional_anything_alone.field _ _, boolean_alone.field _ _, choice_alone.field _ _,
    fun _ hf => absurd hf List.not_mem_nil⟩

theorem parse_eq_ok_iff {ms : List Member} {b : Bytes} {d : Draft LogSettings}
    (h : ObjectText Inside ms b) :
    logCodec.parse b = .ok d ↔ ∃ r, logRecord.Makes logMakes {} ms r ∧ d = r.finish := by
  have hmakes : ∀ r, (logRecord.codec {}).parse b = .ok r ↔ logRecord.Makes logMakes {} ms r :=
    fun r => Record.parse_spelled (fun _ => id) logRecord_alone h
  rw [logCodec, Codec.parse_map]
  simp only [hmakes]

/-- Two sections as read so far, the same but with `o` and `o'` for a level. -/
structure Beside (o o' : Option Value) (F F' : Filled RawLog) : Prop where
  state : ∃ r : RawLog, F.state = r.relevel o ∧ F'.state = r.relevel o'
  seen : ∀ name, name ≠ "level" → (name ∈ F'.seen ↔ name ∈ F.seen)

variable {o o' : Option Value} {F F' G : Filled RawLog}

theorem Beside.symm (a : Beside o o' F F') : Beside o' o F' F :=
  ⟨a.state.imp fun _ h => h.symm, fun name h => (a.seen name h).symm⟩

theorem Beside.takes (a : Beside o o' F F') {m : Member} (hm : m.name ≠ "level")
    (h : logRecord.Takes logMakes F m G) :
    ∃ G', logRecord.Takes logMakes F' m G' ∧ Beside o o' G G' := by
  cases hf : logRecord.fields.find? (·.name == m.name) with
  | none =>
    obtain rfl := (Record.takes_unknown hf).1 h
    exact ⟨F', (Record.takes_unknown hf).2 rfl, a⟩
  | some f =>
    obtain ⟨hseen, st, hst, rfl⟩ := (Record.takes_known hf).1 h
    obtain ⟨r, hr, hr'⟩ := a.state
    have hname : f.name = m.name := by simpa using List.find?_some hf
    have hblind := fun p => blind_of_mem p f (List.mem_of_find?_eq_some hf) (hname ▸ hm) r
    -- the field reads the same of the section without its level
    have hread : ∃ x, f.read (maxDepth - 1) r m.value = .ok (x, []) ∧ st = x.relevel o := by
      rw [logMakes, Json.Field.Makes, hr, (hblind o).2] at hst
      obtain ⟨⟨x, rest⟩, hx, heq⟩ := exists_of_map_ok hst
      obtain ⟨rfl, rfl⟩ := Prod.mk.inj heq
      exact ⟨x, hx, rfl⟩
    obtain ⟨x, hx, rfl⟩ := hread
    have hother : logMakes f F'.state m.value (x.relevel o') := by
      rw [logMakes, Json.Field.Makes, hr', (hblind o').2, hx]
      rfl
    refine ⟨_, (Record.takes_known hf).2 ⟨mt (a.seen _ hm).1 hseen, _, hother, rfl⟩,
      ⟨x, rfl, rfl⟩, fun name hne => ?_⟩
    rw [List.mem_cons, List.mem_cons, a.seen name hne]

/-- **Members of which none is a level are read the same beside any level.** -/
theorem Beside.admits (a : Beside o o' F F') {ms : List Member} (hms : "level" ∉ ms.map (·.name))
    (h : Admits (logRecord.Takes logMakes) ms F G) :
    ∃ G', Admits (logRecord.Takes logMakes) ms F' G' ∧ Beside o o' G G' := by
  induction ms generalizing F F' with
  | nil => exact ⟨F', rfl, (h : G = F) ▸ a⟩
  | cons m ms ih =>
    rw [List.map_cons, List.mem_cons, not_or] at hms
    obtain ⟨c, hc, hrest⟩ := h
    obtain ⟨c', hc', hbeside⟩ := a.takes (Ne.symm hms.1) hc
    obtain ⟨G', hG', hlast⟩ := ih hbeside hms.2 hrest
    exact ⟨G', ⟨c', hc', hG'⟩, hlast⟩

/-- The section with `o` put in the place of its level. -/
def putLevel (o : Option Value) (F : Filled RawLog) : Filled RawLog :=
  ⟨"level" :: F.seen, { F.state with level := o }⟩

/-- A text that says a value is read as that, or as nothing if it is null. -/
theorem perhaps_of_depicts {t : Bytes} {depth : Nat} (hv : Depicts (senseOf document) depth v t) :
    ∃ o, levelOf o = levelOf (some v) ∧ Perhaps depth o t := by
  obtain ⟨b, r, rfl, -⟩ := hv.begins
  by_cases hb : b = 110
  · subst hb
    generalize heq : 110 :: r = t at hv
    have hplain : Plainly (senseOf document) v t :=
      heq ▸ plainly_of_depicts (heq ▸ hv) (by decide) (by decide)
    cases hplain with
    | null => exact ⟨none, rfl, .nothing⟩
    | number ht _ =>
      obtain ⟨c, s, hcons, hc, -⟩ := skipScalar_numeral ht ends_nil
      obtain rfl := (List.cons.inj (heq.trans hcons)).1
      exact absurd hc (by decide)
    | _ => cases heq
  · exact ⟨some v, rfl, .some hb hv⟩

/-- The member for the level puts its value in its place. -/
theorem takes_level {t : Bytes} (hv : Depicts (senseOf document) (maxDepth - 1) v t) :
    ∃ o, levelOf o = levelOf (some v) ∧ ∀ F G, "level" ∉ F.seen →
      (logRecord.Takes logMakes F ⟨"level", t⟩ G ↔ G = putLevel o F) := by
  obtain ⟨o, ho, hperhaps⟩ := perhaps_of_depicts hv
  have hread : (optional anything).read (maxDepth - 1) t = .ok (o, []) := by
    have halone := exact_optional_anything.complete hperhaps gap_nil ends_nil
    rwa [List.nil_append, List.append_nil] at halone
  refine ⟨o, ho, fun F G hseen => ?_⟩
  have hfind : logRecord.fields.find? (·.name == (Member.mk "level" t).name) =
      some (.of "level" (optional anything) fun v r => { r with level := v }) := rfl
  have hmakes : ∀ st, logMakes (.of "level" (optional anything) fun v r => { r with level := v })
      F.state t st ↔ st = { F.state with level := o } := by
    intro st
    show ((optional anything).read (maxDepth - 1) t).map _ = _ ↔ _
    rw [hread]
    exact ⟨fun h => (congrArg Prod.fst (Except.ok.inj h)).symm, fun h => h ▸ rfl⟩
  rw [Record.takes_known hfind]
  simp only [hmakes, exists_eq_left]
  exact and_iff_right hseen

/-- What is read up to the level is the same with it. -/
theorem beside_putLevel {ms : List Member} (hms : "level" ∉ ms.map (·.name))
    (h : Admits (logRecord.Takes logMakes) ms ⟨[], {}⟩ F) (o : Option Value) :
    "level" ∉ F.seen ∧ Beside none o F (putLevel o F) := by
  have hstart : Beside none none ⟨[], {}⟩ ⟨[], {}⟩ := ⟨⟨{}, rfl, rfl⟩, fun _ _ => Iff.rfl⟩
  obtain ⟨_, -, ⟨r, hr, -⟩, -⟩ := hstart.admits hms h
  refine ⟨Record.not_mem_seen h hms List.not_mem_nil, ⟨r, hr, ?_⟩, fun name hne => ?_⟩
  · rw [putLevel, hr]
    rfl
  · exact List.mem_cons.trans (or_iff_right hne)

/-- **A level leaves the rest of the text as it was.** -/
theorem makes_with_level {before after : List Member} {t : Bytes}
    (hbefore : "level" ∉ before.map (·.name)) (hafter : "level" ∉ after.map (·.name))
    (hv : Depicts (senseOf document) (maxDepth - 1) v t) :
    ∃ o, levelOf o = levelOf (some v) ∧
      (∀ e, logRecord.Makes logMakes {} (before ++ after) e → ∃ r : RawLog, e = r.relevel none ∧
        logRecord.Makes logMakes {} (before ++ ⟨"level", t⟩ :: after) (r.relevel o)) ∧
      ((∃ e, logRecord.Makes logMakes {} (before ++ ⟨"level", t⟩ :: after) e) →
        ∃ e, logRecord.Makes logMakes {} (before ++ after) e) := by
  obtain ⟨o, ho, hlevel⟩ := takes_level hv
  refine ⟨o, ho, ?_, ?_⟩
  · rintro e ⟨G, hG, -, rfl⟩
    obtain ⟨F, hF, hrest⟩ := Admits.append_iff.1 hG
    obtain ⟨hseen, hbeside⟩ := beside_putLevel hbefore hF o
    obtain ⟨G', hG', ⟨r, hr, hr'⟩, -⟩ := hbeside.admits hafter hrest
    refine ⟨r, hr, G', Admits.append_iff.2 ⟨F, hF, ?_⟩, rfl, hr'.symm⟩
    exact ⟨putLevel o F, (hlevel F _ hseen).2 rfl, hG'⟩
  · rintro ⟨e, G', hG', -, -⟩
    obtain ⟨F, hF, F', hF', hrest⟩ := Admits.append_iff.1 hG'
    obtain ⟨hseen, hbeside⟩ := beside_putLevel hbefore hF o
    obtain rfl := (hlevel F _ hseen).1 hF'
    obtain ⟨G, hG, -⟩ := hbeside.symm.admits hafter hrest
    exact ⟨G.state, G, Admits.append_iff.2 ⟨F, hF, hG⟩, rfl, rfl⟩

/-! ## A level by itself -/

variable {b t : Bytes}

/-- **A level by itself is a text in quotes that names it.** -/
theorem parseLevel_eq_ok_iff : parseLevel b = .ok l ↔
    ∃ g t g' name, Gap g ∧ InQuotes name t ∧ Gap g' ∧ b = g ++ (t ++ g') ∧
      Level.ofText name = .ok l := by
  unfold parseLevel
  constructor
  · intro h
    cases hread : text.read maxDepth b with
    | error f =>
      rw [hread] at h
      cases h
    | ok x =>
      obtain ⟨name, rest⟩ := x
      rw [hread] at h
      dsimp only at h
      split at h
      · cases h
      · next hlevel =>
        split at h
        · cases h
        · next hend =>
          cases h
          obtain ⟨g, t, hg, ht, rfl⟩ := text_read_eq_ok_iff.1 hread
          exact ⟨g, t, rest, name, hg, ht, scanEnd_eq_ok_iff.1 hend, rfl, hlevel⟩
  · rintro ⟨g, t, g', name, hg, ht, hg', rfl, hlevel⟩
    simp only [text_read_eq_ok_iff.2 ⟨g, t, hg, ht, rfl⟩, hlevel, scanEnd_eq_ok_iff.2 hg']

/-- A string is written in quotes, and nothing else is. -/
theorem inQuotes_iff {N : Bytes → Number → Prop} {depth : Nat} {name : String}
    (h : Depicts (literally N) depth v t) : InQuotes name t ↔ v = .string name := by
  constructor
  · rintro ⟨raw, hraw, rfl⟩
    have hplain := plainly_of_depicts h (by decide) (by decide)
    generalize heq : 34 :: (raw ++ [34]) = u at hplain
    cases hplain with
    | string hraw' =>
      obtain rfl := List.append_cancel_right (List.cons.inj heq).2
      rw [hraw.unique hraw']
    | number ht _ =>
      obtain ⟨c, s, hcons, hc, -⟩ := skipScalar_numeral ht ends_nil
      obtain rfl := (List.cons.inj (heq.trans hcons)).1
      exact absurd hc (by decide)
    | _ => cases heq
  · rintro rfl
    have hplain : Plainly (literally N) (.string name) t := by
      cases depth with
      | zero => exact h
      | succ depth =>
        obtain h | ⟨_, _, _, h, _⟩ | ⟨_, _, _, _, h, _⟩ | ⟨_, _, _, h, _⟩ := h
        · exact h
        · cases h
        · cases h
        · exact h.elim
    cases hplain with
    | string hraw => exact ⟨_, hraw, rfl⟩

/-- **Of a text by itself the level is read that its value names.** -/
theorem parseLevel_of_depicts {N : Bytes → Number → Prop} {depth : Nat} {g g' : Bytes} (hg : Gap g)
    (h : Depicts (literally N) depth v t) (hg' : Gap g') :
    parseLevel (g ++ (t ++ g')) = .ok l ↔ Names v l := by
  rw [parseLevel_eq_ok_iff]
  constructor
  · rintro ⟨g₁, t₁, g₁', name, hg₁, ht₁, hg₁', heq, hlevel⟩
    -- both values begin where the blanks end, and go on to the end of themselves
    have hskip := ht₁.written.1.skipBlank_value hg₁ g₁'
    rw [← heq, h.written.skipBlank_value hg g'] at hskip
    obtain ⟨rfl, -⟩ := h.written.unique (fun _ => id) ht₁.written.1 (ends_of_gap hg')
      (ends_of_gap hg₁') hskip
    exact ⟨name, (inQuotes_iff h).1 ht₁, hlevel⟩
  · rintro ⟨name, rfl, hlevel⟩
    exact ⟨g, t, g', name, hg, (inQuotes_iff h).2 rfl, hg', rfl, hlevel⟩

/-! ## Values of one kind -/

/-- Values of one kind name the same levels, and are null or not. -/
theorem names_of_resembles {w : Value} (h : Resembles v w) :
    (v = .null ↔ w = .null) ∧ ∀ l, Names v l ↔ Names w l := by
  cases h with
  | same => exact ⟨Iff.rfl, fun _ => Iff.rfl⟩
  | _ =>
    refine ⟨⟨nofun, nofun⟩, fun l => iff_of_false ?_ ?_⟩ <;>
    · rintro ⟨s, h, -⟩
      cases h

theorem Alike.of_resembles {ε : Type} {w : Value} {x y : Except ε (Draft LogSettings)}
    (h : Alike w x y) (hv : Resembles v w) : Alike v x y := by
  obtain ⟨hnull, hnames⟩ := names_of_resembles hv
  cases h with
  | refused c c' => exact .refused c c'
  | read h =>
    refine .read ⟨h.bare, h.others, fun l => ?_, ?_, ?_⟩
    · rw [h.level, hnames]
    · rw [h.noted]
      simp only [hnames, ne_eq, hnull]
    · rw [h.silent]
      simp only [hnames, hnull]

/-- A text whose numerals are within the doubles is read as a value of the kind that it says. -/
theorem exists_depicts (hv : Depicts (literally Held) (maxDepth - 1) v t) :
    ∃ w, Depicts (senseOf document) (maxDepth - 1) w t ∧ Resembles v w := by
  have hcovers : (literally Held).Covers (literally Scanned) :=
    ⟨fun _ _ hn => scanNumber_of_moderate hn.2, fun _ _ h => h.elim⟩
  obtain ⟨w, hw, hkind⟩ := hv.choose hcovers
  exact ⟨w, hw.mono ⟨fun _ _ => id, fun _ _ _ h => h.elim⟩, hkind⟩

/-! ## Top theorem -/

theorem logCodec_ofValue (ms : Members) : logCodec.ofValue (.object ms) =
    match logRecord.takeMembers ms {} with
    | (st, none) => .ok st.finish
    | (_, some c) => .error c := by
  have habsent : logRecord.absent (ms.map (·.1)) = none := rfl
  show ((logRecord.codec {}).ofValue (.object ms)).map RawLog.finish = _
  simp only [Record.codec, Record.take, habsent, Option.map_none]
  cases logRecord.takeMembers ms {} with
  | mk st c => cases c <;> rfl

theorem alike_ofValue {before after : Members} (hbefore : "level" ∉ before.map (·.1))
    (hafter : "level" ∉ after.map (·.1)) (hv : reread v = .ok v) :
    Alike v (logCodec.ofValue (.object (before ++ after)))
        (logCodec.ofValue (.object (before ++ ("level", v) :: after))) ∧
      ∀ c, logCodec.ofValue (.object (before ++ after)) = .error c →
        logCodec.ofValue (.object (before ++ ("level", v) :: after)) = .error c := by
  obtain ⟨o, ho, st, c, hbare, hcause, hstate⟩ := takeMembers_with_level hbefore hafter hv
  rw [logCodec_ofValue, logCodec_ofValue, hbare]
  generalize logRecord.takeMembers (before ++ ("level", v) :: after) {} = taken at hcause hstate ⊢
  obtain ⟨st', c'⟩ := taken
  obtain rfl : c' = c := hcause
  cases c' with
  | some c => exact ⟨.refused c c, fun _ h => h⟩
  | none =>
    obtain rfl : st' = st.relevel o := hstate rfl
    exact ⟨.read (leveled_finish ho st), fun _ h => by cases h⟩

theorem alike_parse {before after : List Member} {t b b' : Bytes}
    (hbefore : "level" ∉ before.map (·.name)) (hafter : "level" ∉ after.map (·.name))
    (hv : Depicts (senseOf document) (maxDepth - 1) v t) (hb : ObjectText Inside (before ++ after) b)
    (hb' : ObjectText Inside (before ++ ⟨"level", t⟩ :: after) b') :
    Alike v (logCodec.parse b) (logCodec.parse b') := by
  obtain ⟨o, ho, hon, hback⟩ := makes_with_level hbefore hafter hv
  cases hx : logCodec.parse b with
  | ok d =>
    obtain ⟨e, he, rfl⟩ := (parse_eq_ok_iff hb).1 hx
    obtain ⟨r, rfl, hr⟩ := hon e he
    rw [(parse_eq_ok_iff hb').2 ⟨_, hr, rfl⟩]
    exact .read (leveled_finish ho r)
  | error c =>
    cases hx' : logCodec.parse b' with
    | error c' => exact .refused c c'
    | ok d' =>
      -- what is read with the level would have been read without it
      obtain ⟨e', he', -⟩ := (parse_eq_ok_iff hb').1 hx'
      obtain ⟨e, he⟩ := hback ⟨e', he'⟩
      have hok := (parse_eq_ok_iff hb).2 ⟨e, he, rfl⟩
      rw [hx] at hok
      cases hok

/-- **No level costs the rest of the section**, unless an object in it begins with `rawName`, a
numeral in its text is beyond the doubles, or its brackets are too many.  An object that has no level
is read as a section on logs, and so it is with any value for its level, wherever that stands.  Either
both are refused, as a value for the same cause, or both are sections that agree but for the level,
which is the one that the value names; a notice is given if it names none and is not null.  That holds
of objects as values and of their texts.  The levels that are named are those that are read of the
value by itself. -/
theorem level_costs_nothing (v : Value) :
    (Unmarked v → ∀ before after : Members, "level" ∉ before.map (·.1) →
      "level" ∉ after.map (·.1) →
      Alike v (logCodec.ofValue (.object (before ++ after)))
          (logCodec.ofValue (.object (before ++ ("level", v) :: after))) ∧
        ∀ c, logCodec.ofValue (.object (before ++ after)) = .error c →
          logCodec.ofValue (.object (before ++ ("level", v) :: after)) = .error c) ∧
    (∀ (before after : List Member) (t b b' : Bytes), "level" ∉ before.map (·.name) →
      "level" ∉ after.map (·.name) → Depicts (literally Held) (maxDepth - 1) v t →
      ObjectText Inside (before ++ after) b →
      ObjectText Inside (before ++ ⟨"level", t⟩ :: after) b' →
      Alike v (logCodec.parse b) (logCodec.parse b')) ∧
    ∀ (N : Bytes → Number → Prop) (depth : Nat) (g t g' : Bytes), Gap g →
      Depicts (literally N) depth v t → Gap g' →
      ∀ l, parseLevel (g ++ (t ++ g')) = .ok l ↔ Names v l := by
  refine ⟨fun hv before after hbefore hafter => ?_, ?_, ?_⟩
  · exact alike_ofValue hbefore hafter (reread_of_unmarked hv)
  · intro before after t b b' hbefore hafter hv hb hb'
    obtain ⟨w, hw, hkind⟩ := exists_depicts hv
    exact (alike_parse hbefore hafter hw hb hb').of_resembles hkind
  · exact fun N depth g t g' hg ht hg' l => parseLevel_of_depicts hg ht hg'

/-- A list for a level, between two members that are read. -/
theorem level_costs_nothing_list :
    let v : Value := .array [.null]
    (∃ d d', logCodec.ofValue (.object [("dir", .string "d"), ("format", .string "text")]) = .ok d ∧
      logCodec.ofValue (.object [("dir", .string "d"), ("level", v),
        ("format", .string "text")]) = .ok d' ∧ Leveled v d d') ∧
      Alike v (logCodec.parse (Text.bytes "\x7b\x7d"))
        (logCodec.parse (Text.bytes "\x7b\x22level\x22:[null]\x7d")) ∧
      (parseLevel (Text.bytes " \x22 Err\x22") = .ok .error ↔ Names (.string " Err") .error) := by
  intro v
  have hdir : "level" ∉ [("dir", Value.string "d")].map (·.1) := by decide
  have hformat : "level" ∉ [("format", Value.string "text")].map (·.1) := by decide
  have spells : ∀ s : String, (∀ b ∈ Text.bytes s, isPlain b = true) → Spells (Text.bytes s) s :=
    fun s hs => by simpa using Spells.plain hs .nil
  have hunmarked : Unmarked v := .array fun u hu => by
    rw [List.mem_singleton.1 hu]
    exact .null
  have htext : Depicts (literally Held) 0 (.string " Err") (Text.bytes "\x22 Err\x22") :=
    Plainly.string (spells " Err" (List.all_eq_true.1 rfl))
  have hblank : Gap (Text.bytes " ") := List.all_eq_true.1 rfl
  have hnull : Depicts (literally Held) (maxDepth - 2) .null (Text.bytes "null") :=
    Plainly.null.depicts _
  have helements : Body (Element (Depicts (literally Held) (maxDepth - 2))) [.null]
      (Text.bytes "null" ++ []) := .filled ⟨[], _, gap_nil, hnull, rfl⟩ (.done gap_nil)
  have hlist : Depicts (literally Held) (maxDepth - 1) v (Text.bytes "[null]") :=
    .inr (.inl ⟨[.null], _, helements, rfl, rfl⟩)
  have hempty : ObjectText Inside ([] ++ []) (Text.bytes "\x7b\x7d") :=
    ⟨[], [], [], gap_nil, .empty gap_nil, gap_nil, rfl⟩
  have hmember : MemberText Inside ⟨"level", Text.bytes "[null]"⟩
      (Text.bytes "\x22level\x22:[null]") :=
    ⟨[], _, [], [], gap_nil, spells "level" (List.all_eq_true.1 rfl), gap_nil, gap_nil,
      hlist.written, rfl⟩
  have hobject : ObjectText Inside ([] ++ ⟨"level", Text.bytes "[null]"⟩ :: [])
      (Text.bytes "\x7b\x22level\x22:[null]\x7d") :=
    ⟨[], _, [], gap_nil, .filled hmember (.done gap_nil), gap_nil, rfl⟩
  refine ⟨?_, (level_costs_nothing v).2.1 [] [] _ _ _ List.not_mem_nil List.not_mem_nil hlist hempty
    hobject, (level_costs_nothing (.string " Err")).2.2 _ _ _ _ _ hblank htext gap_nil _⟩
  have halike := ((level_costs_nothing v).1 hunmarked _ _ hdir hformat).1
  have hbare : ∃ d, logCodec.ofValue (.object ([("dir", .string "d")] ++
      [("format", .string "text")])) = .ok d := ⟨_, rfl⟩
  obtain ⟨d, hd⟩ := hbare
  rw [hd] at halike
  generalize hx : logCodec.ofValue (.object ([("dir", .string "d")] ++
    ("level", v) :: [("format", .string "text")])) = x at halike
  cases halike with
  | read h => exact ⟨d, _, hd, hx, h⟩

/-- An object that begins with `rawName`, which costs the section or gives it a level; the section
without it is read, as a value and as a text. -/
theorem marked_costs_section :
    let v : Value := .object [(rawName, .number (.integer 5))]
    let w : Value := .object [(rawName, .string "\x22debug\x22")]
    (∃ d, logCodec.ofValue (.object []) = .ok d) ∧
      (∃ c, logCodec.ofValue (.object [("level", v)]) = .error c) ∧
      (∃ d, logCodec.ofValue (.object [("level", w)]) = .ok d ∧ d.settings.level = some .debug ∧
        ¬ Names w .debug) ∧
      (∃ d, logCodec.parse (Text.bytes "\x7b\x7d") = .ok d) ∧
      ∃ p, logCodec.parse (Text.bytes
        "\x7b\x22level\x22:\x7b\x22$serde_json::private::RawValue\x22:5\x7d\x7d") = .error p := by
  refine ⟨⟨_, rfl⟩, ⟨_, rfl⟩, ⟨_, rfl, rfl, fun ⟨s, h, _⟩ => by cases h⟩, ⟨_, rfl⟩, ?_⟩
  exact ⟨_, rfl⟩

end Config

end Switchboard
