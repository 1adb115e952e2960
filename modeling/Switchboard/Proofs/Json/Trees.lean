import Mathlib.Data.List.Infix
import Mathlib.Data.List.Sort
import Switchboard.Json.Read
import Switchboard.Json.Tree

/-!
# What lies below a path

Where the upper of two documents has only objects on a path and something else at its end, the path
leads to what the upper one has there, or else to what the lower one has.  A value that is placed at
one path leaves all others alone that do not run together with it.  Objects that are read have their
members by rising name (`Tidy`), so each of their members counts.

    u.Fits p → (w.overlay u).at? p = (u.at? p).or (w.at? p)
    Apart p q → (v.place q w).at? p = v.at? p
-/

namespace Switchboard.Json

/-! ## Specification -/

def Value.IsObject (v : Value) : Prop := ∃ ms, v = .object ms

namespace Value

/-- The value has objects on the way to the end of the path, as far as it goes there, and at its end
something else. -/
structure Fits (v : Value) (p : List String) : Prop where
  onTheWay : ∀ q, q <+: p → q ≠ p → ∀ w, v.at? q = some w → w.IsObject
  atTheEnd : ∀ w, v.at? p = some w → ¬ w.IsObject

/-- Every object has its members by rising name. -/
inductive Tidy : Value → Prop
  | null : Tidy .null
  | bool (b : Bool) : Tidy (.bool b)
  | number (n : Number) : Tidy (.number n)
  | string (s : String) : Tidy (.string s)
  | array {vs : List Value} (h : ∀ v ∈ vs, Tidy v) : Tidy (.array vs)
  | object {ms : Members} (hr : ms.Pairwise fun a b => a.1 < b.1) (h : ∀ m ∈ ms, Tidy m.2) :
    Tidy (.object ms)

end Value

instance (v : Value) : Decidable v.IsObject :=
  match v with
  | .object ms => .isTrue ⟨ms, rfl⟩
  | .null | .bool _ | .number _ | .string _ | .array _ => .isFalse fun ⟨_, h⟩ => nomatch h

/-- Neither path runs along the other to its end. -/
def Apart (p q : List String) : Prop := ¬ p <+: q ∧ ¬ q <+: p

instance (p q : List String) : Decidable (Apart p q) :=
  inferInstanceAs (Decidable (¬ p <+: q ∧ ¬ q <+: p))

theorem Apart.of_cons {p q : List String} {key : String} (h : Apart (key :: p) (key :: q)) :
    Apart p q :=
  ⟨fun hp => h.1 (List.cons_prefix_cons.2 ⟨rfl, hp⟩),
    fun hq => h.2 (List.cons_prefix_cons.2 ⟨rfl, hq⟩)⟩

theorem Apart.symm {p q : List String} (h : Apart p q) : Apart q p := ⟨h.2, h.1⟩

theorem Value.fits_iff {v : Value} {p : List String} : v.Fits p ↔
    (∀ q ∈ p.inits, q ≠ p → ∀ w ∈ v.at? q, w.IsObject) ∧ ∀ w ∈ v.at? p, ¬ w.IsObject := by
  constructor
  · rintro ⟨hway, hend⟩
    exact ⟨fun q hq hne w hw => hway q (List.mem_inits q p |>.1 hq) hne w hw, hend⟩
  · rintro ⟨hway, hend⟩
    exact ⟨fun q hq hne w hw => hway q (List.mem_inits q p |>.2 hq) hne w hw, hend⟩

instance (v : Value) (p : List String) : Decidable (v.Fits p) := decidable_of_iff' _ Value.fits_iff

/-! ## Members -/

namespace Members

variable {ms : Members} {key j : String} {v w : Value}

theorem mem_of_find? (h : ms.find? key = some v) : (key, v) ∈ ms := by
  induction ms with
  | nil => cases h
  | cons m ms ih =>
    obtain ⟨k, u⟩ := m
    unfold find? at h
    split at h
    · next hk =>
      rw [hk, Option.some.inj h]
      exact List.mem_cons_self
    · exact List.mem_cons_of_mem _ (ih h)

theorem find?_eq_none_iff : ms.find? key = none ↔ key ∉ ms.map (·.1) := by
  induction ms with
  | nil => simp [find?]
  | cons m ms ih =>
    obtain ⟨k, u⟩ := m
    unfold find?
    by_cases hk : k = key
    · simp [hk]
    · rw [if_neg hk, ih, List.map_cons, List.mem_cons, not_or]
      exact ⟨fun h => ⟨Ne.symm hk, h⟩, fun h => h.2⟩

theorem find?_insert (ms : Members) (key j : String) (v : Value) :
    (ms.insert key v).find? j = if j = key then some v else ms.find? j := by
  by_cases hj : j = key
  · rw [hj, find?_insert_self, if_pos rfl]
  · rw [find?_insert_of_ne ms key j v hj, if_neg hj]

theorem insert_front {k : String} (h : key < k) (u v : Value) (ms : Members) :
    Members.insert ((k, u) :: ms) key v = (key, v) :: (k, u) :: ms := by
  rw [insert, if_pos h]

theorem insert_here (key : String) (u v : Value) (ms : Members) :
    Members.insert ((key, u) :: ms) key v = (key, v) :: ms := by
  rw [insert, if_neg (String.lt_irrefl key), if_pos rfl]

theorem insert_behind {k : String} (h : k < key) (u v : Value) (ms : Members) :
    Members.insert ((k, u) :: ms) key v = (k, u) :: Members.insert ms key v := by
  have hnot : ¬ key < k := fun hlt => String.lt_irrefl k (String.lt_trans h hlt)
  have hne : k ≠ key := fun heq => String.lt_irrefl key (heq ▸ h)
  rw [insert, if_neg hnot, if_neg hne]

theorem name_cases (key k : String) : key < k ∨ key = k ∨ k < key := by
  by_cases hlt : key < k
  · exact .inl hlt
  · by_cases heq : k = key
    · exact .inr (.inl heq.symm)
    · exact .inr (.inr (Std.lt_of_le_of_ne (String.not_lt.1 hlt) heq))

/-- Of two values for one name the last stays. -/
theorem insert_insert_self (ms : Members) (key : String) (v w : Value) :
    (ms.insert key v).insert key w = ms.insert key w := by
  induction ms with
  | nil => exact insert_here key v w []
  | cons m ms ih =>
    obtain ⟨k, u⟩ := m
    rcases name_cases key k with h | rfl | h
    · rw [insert_front h, insert_front h, insert_here]
    · rw [insert_here, insert_here, insert_here]
    · rw [insert_behind h, insert_behind h, insert_behind h, ih]

theorem insert_insert_of_lt (ms : Members) {key j : String} (h : key < j) (v w : Value) :
    (ms.insert key v).insert j w = (ms.insert j w).insert key v := by
  induction ms with
  | nil => exact (insert_behind h v w []).trans (insert_front h w v []).symm
  | cons m ms ih =>
    obtain ⟨k, u⟩ := m
    rcases name_cases key k with hk | rfl | hk
    · -- The lesser name stands in front of whatever becomes of the greater one.
      rw [insert_front hk, insert_behind h]
      rcases name_cases j k with hj | rfl | hj
      · rw [insert_front hj, insert_front h]
      · rw [insert_here, insert_front h]
      · rw [insert_behind hj, insert_front hk]
    · rw [insert_here, insert_behind h, insert_behind h, insert_here]
    · rw [insert_behind hk, insert_behind (String.lt_trans hk h),
        insert_behind (String.lt_trans hk h), insert_behind hk, ih]

/-- Members of different names can be set in either order. -/
theorem insert_insert_of_ne (ms : Members) {key j : String} (h : key ≠ j) (v w : Value) :
    (ms.insert key v).insert j w = (ms.insert j w).insert key v := by
  rcases name_cases key j with hlt | heq | hlt
  · exact insert_insert_of_lt ms hlt v w
  · exact absurd heq h
  · exact (insert_insert_of_lt ms hlt w v).symm

/-- A member that is set is the one that was given, or was there. -/
theorem mem_insert {m : String × Value} (h : m ∈ ms.insert key v) : m = (key, v) ∨ m ∈ ms := by
  induction ms with
  | nil => exact .inl (List.mem_singleton.1 h)
  | cons a ms ih =>
    obtain ⟨k, u⟩ := a
    unfold insert at h
    split at h
    · exact (List.mem_cons.1 h).imp id id
    · split at h
      · rcases List.mem_cons.1 h with h | h
        · exact .inl h
        · exact .inr (List.mem_cons_of_mem _ h)
      · rcases List.mem_cons.1 h with h | h
        · exact .inr (h ▸ List.mem_cons_self)
        · exact (ih h).imp id (List.mem_cons_of_mem _)

theorem rising_insert (key : String) (v : Value) (h : ms.Pairwise fun a b => a.1 < b.1) :
    (ms.insert key v).Pairwise fun a b => a.1 < b.1 := by
  induction ms with
  | nil => exact List.pairwise_singleton _ _
  | cons a ms ih =>
    obtain ⟨k, u⟩ := a
    obtain ⟨hk, hms⟩ := List.pairwise_cons.1 h
    unfold insert
    split
    · next hlt =>
      refine List.pairwise_cons.2 ⟨fun b hb => ?_, h⟩
      rcases List.mem_cons.1 hb with rfl | hb
      · exact hlt
      · exact String.lt_trans hlt (hk b hb)
    · next hle =>
      split
      · next heq => exact heq ▸ List.pairwise_cons.2 ⟨hk, hms⟩
      · next hne =>
        refine List.pairwise_cons.2 ⟨fun b hb => ?_, ih hms⟩
        rcases mem_insert hb with rfl | hb
        · exact Std.lt_of_le_of_ne (String.not_lt.1 hle) hne
        · exact hk b hb

theorem tidy_insert (key : String) (hv : v.Tidy) (h : Value.Tidy (.object ms)) :
    Value.Tidy (.object (ms.insert key v)) := by
  cases h with
  | object hr hms =>
    refine .object (rising_insert key v hr) fun m hm => ?_
    rcases mem_insert hm with rfl | hm
    · exact hv
    · exact hms m hm

/-- The names behind the first one are others. -/
theorem not_mem_names (h : List.Pairwise (fun a b : String × Value => a.1 < b.1) ((key, v) :: ms)) :
    key ∉ ms.map (·.1) := by
  intro hmem
  obtain ⟨m, hm, hk⟩ := List.mem_map.1 hmem
  have hlt := (List.pairwise_cons.1 h).1 m hm
  rw [hk] at hlt
  exact String.lt_irrefl key hlt

/-- By rising name, each member is the one that is found under its name. -/
theorem mem_iff_find? (h : ms.Pairwise fun a b => a.1 < b.1) {m : String × Value} :
    m ∈ ms ↔ ms.find? m.1 = some m.2 := by
  refine ⟨fun hm => ?_, mem_of_find?⟩
  induction ms with
  | nil => cases hm
  | cons a ms ih =>
    obtain ⟨k, u⟩ := a
    rcases List.mem_cons.1 hm with rfl | hms
    · exact if_pos rfl
    · have hne : k ≠ m.1 := by
        intro hk
        exact not_mem_names h (hk ▸ List.mem_map_of_mem hms)
      rw [find?, if_neg hne]
      exact ih h.of_cons hms

/-- By rising name, the same members are the same list. -/
theorem eq_of_mem_iff {ms' : Members} (h : ms.Pairwise fun a b => a.1 < b.1)
    (h' : ms'.Pairwise fun a b => a.1 < b.1) (hmem : ∀ m, m ∈ ms ↔ m ∈ ms') : ms = ms' := by
  have : Std.Irrefl fun a b : String × Value => a.1 < b.1 := ⟨fun a => String.lt_irrefl a.1⟩
  have : Std.Antisymm fun a b : String × Value => a.1 < b.1 :=
    ⟨fun a b hab hba => absurd (String.lt_trans hab hba) (String.lt_irrefl a.1)⟩
  exact h.eq_of_mem_iff h' hmem

/-- The members with other values under the same names. -/
theorem find?_map (ms : Members) (f : String → Value → Value) (key : String) :
    Members.find? (ms.map fun m => (m.1, f m.1 m.2)) key = (ms.find? key).map (f key) := by
  induction ms with
  | nil => rfl
  | cons m ms ih =>
    obtain ⟨k, u⟩ := m
    rw [List.map_cons, find?, find?, ih]
    split
    · next hk =>
      rw [← hk]
      rfl
    · rfl

end Members

namespace Value

variable {v w u : Value} {p q : List String} {key : String} {ms : Members}

/-! ## One document over another -/

/-- A member of two objects laid over each other. -/
theorem find?_overlayMembers (lower : Members) {upper : Members}
    (hr : upper.Pairwise fun a b => a.1 < b.1) (key : String) :
    Members.find? (overlayMembers lower upper) key = match Members.find? upper key with
      | none => Members.find? lower key
      | some v => some (match Members.find? lower key with
        | none => v
        | some old => old.overlay v) := by
  induction upper generalizing lower with
  | nil => rfl
  | cons m upper ih =>
    obtain ⟨k, v⟩ := m
    rw [overlayMembers, ih _ hr.of_cons, Members.find?_insert]
    by_cases hk : key = k
    · subst hk
      rw [Members.find?_eq_none_iff.2 (Members.not_mem_names hr), if_pos rfl, Members.find?,
        if_pos rfl]
      cases Members.find? lower key <;> rfl
    · rw [if_neg hk, Members.find?, if_neg (Ne.symm hk)]

theorem rising_overlayMembers {lower : Members} (upper : Members)
    (h : lower.Pairwise fun a b => a.1 < b.1) :
    (overlayMembers lower upper).Pairwise fun a b => a.1 < b.1 := by
  induction upper generalizing lower with
  | nil => exact h
  | cons m upper ih =>
    rw [overlayMembers]
    exact ih (Members.rising_insert _ _ h)

theorem at?_nil (v : Value) : v.at? [] = some v := by
  cases v <;> rfl

theorem at?_object (ms : Members) (key : String) (p : List String) :
    (Value.object ms).at? (key :: p) = (ms.find? key).bind fun v => v.at? p := by
  rw [at?]
  cases ms.find? key <;> rfl

theorem at?_of_not_object (h : ¬ v.IsObject) (key : String) (p : List String) :
    v.at? (key :: p) = none := by
  cases v with
  | object ms => exact absurd ⟨ms, rfl⟩ h
  | _ => rfl

theorem overlay_of_not_object (w : Value) (h : ¬ u.IsObject) : w.overlay u = u := by
  cases u with
  | object ms => exact absurd ⟨ms, rfl⟩ h
  | _ => cases w <;> rfl

theorem overlay_on_not_object (h : ¬ w.IsObject) (u : Value) : w.overlay u = u := by
  cases w with
  | object ms => exact absurd ⟨ms, rfl⟩ h
  | _ => cases u <;> rfl

theorem null_overlay (u : Value) : Value.null.overlay u = u :=
  overlay_on_not_object (fun ⟨_, h⟩ => nomatch h) u

theorem fits_nil (h : v.Fits []) : ¬ v.IsObject := h.atTheEnd v (at?_nil v)

theorem isObject_of_fits (h : v.Fits (key :: p)) : v.IsObject :=
  h.onTheWay [] List.nil_prefix (List.cons_ne_nil key p).symm v (at?_nil v)

theorem Fits.member (h : (Value.object ms).Fits (key :: p)) (hv : ms.find? key = some v) :
    v.Fits p := by
  have hat : ∀ q, (Value.object ms).at? (key :: q) = v.at? q := by
    intro q
    rw [at?_object, hv]
    rfl
  constructor
  · intro q hq hne w hw
    refine h.onTheWay (key :: q) (List.cons_prefix_cons.2 ⟨rfl, hq⟩) ?_ w ?_
    · intro heq
      exact hne (List.cons.inj heq).2
    · rw [hat, hw]
  · intro w hw
    refine h.atTheEnd w ?_
    rw [hat, hw]

theorem Tidy.rising (h : Tidy (.object ms)) : ms.Pairwise fun a b => a.1 < b.1 := by
  cases h with
  | object hr => exact hr

theorem Tidy.member (h : Tidy (.object ms)) (hv : ms.find? key = some v) : v.Tidy := by
  cases h with
  | object _ hms => exact hms _ (Members.mem_of_find? hv)

/-- **Of two documents that lie over each other the upper one counts**, where it says anything. -/
theorem at?_overlay (w : Value) (ht : u.Tidy) (h : u.Fits p) :
    (w.overlay u).at? p = (u.at? p).or (w.at? p) := by
  induction p generalizing w u with
  | nil =>
    rw [overlay_of_not_object w (fits_nil h), at?_nil, at?_nil]
    rfl
  | cons key p ih =>
    obtain ⟨upper, rfl⟩ := isObject_of_fits h
    by_cases hw : w.IsObject
    · obtain ⟨lower, rfl⟩ := hw
      rw [overlay, at?_object, find?_overlayMembers lower ht.rising, at?_object, at?_object]
      cases hv : Members.find? upper key with
      | none => rfl
      | some v =>
        have hmember := fun old => ih old (ht.member hv) (h.member hv)
        cases Members.find? lower key with
        | none => exact Option.or_none.symm
        | some old => exact hmember old
    · rw [overlay_on_not_object hw, at?_of_not_object hw, Option.or_none]

theorem Tidy.overlay (hw : w.Tidy) (hu : u.Tidy) : (w.overlay u).Tidy := by
  have members : ∀ {lower upper : Members}, Tidy (.object lower) →
      (∀ m ∈ upper, m.2.Tidy ∧ ∀ old : Value, old.Tidy → (old.overlay m.2).Tidy) →
      Tidy (.object (overlayMembers lower upper)) := by
    intro lower upper hlower hupper
    induction upper generalizing lower with
    | nil => exact hlower
    | cons m upper ih =>
      obtain ⟨k, v⟩ := m
      obtain ⟨htidy, hover⟩ := hupper (k, v) List.mem_cons_self
      rw [overlayMembers]
      refine ih (Members.tidy_insert k ?_ hlower) fun m hm => hupper m (List.mem_cons_of_mem _ hm)
      cases hfind : Members.find? lower k with
      | none => exact htidy
      | some old => exact hover old (hlower.member hfind)
  induction hu generalizing w with
  | @object ms hr hms ih =>
    by_cases hobject : w.IsObject
    · obtain ⟨lower, rfl⟩ := hobject
      exact members hw fun m hm => ⟨hms m hm, fun old hold => ih m hm hold⟩
    · rw [overlay_on_not_object hobject]
      exact .object hr hms
  | _ =>
    rw [overlay_of_not_object w (fun ⟨_, h⟩ => nomatch h)]
    constructor <;> assumption

/-! ## A value at its place -/

theorem at?_place_self (v : Value) (p : List String) (w : Value) : (v.place p w).at? p = some w := by
  induction p generalizing v with
  | nil =>
    unfold place
    exact at?_nil w
  | cons key p ih =>
    unfold place
    rw [at?_object, Members.find?_insert_self]
    exact ih _

/-- The members that a value has, if it has any. -/
def membersOf : Value → Members
  | .object ms => ms
  | _ => []

theorem membersOf_of_not_object (h : ¬ w.IsObject) : w.membersOf = [] := by
  cases w with
  | object ms => exact absurd ⟨ms, rfl⟩ h
  | _ => rfl

theorem place_cons (v : Value) (key : String) (q : List String) (w : Value) :
    v.place (key :: q) w =
      .object (v.membersOf.insert key (((v.membersOf.find? key).getD .null).place q w)) := by
  cases v <;> rfl

theorem at?_cons (v : Value) (key : String) (p : List String) :
    v.at? (key :: p) = (v.membersOf.find? key).bind fun u => u.at? p := by
  cases v with
  | object ms => exact at?_object ms key p
  | _ => rfl

theorem Tidy.membersOf (h : w.Tidy) : Tidy (.object w.membersOf) := by
  by_cases hw : w.IsObject
  · obtain ⟨ms, rfl⟩ := hw
    exact h
  · rw [membersOf_of_not_object hw]
    exact .object .nil fun _ hm => absurd hm List.not_mem_nil

/-- The members of an object that lies over anything. -/
theorem find?_membersOf_overlay {upper : Members} (w : Value)
    (hr : upper.Pairwise fun a b => a.1 < b.1) (key : String) :
    (w.overlay (.object upper)).membersOf.find? key = match upper.find? key with
      | none => w.membersOf.find? key
      | some v => some (((w.membersOf.find? key).getD .null).overlay v) := by
  by_cases hw : w.IsObject
  · obtain ⟨lower, rfl⟩ := hw
    rw [overlay]
    show Members.find? (overlayMembers lower upper) key = match upper.find? key with
      | none => Members.find? lower key
      | some v => some (((Members.find? lower key).getD .null).overlay v)
    rw [find?_overlayMembers lower hr]
    cases Members.find? upper key with
    | none => rfl
    | some v =>
      cases Members.find? lower key with
      | none => exact congrArg some (null_overlay v).symm
      | some old => rfl
  · rw [overlay_on_not_object hw, membersOf_of_not_object hw]
    show upper.find? key = _
    cases upper.find? key with
    | none => rfl
    | some v => exact congrArg some (null_overlay v).symm

/-- An object over anything is an object: its members lie over those that have their names. -/
theorem overlay_object (hw : w.Tidy) {upper : Members}
    (hr : upper.Pairwise fun a b => a.1 < b.1) :
    ∃ ms : Members, w.overlay (.object upper) = .object ms ∧
      (ms.Pairwise fun a b => a.1 < b.1) ∧ ∀ key, ms.find? key =
        match Members.find? upper key with
        | none => Members.find? w.membersOf key
        | some v => some (((Members.find? w.membersOf key).getD .null).overlay v) := by
  have hfind := find?_membersOf_overlay w hr
  by_cases hobject : w.IsObject
  · obtain ⟨lower, rfl⟩ := hobject
    rw [overlay] at hfind ⊢
    exact ⟨_, rfl, rising_overlayMembers upper hw.rising, hfind⟩
  · rw [overlay_on_not_object hobject] at hfind ⊢
    exact ⟨upper, rfl, hr, hfind⟩

theorem isObject_overlay (w : Value) (upper : Members) : (w.overlay (.object upper)).IsObject := by
  by_cases hobject : w.IsObject
  · obtain ⟨lower, rfl⟩ := hobject
    rw [overlay]
    exact ⟨_, rfl⟩
  · rw [overlay_on_not_object hobject]
    exact ⟨upper, rfl⟩

/-- Objects that have the same under each name are the same. -/
theorem eq_of_find?_membersOf (hv : v.Tidy) (hw : w.Tidy) (hov : v.IsObject) (how : w.IsObject)
    (h : ∀ key, v.membersOf.find? key = w.membersOf.find? key) : v = w := by
  obtain ⟨ms, rfl⟩ := hov
  obtain ⟨ms', rfl⟩ := how
  refine congrArg Value.object (Members.eq_of_mem_iff hv.rising hw.rising fun m => ?_)
  rw [Members.mem_iff_find? hv.rising, Members.mem_iff_find? hw.rising]
  exact Eq.congr_left (h m.1)

/-- **A value at its place is not seen from elsewhere.** -/
theorem at?_place_apart (v : Value) (w : Value) (h : Apart p q) : (v.place q w).at? p = v.at? p := by
  induction q generalizing v p with
  | nil => exact absurd List.nil_prefix h.2
  | cons key q ih =>
    cases p with
    | nil => exact absurd List.nil_prefix h.1
    | cons j p =>
      rw [place_cons, at?_object, Members.find?_insert, at?_cons]
      by_cases hj : j = key
      · subst hj
        have happart : Apart p q := h.of_cons
        rw [if_pos rfl, Option.bind_some, ih _ happart]
        cases hv : v.membersOf.find? j with
        | some u => rfl
        | none =>
          cases p with
          | nil => exact absurd List.nil_prefix happart.1
          | cons => rfl
      · rw [if_neg hj]

/-- **Values at places that are apart can be set in either order.** -/
theorem place_place_of_apart (v x y : Value) (h : Apart p q) :
    (v.place p x).place q y = (v.place q y).place p x := by
  induction p generalizing v q with
  | nil => exact absurd List.nil_prefix h.1
  | cons key p ih =>
    cases q with
    | nil => exact absurd List.nil_prefix h.2
    | cons j q =>
      rw [place_cons v, place_cons v, place_cons, place_cons]
      show Value.object _ = Value.object _
      dsimp only [membersOf]
      by_cases hj : key = j
      · subst hj
        rw [Members.find?_insert_self, Members.find?_insert_self, Members.insert_insert_self,
          Members.insert_insert_self, Option.getD_some, Option.getD_some, ih _ h.of_cons]
      · rw [Members.find?_insert_of_ne _ _ _ _ (Ne.symm hj), Members.find?_insert_of_ne _ _ _ _ hj,
          Members.insert_insert_of_ne _ hj]

end Value

/-! ## Documents that are read -/

section Folds

variable {σ : Type} {P : σ → Prop} {fuel : Nat} {first : Bool} {acc acc' : σ} {s rest : Bytes}

/-- What a fold over elements keeps. -/
theorem foldElements_keeps {step : σ → Bytes → Scan σ}
    (hstep : ∀ acc s acc' rest, P acc → step acc s = .ok (acc', rest) → P acc') (hacc : P acc)
    (h : foldElements step fuel first acc s = .ok (acc', rest)) : P acc' := by
  induction fuel generalizing first acc s with
  | zero => cases h
  | succ fuel ih =>
    rw [foldElements] at h
    split at h
    · cases h
    · cases h
      exact hacc
    · split at h
      · cases h
      · next hnext => exact ih (hstep _ _ _ _ hacc hnext) h

/-- What a fold over members keeps. -/
theorem foldMembers_keeps {step : σ → String → Bytes → Scan σ}
    (hstep : ∀ acc name s acc' rest, P acc → step acc name s = .ok (acc', rest) → P acc')
    (hacc : P acc) (h : foldMembers step fuel first acc s = .ok (acc', rest)) : P acc' := by
  induction fuel generalizing first acc s with
  | zero => cases h
  | succ fuel ih =>
    rw [foldMembers] at h
    split at h
    · cases h
    · cases h
      exact hacc
    · split at h
      · cases h
      · split at h
        · cases h
        · next hnext => exact ih (hstep _ _ _ _ _ hacc hnext) h

end Folds

section Read

variable {b : UInt8} {s rest : Bytes} {v : Value} {depth : Nat}

theorem exists_of_map_ok {ε α β : Type} {x : Except ε α} {f : α → β} {y : β}
    (h : x.map f = .ok y) : ∃ a, x = .ok a ∧ f a = y := by
  cases x with
  | error e => cases h
  | ok a => exact ⟨a, rfl, Except.ok.inj h⟩

theorem tidy_scanScalar (h : scanScalar b s = .ok (v, rest)) : v.Tidy := by
  unfold scanScalar at h
  repeat' split at h
  all_goals
    first
    | cases h
    | obtain ⟨x, -, hx⟩ := exists_of_map_ok h
      obtain ⟨rfl, -⟩ := Prod.mk.inj hx
      constructor

theorem tidy_readRaw {inner : Bytes → Except Problem Value}
    (hinner : ∀ {t u}, inner t = .ok u → u.Tidy) (h : readRaw inner s = .ok (v, rest)) : v.Tidy := by
  unfold readRaw at h
  repeat' split at h
  all_goals try cases h
  next hv =>
    obtain ⟨r, -, hx⟩ := exists_of_map_ok h
    obtain ⟨rfl, -⟩ := Prod.mk.inj hx
    exact hinner hv

/-- **Every value that is read is tidy**, if the texts that stand for values are read so. -/
theorem tidy_readValue {inner : Bytes → Except Problem Value}
    (hinner : ∀ {t u}, inner t = .ok u → u.Tidy) (h : readValue inner depth s = .ok (v, rest)) :
    v.Tidy := by
  induction depth generalizing s rest v with
  | zero =>
    unfold readValue at h
    split at h
    · cases h
    · split at h
      · cases h
      · exact tidy_scanScalar h
  | succ depth ih =>
    unfold readValue at h
    split at h
    · cases h
    · split at h
      · dsimp only at h
        split at h
        · obtain ⟨⟨vs, r⟩, hfold, hv⟩ := exists_of_map_ok h
          obtain ⟨rfl, -⟩ := Prod.mk.inj hv
          have hall : ∀ v ∈ vs, v.Tidy := by
            refine foldElements_keeps (P := fun vs : List Value => ∀ v ∈ vs, v.Tidy) ?_ ?_ hfold
            · intro acc s acc' rest hacc hstep
              obtain ⟨⟨u, r'⟩, hu, hcons⟩ := exists_of_map_ok hstep
              obtain ⟨rfl, -⟩ := Prod.mk.inj hcons
              intro v hv
              rcases List.mem_cons.1 hv with rfl | hv
              · exact ih hu
              · exact hacc v hv
            · exact fun _ hv => absurd hv List.not_mem_nil
          exact .array fun v hv => hall v (List.mem_reverse.1 hv)
        · split at h
          · exact tidy_readRaw hinner h
          · obtain ⟨⟨ms, r⟩, hfold, hv⟩ := exists_of_map_ok h
            obtain ⟨rfl, -⟩ := Prod.mk.inj hv
            refine foldMembers_keeps (P := fun ms : Members => (Value.object ms).Tidy) ?_ ?_ hfold
            · intro acc name s acc' rest hacc hstep
              split at hstep
              · cases hstep
              · obtain ⟨⟨u, r'⟩, hu, hins⟩ := exists_of_map_ok hstep
                obtain ⟨rfl, -⟩ := Prod.mk.inj hins
                exact Members.tidy_insert name (ih hu) hacc
            · exact .object .nil fun _ hm => absurd hm List.not_mem_nil
      · exact tidy_scanScalar h

theorem tidy_documentWithin {nested : Nat} (h : documentWithin nested s = .ok v) : v.Tidy := by
  induction nested generalizing s v with
  | zero => cases h
  | succ nested ih =>
    unfold documentWithin wholly at h
    split at h
    · cases h
    · next hread =>
      split at h
      · cases h
      · cases h
        exact tidy_readValue ih hread

theorem tidy_document (h : document s = .ok v) : v.Tidy := tidy_documentWithin h

end Read

end Switchboard.Json
