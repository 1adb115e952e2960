import Switchboard.Proofs.Json.Trees

/-!
# One document over another, path by path

What is found at a path where one document lies over another is told from what each of the two has
there (`Shows`): the upper one wins unless both have objects, and the lower one is seen only through
objects of the upper one that lack the next name.  What has been laid over a document changes
nothing when it is laid over it again.

    (w.overlay u).at? p = r ↔ Shows w u p r
    (w.overlay u).overlay u = w.overlay u
-/

namespace Switchboard.Json

/-! ## Specification -/

/-- What is found at a path when the document `u` lies over `w`. -/
inductive Shows (w u : Value) : List String → Option Value → Prop
  /-- The upper document has something there that is no object. -/
  | upper {p : List String} {x : Value} (hu : u.at? p = some x) (hx : ¬ x.IsObject) :
    Shows w u p (some x)
  /-- Both have objects there. -/
  | both {p : List String} {x y : Value} (hu : u.at? p = some x) (hx : x.IsObject)
    (hw : w.at? p = some y) (hy : y.IsObject) : Shows w u p (some (y.overlay x))
  /-- Only the upper one has an object there. -/
  | alone {p : List String} {x : Value} (hu : u.at? p = some x) (hx : x.IsObject)
    (hw : ∀ y, w.at? p = some y → ¬ y.IsObject) : Shows w u p (some x)
  /-- The upper one ends at an object that lacks the next name, and the lower one has an object
  there too. -/
  | through {q r : List String} {key : String} {x y : Value} (hu : u.at? q = some x)
    (hx : x.IsObject) (hkey : u.at? (q ++ [key]) = none) (hw : w.at? q = some y)
    (hy : y.IsObject) : Shows w u (q ++ key :: r) (w.at? (q ++ key :: r))
  /-- The upper one ends at such an object, and the lower one has none there. -/
  | lacking {q r : List String} {key : String} {x : Value} (hu : u.at? q = some x)
    (hx : x.IsObject) (hkey : u.at? (q ++ [key]) = none)
    (hw : ∀ y, w.at? q = some y → ¬ y.IsObject) : Shows w u (q ++ key :: r) none
  /-- The upper one has something on the way that is no object. -/
  | hidden {q r : List String} {key : String} {x : Value} (hu : u.at? q = some x)
    (hx : ¬ x.IsObject) : Shows w u (q ++ key :: r) none

namespace Value

variable {v w u x : Value} {p q r : List String} {key : String}

/-! ## Paths -/

/-- A path is followed part by part. -/
theorem at?_append (v : Value) (p q : List String) :
    v.at? (p ++ q) = (v.at? p).bind fun u => u.at? q := by
  induction p generalizing v with
  | nil =>
    rw [at?_nil]
    rfl
  | cons key p ih =>
    rw [List.cons_append, at?_cons, at?_cons, Option.bind_assoc]
    exact congrArg _ (funext ih)

/-- A path that leads nowhere ends at its longest part that leads somewhere. -/
theorem exists_end (h : v.at? p = none) :
    ∃ q key r x, p = q ++ key :: r ∧ v.at? q = some x ∧ v.at? (q ++ [key]) = none := by
  induction p generalizing v with
  | nil =>
    rw [at?_nil] at h
    cases h
  | cons key p ih =>
    rw [at?_cons] at h
    cases hv : v.membersOf.find? key with
    | none =>
      refine ⟨[], key, p, v, rfl, at?_nil v, ?_⟩
      rw [List.nil_append, at?_cons, hv]
      rfl
    | some u =>
      rw [hv] at h
      obtain ⟨q, k, r, x, rfl, hq, hk⟩ := ih h
      refine ⟨key :: q, k, r, x, rfl, ?_, ?_⟩
      · rw [at?_cons, hv]
        exact hq
      · rw [List.cons_append, at?_cons, hv]
        exact hk

theorem Tidy.at? (h : v.Tidy) (hx : v.at? p = some x) : x.Tidy := by
  induction p generalizing v with
  | nil =>
    rw [at?_nil] at hx
    exact Option.some.inj hx ▸ h
  | cons key p ih =>
    rw [at?_cons, Option.bind_eq_some_iff] at hx
    obtain ⟨u, hu, hx⟩ := hx
    exact ih (h.membersOf.member hu) hx

/-! ## One document over another -/

/-- **Where the upper document has something**, it lies there over what the lower one has. -/
theorem at?_overlay_some (w : Value) (ht : u.Tidy) (h : u.at? p = some x) :
    (w.overlay u).at? p = some (((w.at? p).getD .null).overlay x) := by
  induction p generalizing w u with
  | nil =>
    rw [at?_nil] at h
    rw [at?_nil, at?_nil, Option.some.inj h]
    rfl
  | cons key p ih =>
    by_cases hu : u.IsObject
    · obtain ⟨upper, rfl⟩ := hu
      rw [at?_object, Option.bind_eq_some_iff] at h
      obtain ⟨v, hv, hx⟩ := h
      rw [at?_cons, find?_membersOf_overlay w ht.rising, hv, at?_cons]
      show Value.at? _ p = _
      rw [ih _ (ht.member hv) hx]
      cases w.membersOf.find? key with
      | some old => rfl
      | none => cases p <;> rfl
    · rw [at?_of_not_object hu] at h
      cases h

/-- Where the upper document has an object, the lower one is seen through the names it lacks. -/
theorem at?_overlay_lacking (w : Value) (ht : u.Tidy) (hu : u.at? q = some x) (hx : x.IsObject)
    (hkey : u.at? (q ++ [key]) = none) (r : List String) :
    (w.overlay u).at? (q ++ key :: r) = w.at? (q ++ key :: r) := by
  obtain ⟨upper, rfl⟩ := hx
  have hnone : Members.find? upper key = none := by
    rw [at?_append, hu, Option.bind_some, at?_object] at hkey
    cases hv : Members.find? upper key with
    | none => rfl
    | some v =>
      rw [hv, Option.bind_some, at?_nil] at hkey
      cases hkey
  rw [at?_append, at?_overlay_some w ht hu, Option.bind_some, at?_cons,
    find?_membersOf_overlay _ (ht.at? hu).rising, hnone, at?_append]
  cases w.at? q with
  | none => rfl
  | some y => exact (at?_cons y key r).symm

/-- Behind something that is no object there is nothing. -/
theorem at?_overlay_hidden (w : Value) (ht : u.Tidy) (hu : u.at? q = some x) (hx : ¬ x.IsObject)
    (key : String) (r : List String) : (w.overlay u).at? (q ++ key :: r) = none := by
  rw [at?_append, at?_overlay_some w ht hu, overlay_of_not_object _ hx]
  exact at?_of_not_object hx key r

/-- What has been laid over a document changes nothing when it is laid over it again. -/
theorem overlay_overlay_self (hw : w.Tidy) (hu : u.Tidy) :
    (w.overlay u).overlay u = w.overlay u := by
  induction hu generalizing w with
  | @object upper hr hms ih =>
    have hover : (w.overlay (.object upper)).Tidy := hw.overlay (.object hr hms)
    refine eq_of_find?_membersOf (hover.overlay (.object hr hms)) hover (isObject_overlay _ upper)
      (isObject_overlay w upper) fun key => ?_
    rw [find?_membersOf_overlay _ hr, find?_membersOf_overlay w hr]
    cases hv : Members.find? upper key with
    | none => rfl
    | some v =>
      dsimp only
      have hbelow : ((Members.find? w.membersOf key).getD .null).Tidy := by
        cases hold : Members.find? w.membersOf key with
        | none => exact .null
        | some old => exact hw.membersOf.member hold
      exact congrArg some (ih (key, v) (Members.mem_of_find? hv) hbelow)
  | _ =>
    have plain : ∀ {v : Value}, ¬ v.IsObject → (w.overlay v).overlay v = w.overlay v := by
      intro v hv
      rw [overlay_of_not_object _ hv, overlay_of_not_object _ hv]
    refine plain ?_
    rintro ⟨ms, h⟩
    cases h

end Value

/-! ## What is found -/

section Found

variable {w u : Value} {p : List String} {r : Option Value}

/-- What is found at any path is one of the cases. -/
theorem exists_shows (w u : Value) (p : List String) : ∃ r, Shows w u p r := by
  have object (q : List String) :
      (∃ y, w.at? q = some y ∧ y.IsObject) ∨ ∀ y, w.at? q = some y → ¬ y.IsObject := by
    by_cases h : ∃ y, w.at? q = some y ∧ y.IsObject
    · exact .inl h
    · exact .inr fun y hy hobject => h ⟨y, hy, hobject⟩
  cases hu : u.at? p with
  | some x =>
    by_cases hx : x.IsObject
    · obtain ⟨y, hw, hy⟩ | hw := object p
      · exact ⟨_, .both hu hx hw hy⟩
      · exact ⟨_, .alone hu hx hw⟩
    · exact ⟨_, .upper hu hx⟩
  | none =>
    obtain ⟨q, key, r, x, rfl, hu, hkey⟩ := Value.exists_end hu
    by_cases hx : x.IsObject
    · obtain ⟨y, hw, hy⟩ | hw := object q
      · exact ⟨_, .through hu hx hkey hw hy⟩
      · exact ⟨_, .lacking hu hx hkey hw⟩
    · exact ⟨_, .hidden hu hx⟩

theorem at?_of_shows (hu : u.Tidy) (h : Shows w u p r) : (w.overlay u).at? p = r := by
  cases h with
  | upper hx hplain => rw [Value.at?_overlay_some w hu hx, Value.overlay_of_not_object _ hplain]
  | both hx _ hy _ =>
    rw [Value.at?_overlay_some w hu hx, hy]
    rfl
  | @alone _ x hx _ hw =>
    rw [Value.at?_overlay_some w hu hx]
    cases hy : w.at? p with
    | none => exact congrArg some (Value.null_overlay x)
    | some y => exact congrArg some (Value.overlay_on_not_object (hw y hy) x)
  | through hx hobject hkey _ _ => exact Value.at?_overlay_lacking w hu hx hobject hkey _
  | @lacking q r key x hx hobject hkey hw =>
    rw [Value.at?_overlay_lacking w hu hx hobject hkey, Value.at?_append]
    cases hy : w.at? q with
    | none => rfl
    | some y => exact Value.at?_of_not_object (hw y hy) key r
  | hidden hx hplain => exact Value.at?_overlay_hidden w hu hx hplain _ _

end Found

/-! ## Top theorem -/

/-- **One document over another.**  What is found at any path is what the cases say, neither more
nor less; so laying a document over another a second time changes nothing, and neither does laying
an empty object over an object. -/
theorem overlay_shows {w u : Value} (hw : w.Tidy) (hu : u.Tidy) :
    (∀ p r, (w.overlay u).at? p = r ↔ Shows w u p r) ∧
      (w.overlay u).overlay u = w.overlay u ∧
      ∀ ms : Members, (Value.object ms).overlay (.object []) = .object ms := by
  refine ⟨fun p r => ⟨fun h => ?_, at?_of_shows hu⟩, Value.overlay_overlay_self hw hu, fun ms => ?_⟩
  · obtain ⟨r', hshows⟩ := exists_shows w u p
    rw [← h, at?_of_shows hu hshows]
    exact hshows
  · rw [Value.overlay, Value.overlayMembers]

/-- An object with a list and an object of its own, to lie over `crossedBelow`. -/
def crossed : Value := .object [("a", .object [("c", .array [.null]), ("f", .object [])]),
  ("e", .object [("g", .null)])]

def crossedBelow : Value :=
  .object [("a", .object [("b", .bool true), ("c", .object [("d", .null)])]), ("e", .string "x")]

theorem overlay_shows_crossed :
    (crossedBelow.overlay crossed).at? ["a", "b"] = some (.bool true) ∧
      (crossedBelow.overlay crossed).at? ["a", "c"] = some (.array [.null]) ∧
      (crossedBelow.overlay crossed).at? ["a", "c", "d"] = none ∧
      (crossedBelow.overlay crossed).at? ["e"] = some (.object [("g", .null)]) ∧
      (crossedBelow.overlay crossed).overlay crossed = crossedBelow.overlay crossed := by
  have hbelow : crossedBelow.Tidy := tidy_document
    (s := Text.bytes "\x7b\"a\":\x7b\"b\":true,\"c\":\x7b\"d\":null\x7d\x7d,\"e\":\"x\"\x7d") rfl
  have habove : crossed.Tidy := tidy_document
    (s := Text.bytes "\x7b\"a\":\x7b\"c\":[null],\"f\":\x7b\x7d\x7d,\"e\":\x7b\"g\":null\x7d\x7d") rfl
  obtain ⟨hpath, hagain, -⟩ := overlay_shows hbelow habove
  have hlist : ¬ (Value.array [.null]).IsObject := fun ⟨_, h⟩ => nomatch h
  refine ⟨(hpath _ _).2 ?_, (hpath _ _).2 (.upper rfl hlist),
    (hpath _ _).2 (.hidden (q := ["a", "c"]) rfl hlist), (hpath _ _).2 (.alone rfl ⟨_, rfl⟩ ?_),
    hagain⟩
  · exact .through (q := ["a"]) (r := []) rfl ⟨_, rfl⟩ rfl rfl ⟨_, rfl⟩
  · intro y hy
    cases hy
    exact fun ⟨_, h⟩ => nomatch h

end Switchboard.Json
