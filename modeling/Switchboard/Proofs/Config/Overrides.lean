import Mathlib.Data.List.Pairwise
import Switchboard.Proofs.Config.Precedence

/-!
# Fields that are set by variables

A variable names the field that it sets by the pieces between double underscores behind its start
(`Sets`).  Such a variable counts at its path unless a later one runs together with it, and nowhere
else; variables for paths that are apart can come in any order.

    Sets var.1 p, later paths apart from p → (applyOverrides v (l ++ var :: l')).at? p = its value
    p apart from all paths → (applyOverrides v env).at? p = v.at? p
    all paths apart, env' a permutation of env → applyOverrides v env' = applyOverrides v env
-/

namespace Switchboard.Config

open Json

/-! ## Specification -/

/-- No two underscores stand side by side. -/
def NoPair (cs : List Char) : Prop := ¬ ['_', '_'] <:+: cs

/-- A text is cut at each first pair of underscores; the pieces do not hold them. -/
inductive Cut : List Char → List String → Prop
  | whole {piece : List Char} (h : NoPair piece) : Cut piece [String.ofList piece]
  | pair {piece rest : List Char} {pieces : List String} (h : NoPair (piece ++ ['_']))
    (hr : Cut rest pieces) :
    Cut (piece ++ '_' :: '_' :: rest) (String.ofList piece :: pieces)

/-- The variable of this name sets the field at the path: the path is made of the pieces behind its
start, in lower case and without the empty ones, and is not empty. -/
def Sets (name : String) (p : List String) : Prop :=
  ∃ rest pieces, name.toList = overrideStart ++ rest ∧ Cut rest pieces ∧
    p = (pieces.filter (· ≠ "")).map Text.lowerAscii ∧ p ≠ []

/-- The name has not the start of those that set fields, or nothing but empty pieces behind it. -/
def SetsNothing (name : String) : Prop :=
  ¬ overrideStart <+: name.toList ∨
    ∃ rest pieces, name.toList = overrideStart ++ rest ∧ Cut rest pieces ∧ ∀ s ∈ pieces, s = ""

/-! ## Names -/

theorem noPair_short {cs : List Char} (h : cs.length < 2) : NoPair cs :=
  fun hpair => absurd hpair.length_le (Nat.not_le.2 h)

/-- No pair comes of a character behind others unless both are underscores. -/
theorem NoPair.snoc {cs : List Char} {c d : Char} (h : NoPair (cs ++ [c]))
    (hcd : c = '_' → d ≠ '_') : NoPair (cs ++ [c] ++ [d]) := by
  intro hpair
  rcases List.infix_concat_iff.1 hpair with hlast | hpair
  · obtain hnil | ⟨t, ht, hsuffix⟩ := List.suffix_concat_iff.1 hlast
    · cases hnil
    · have ht : ['_'] ++ ['_'] = t ++ [d] := ht
      obtain ⟨rfl, hd⟩ := List.append_inj' ht rfl
      obtain hnil | ⟨t, ht, -⟩ := List.suffix_concat_iff.1 hsuffix
      · cases hnil
      · have ht : [] ++ ['_'] = t ++ [c] := ht
        obtain ⟨-, hc⟩ := List.append_inj' ht rfl
        exact hcd (List.cons.inj hc).1.symm (List.cons.inj hd).1.symm
  · exact h hpair

/-- Behind a piece that is held back to front, a text is cut as it should be. -/
theorem cut_splitDouble {piece cs : List Char} (h : NoPair (piece.reverse ++ cs.take 1)) :
    Cut (piece.reverse ++ cs) (splitDouble piece cs) := by
  induction piece, cs using splitDouble.induct with
  | case1 piece =>
    rw [splitDouble]
    rw [List.take_nil] at h
    rw [List.append_nil] at h ⊢
    exact .whole h
  | case2 piece rest ih =>
    rw [splitDouble]
    exact .pair h (ih (noPair_short (Nat.lt_succ_of_le (List.length_take_le 1 rest))))
  | case3 piece c rest hother ih =>
    have hsnoc : piece.reverse ++ c :: rest = (c :: piece).reverse ++ rest := by simp
    rw [splitDouble.eq_3 _ _ _ hother, hsnoc]
    refine ih ?_
    rw [List.reverse_cons]
    cases rest with
    | nil =>
      rw [List.take_nil, List.append_nil]
      exact h
    | cons d rest => exact h.snoc fun hc hd => hother rest hc (hd ▸ rfl)

/-- A piece is passed over as a whole. -/
theorem splitDouble_append {piece rest : List Char} (acc : List Char)
    (h : NoPair (piece ++ rest.take 1)) :
    splitDouble acc (piece ++ rest) = splitDouble (piece.reverse ++ acc) rest := by
  induction piece generalizing acc with
  | nil => rfl
  | cons c piece ih =>
    have hother : ∀ tail, c = '_' → piece ++ rest = '_' :: tail → False := by
      rintro tail rfl htail
      refine h (List.IsPrefix.isInfix ?_)
      cases piece with
      | nil =>
        rw [List.nil_append] at htail
        rw [htail]
        exact List.prefix_rfl
      | cons d piece =>
        rw [(List.cons.inj htail).1]
        exact ⟨piece ++ rest.take 1, rfl⟩
    have hinfix : piece ++ rest.take 1 <:+: c :: piece ++ rest.take 1 := ⟨[c], [], by simp⟩
    rw [List.cons_append, splitDouble.eq_3 _ _ _ hother, ih _ fun hpair => h (hpair.trans hinfix),
      List.reverse_cons, List.append_assoc]
    rfl

theorem cut_iff {cs : List Char} {pieces : List String} :
    Cut cs pieces ↔ splitDouble [] cs = pieces := by
  constructor
  · intro h
    induction h with
    | @whole piece h =>
      have hpiece : splitDouble [] (piece ++ []) = splitDouble (piece.reverse ++ []) [] :=
        splitDouble_append [] (by simpa using h)
      simpa [splitDouble] using hpiece
    | @pair piece rest pieces h _ ih =>
      rw [splitDouble_append [] h, splitDouble, ih]
      simp
  · rintro rfl
    have hshort : NoPair ([].reverse ++ cs.take 1) :=
      noPair_short (Nat.lt_succ_of_le (List.length_take_le 1 cs))
    exact cut_splitDouble hshort

section Names

variable {name : String} {p : List String}

theorem overridePath_of_start {rest : List Char} {pieces : List String}
    (hname : name.toList = overrideStart ++ rest) (hcut : Cut rest pieces) :
    overridePath name = (pieces.filter (· ≠ "")).map Text.lowerAscii := by
  have hstart : overrideStart.isPrefixOf name.toList = true :=
    List.isPrefixOf_iff_prefix.2 ⟨rest, hname.symm⟩
  rw [overridePath, if_pos hstart, hname, List.drop_left, cut_iff.1 hcut]

theorem overridePath_of_not_start (h : ¬ overrideStart <+: name.toList) : overridePath name = [] :=
  if_neg fun hstart => h (List.isPrefixOf_iff_prefix.1 hstart)

/-- **The path of a variable** is the one that its name spells. -/
theorem sets_iff : Sets name p ↔ overridePath name = p ∧ p ≠ [] := by
  constructor
  · rintro ⟨rest, pieces, hname, hcut, rfl, hne⟩
    exact ⟨overridePath_of_start hname hcut, hne⟩
  · rintro ⟨rfl, hne⟩
    by_cases hstart : overrideStart <+: name.toList
    · obtain ⟨rest, hname⟩ := hstart
      have hcut := cut_iff.2 (Eq.refl (splitDouble [] rest))
      exact ⟨rest, _, hname.symm, hcut, overridePath_of_start hname.symm hcut, hne⟩
    · exact absurd (overridePath_of_not_start hstart) hne

instance (name : String) (p : List String) : Decidable (Sets name p) := decidable_of_iff' _ sets_iff

theorem overridePath_of_setsNothing (h : SetsNothing name) : overridePath name = [] := by
  obtain hstart | ⟨rest, pieces, hname, hcut, hempty⟩ := h
  · exact overridePath_of_not_start hstart
  · have hnone : pieces.filter (· ≠ "") = [] :=
      List.filter_eq_nil_iff.2 fun s hs hd => of_decide_eq_true hd (hempty s hs)
    rw [overridePath_of_start hname hcut, hnone]
    rfl

end Names

/-! ## Variables one after another -/

section Order

variable {v : Value} {p : List String} {env env' : Env} {var : String × String}

theorem applyOverrides_append (v : Value) (env env' : Env) :
    applyOverrides v (env ++ env') = applyOverrides (applyOverrides v env) env' :=
  List.foldl_append

/-- Variables for paths that are apart from a path are not seen there. -/
theorem at?_applyOverrides_apart (v : Value) (h : ∀ x ∈ env, ∀ q, Sets x.1 q → Apart p q) :
    (applyOverrides v env).at? p = v.at? p := by
  induction env generalizing v with
  | nil => rfl
  | cons var env ih =>
    have hvar : overridePath var.1 ≠ [] → Apart p (overridePath var.1) := fun hne =>
      h var List.mem_cons_self _ (sets_iff.2 ⟨rfl, hne⟩)
    have hrest := ih (applyOverride v var) fun x hx => h x (List.mem_cons_of_mem var hx)
    exact hrest.trans (at?_applyOverride_apart v hvar)

/-- A variable counts unless a later one runs together with it. -/
theorem at?_applyOverrides_last (v : Value) (before after : Env) (hvar : Sets var.1 p)
    (h : ∀ x ∈ after, ∀ q, Sets x.1 q → Apart p q) :
    (applyOverrides v (before ++ var :: after)).at? p = some (scalar (Text.trim var.2)) := by
  obtain ⟨hpath, hp⟩ := sets_iff.1 hvar
  rw [applyOverrides_append]
  refine (at?_applyOverrides_apart _ h).trans ?_
  rw [applyOverride_of_path _ hpath hp, Value.at?_place_self]

/-- Variables for paths that are apart can come in either order. -/
theorem applyOverride_comm (v : Value) {x y : String × String}
    (h : ∀ p q, Sets x.1 p → Sets y.1 q → Apart p q) :
    applyOverride (applyOverride v x) y = applyOverride (applyOverride v y) x := by
  by_cases hx : overridePath x.1 = []
  · rw [applyOverride_of_nil _ hx, applyOverride_of_nil _ hx]
  · by_cases hy : overridePath y.1 = []
    · rw [applyOverride_of_nil _ hy, applyOverride_of_nil _ hy]
    · rw [applyOverride_of_path v rfl hx, applyOverride_of_path _ rfl hy,
        applyOverride_of_path v rfl hy, applyOverride_of_path _ rfl hx]
      exact v.place_place_of_apart _ _ (h _ _ (sets_iff.2 ⟨rfl, hx⟩) (sets_iff.2 ⟨rfl, hy⟩))

/-- **The order of variables for paths that are apart does not count.** -/
theorem applyOverrides_perm (v : Value) (hperm : env.Perm env')
    (h : env.Pairwise fun x y => ∀ p q, Sets x.1 p → Sets y.1 q → Apart p q) :
    applyOverrides v env = applyOverrides v env' := by
  have : Std.Symm fun x y : String × String => ∀ p q, Sets x.1 p → Sets y.1 q → Apart p q :=
    ⟨fun x y hxy p q hp hq => (hxy q p hq hp).symm⟩
  refine hperm.foldl_eq' (fun x hx y hy w => ?_) v
  by_cases hxy : x = y
  · rw [hxy]
  · exact applyOverride_comm w (h.forall hx hy hxy)

end Order

/-! ## Settings -/

/-- The variables that say where documents are. -/
def sourceVariables : List String := [pathVariable, stdinVariable, documentVariable]

section Load

variable {env env' : Env} {name : String}

theorem get?_eq_head? (env : Env) (name : String) :
    env.get? name = ((env.filter (·.1 = name)).head?).map Prod.snd := by
  induction env with
  | nil => rfl
  | cons var env ih =>
    obtain ⟨k, value⟩ := var
    unfold Env.get? at ih ⊢
    by_cases hk : k = name
    · subst hk
      simp
    · have hbeq : (name == k) = false := beq_false_of_ne (Ne.symm hk)
      rw [List.lookup_cons, hbeq, List.filter_cons, if_neg (by simpa using hk)]
      exact ih

theorem eq_of_perm_of_short {α : Type} {l l' : List α} (hperm : l.Perm l') (h : l.length ≤ 1) :
    l = l' :=
  match l, h with
  | [], _ => hperm.nil_eq
  | [_], _ => hperm.singleton_eq

/-- What is set at most once is found in any order. -/
theorem get?_perm (hperm : env.Perm env') (h : (env.map Prod.fst).count name ≤ 1) :
    env'.get? name = env.get? name := by
  have hlength : (env.filter (·.1 = name)).length ≤ 1 := by
    rw [List.count, List.countP_map, List.countP_eq_length_filter] at h
    refine Nat.le_trans (Nat.le_of_eq (congrArg List.length (List.filter_congr fun x _ => ?_))) h
    rfl
  have hsame := eq_of_perm_of_short (hperm.filter fun x => decide (x.1 = name)) hlength
  rw [get?_eq_head?, get?_eq_head?, hsame]

theorem load_perm (s : Sources) (hperm : s.env.Perm env')
    (h : s.env.Pairwise fun x y => ∀ p q, Sets x.1 p → Sets y.1 q → Apart p q)
    (honce : ∀ name ∈ sourceVariables, (s.env.map Prod.fst).count name ≤ 1) :
    load { s with env := env' } = load s := by
  have hget : ∀ name ∈ sourceVariables, env'.get? name = s.env.get? name :=
    fun name hname => get?_perm hperm (honce name hname)
  have hlayers : layers { s with env := env' } = layers s := by
    unfold layers documentPaths readsStdin
    rw [hget pathVariable (by decide), hget stdinVariable (by decide),
      hget documentVariable (by decide)]
  have hmerged : merged { s with env := env' } = merged s := by
    unfold merged
    rw [hlayers]
    show (applyOverrides ((layers s).foldl lay (defaults, [])).1 env', _) =
      (applyOverrides ((layers s).foldl lay (defaults, [])).1 s.env, _)
    rw [applyOverrides_perm _ hperm h]
  unfold load
  rw [hmerged]

end Load

/-! ## Top theorem -/

/-- **Fields that are set by variables.**  A variable whose name has another start, or only empty
pieces behind it, has no effect.  At the path of a variable stands its value, unless a later one is
for the same path, a part of it or a path beyond it.  A path that is apart from all of them holds
what it held.  If all of them are apart from each other, their order does not count, neither for the
document nor for what is loaded, as long as no variable that says where documents are is set more
than once. -/
theorem overrides_by_path :
    (∀ (v : Value) (before after : Env) (var : String × String), SetsNothing var.1 →
      applyOverrides v (before ++ var :: after) = applyOverrides v (before ++ after)) ∧
    (∀ (v : Value) (before after : Env) (var : String × String) (p : List String), Sets var.1 p →
      (∀ x ∈ after, ∀ q, Sets x.1 q → Apart p q) →
      (applyOverrides v (before ++ var :: after)).at? p = some (scalar (Text.trim var.2))) ∧
    (∀ (v : Value) (env : Env) (p : List String), (∀ x ∈ env, ∀ q, Sets x.1 q → Apart p q) →
      (applyOverrides v env).at? p = v.at? p) ∧
    (∀ (v : Value) (env env' : Env), env.Perm env' →
      (env.Pairwise fun x y => ∀ p q, Sets x.1 p → Sets y.1 q → Apart p q) →
      applyOverrides v env = applyOverrides v env') ∧
    ∀ (s : Sources) (env' : Env), s.env.Perm env' →
      (s.env.Pairwise fun x y => ∀ p q, Sets x.1 p → Sets y.1 q → Apart p q) →
      (∀ name ∈ sourceVariables, (s.env.map Prod.fst).count name ≤ 1) →
      load { s with env := env' } = load s := by
  refine ⟨fun v before after var h => ?_,
    fun v before after _ _ => at?_applyOverrides_last v before after,
    fun v _ _ => at?_applyOverrides_apart v, fun v _ _ => applyOverrides_perm v,
    fun s _ => load_perm s⟩
  have hvar : applyOverrides (applyOverrides v before) (var :: after) =
      applyOverrides (applyOverride (applyOverrides v before) var) after := rfl
  rw [applyOverrides_append, applyOverrides_append, hvar,
    applyOverride_of_nil _ (overridePath_of_setsNothing h)]

/-- Two fields, one of them where a number stands in the way, and a name with nothing in it. -/
def scattered : Env :=
  [("SIGNAL_RELAY__RELAY__Ping", " 3 "), ("SIGNAL_RELAY____", "x"), (stdinVariable, "no"),
    ("SIGNAL_RELAY__host___", "::1")]

/-- A number where an object is wanted, and a member that no variable is for. -/
def obstructed : Value := .object [("port", .bool false), ("relay", .string "7")]

theorem overrides_scattered :
    (applyOverrides obstructed scattered).at? ["relay", "ping"] = some (scalar "3") ∧
      (applyOverrides obstructed scattered).at? ["port"] = some (.bool false) ∧
      applyOverrides obstructed scattered = applyOverrides obstructed (scattered.eraseIdx 1) ∧
      applyOverrides obstructed scattered = applyOverrides obstructed scattered.reverse ∧
      load { env := scattered.reverse } = load { env := scattered } := by
  obtain ⟨hnothing, hlast, hapart, hperm, hload⟩ := overrides_by_path
  have apart : ∀ {env : Env} {p : List String},
      (∀ x ∈ env, overridePath x.1 ≠ [] → Apart p (overridePath x.1)) →
      ∀ x ∈ env, ∀ q, Sets x.1 q → Apart p q := by
    rintro env p h x hx q hq
    obtain ⟨rfl, hne⟩ := sets_iff.1 hq
    exact h x hx hne
  have hpairs : scattered.Pairwise fun x y => ∀ p q, Sets x.1 p → Sets y.1 q → Apart p q := by
    have hpaths : scattered.Pairwise fun x y => overridePath x.1 ≠ [] → overridePath y.1 ≠ [] →
        Apart (overridePath x.1) (overridePath y.1) := by decide +kernel
    refine hpaths.imp fun {x y} h p q hp hq => ?_
    obtain ⟨rfl, hp⟩ := sets_iff.1 hp
    obtain ⟨rfl, hq⟩ := sets_iff.1 hq
    exact h hp hq
  have hempty : SetsNothing "SIGNAL_RELAY____" :=
    .inr ⟨['_', '_'], ["", ""], rfl, cut_iff.2 rfl, by decide⟩
  have hsets : Sets "SIGNAL_RELAY__RELAY__Ping" ["relay", "ping"] := by decide +kernel
  exact ⟨hlast obstructed [] scattered.tail _ _ hsets (apart (by decide +kernel)),
    hapart obstructed scattered ["port"] (apart (by decide +kernel)),
    hnothing obstructed (scattered.take 1) (scattered.drop 2) ("SIGNAL_RELAY____", "x") hempty,
    hperm obstructed scattered _ (List.reverse_perm scattered).symm hpairs,
    hload { env := scattered } _ (List.reverse_perm scattered).symm hpairs (by decide +kernel)⟩

end Switchboard.Config
