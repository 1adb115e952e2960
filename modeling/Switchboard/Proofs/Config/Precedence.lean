import Switchboard.Config.Layers
import Switchboard.Proofs.Json.Meanings
import Switchboard.Proofs.Json.Texts

/-!
# Which source a setting comes from

There are five places that a document can come from (`Place`).  What each of them gives is used if it
is a document, and passed over otherwise; the documents lie over each other and over the defaults,
and the overrides lie over all of them.

    (merged s).1.at? p = the last override of p, or the highest document's p, or defaults.at? p
    s.given k, s'.given k passed over or the same → (merged s').1 = (merged s).1
-/

namespace Switchboard.Config

open Json

/-! ## Specification -/

/-- Where a document may come from. -/
inductive Place where
  | beside
  | here
  | named
  | input
  | inline
  deriving DecidableEq, Repr

/-- All places, the one that counts most in front. -/
def places : List Place := [.inline, .input, .named, .here, .beside]

/-- What a named file gives, if it is there. -/
def fileGiven (fs : Files) (path : String) : Option (Except FileError String) :=
  if path ≠ "" && fs.exists? path then some (fs.readText path) else none

/-- What a place gives: nothing, something that cannot be read, or a text. -/
def Sources.given (s : Sources) : Place → Option (Except FileError String)
  | .beside => s.beside.map fun f => decoded f.2
  | .here => fileGiven s.files "config.json"
  | .named => (s.env.get? pathVariable).bind (fileGiven s.files)
  | .input => if readsStdin s.env then some (decoded s.stdin) else none
  | .inline => (s.env.get? documentVariable).map .ok

/-- The document that a text is, if it is not blank. -/
def usable : Except FileError String → Option Value
  | .error _ => none
  | .ok text => if Text.isAllBlank text then none else (document (Text.bytes text)).toOption

/-- What a place gives is passed over: there is nothing, it cannot be read, or it is blank or no
document. -/
inductive PassedOver : Option (Except FileError String) → Prop
  | missing : PassedOver none
  | unreadable (e : FileError) : PassedOver (some (.error e))
  | blank {text : String} (h : Text.isAllBlank text = true) : PassedOver (some (.ok text))
  | malformed {text : String} (h : ∀ v, ¬ DocumentText Stands v (Text.bytes text)) :
    PassedOver (some (.ok text))

/-- The value that is taken of what a place gives: what its text says, if it is a document, and
something at any rate if all numbers in it are within the doubles. -/
structure Gives (g : Option (Except FileError String)) (d : Option Value) : Prop where
  said : ∀ v, d = some v → ∃ text, g = some (.ok text) ∧ Text.isAllBlank text = false ∧
    DocumentText Stands v (Text.bytes text)
  taken : ∀ text v, g = some (.ok text) → Text.isAllBlank text = false →
    DocumentText Held v (Text.bytes text) → d.isSome = true

/-- The document of a place, if it gives any. -/
def Sources.document? (s : Sources) (k : Place) : Option Value := (s.given k).bind usable

/-- What the highest of the documents has at a path that has anything there. -/
def highest (doc : Place → Option Value) (p : List String) : Option Value :=
  places.findSome? fun k => (doc k).bind fun v => v.at? p

/-- The variables that set fields. -/
def overrides (env : Env) : Env := env.filter fun var => overridePath var.1 ≠ []

/-- The value that the last variable for a path gives it. -/
def overrideOf (env : Env) (p : List String) : Option Value :=
  ((env.filter fun var => overridePath var.1 = p).getLast?).map fun var => scalar (Text.trim var.2)

/-! ## Documents -/

theorem PassedOver.usable {g : Option (Except FileError String)} (h : PassedOver g) :
    g.bind usable = none := by
  cases h with
  | missing => rfl
  | unreadable => rfl
  | blank h => exact if_pos h
  | @malformed text h =>
    show (if _ then none else (document _).toOption) = none
    obtain ⟨p, hp⟩ := document_eq_error h
    rw [hp]
    split <;> rfl

theorem usable_eq_some_iff {text : String} {v : Value} : usable (.ok text) = some v ↔
    Text.isAllBlank text = false ∧ document (Text.bytes text) = .ok v := by
  rw [usable]
  cases Text.isAllBlank text with
  | true => simp
  | false => cases document (Text.bytes text) <;> simp [Except.toOption]

/-- What is used of a place is what its text says. -/
theorem gives_document? (s : Sources) (k : Place) : Gives (s.given k) (s.document? k) := by
  constructor
  · intro v hv
    obtain ⟨c, hc, hused⟩ := Option.bind_eq_some_iff.1 hv
    cases c with
    | error e => cases hused
    | ok text =>
      obtain ⟨hblank, hread⟩ := usable_eq_some_iff.1 hused
      exact ⟨text, hc, hblank, documentText_of_document hread⟩
  · intro text v hgiven hblank hv
    obtain ⟨w, hw⟩ := document_of_documentText hv
    have hused : s.document? k = some w := by
      rw [Sources.document?, hgiven]
      exact usable_eq_some_iff.2 ⟨hblank, hw⟩
    rw [hused]
    rfl

/-- All documents that are used, the lowest first. -/
def Sources.documents (s : Sources) : List Value := places.reverse.filterMap s.document?

theorem lay_document (acc : Value × List Notice) (l : Layer) :
    (lay acc l).1 = match usable l.content with
      | some v => acc.1.overlay v
      | none => acc.1 := by
  unfold lay Layer.value usable
  cases l.content with
  | error e => rfl
  | ok text =>
    by_cases hb : Text.isAllBlank text = true
    · simp only [hb, if_true]
    · simp only [hb, if_false, Bool.false_eq_true]
      cases document (Text.bytes text) <;> rfl

/-- Layers are laid over what lies below them as far as they are documents. -/
theorem foldl_lay (ls : List Layer) (acc : Value × List Notice) :
    (ls.foldl lay acc).1 = ((ls.map Layer.content).filterMap usable).foldl Value.overlay acc.1 := by
  induction ls generalizing acc with
  | nil => rfl
  | cons l ls ih =>
    rw [List.foldl_cons, ih, lay_document, List.map_cons, List.filterMap_cons]
    cases usable l.content <;> rfl

theorem content_fileLayer (fs : Files) (path : String) :
    (fileLayer fs path).map Layer.content = (fileGiven fs path).toList := by
  unfold fileLayer fileGiven
  split <;> rfl

/-- The layers are what the places give, the lowest first. -/
theorem content_layers (s : Sources) :
    (layers s).map Layer.content = places.reverse.filterMap s.given := by
  have hinput : (if readsStdin s.env then [(⟨.stdin, decoded s.stdin⟩ : Layer)] else []).map
      Layer.content = (s.given .input).toList := by
    simp only [Sources.given]
    split <;> rfl
  have hnamed : ((s.env.get? pathVariable).toList.flatMap (fileLayer s.files)).map Layer.content =
      (s.given .named).toList := by
    simp only [Sources.given]
    cases s.env.get? pathVariable with
    | none => rfl
    | some path =>
      rw [Option.toList_some, List.flatMap_singleton, content_fileLayer]
      rfl
  have hhere : (fileLayer s.files "config.json").map Layer.content = (s.given .here).toList :=
    content_fileLayer s.files "config.json"
  have hplaces : places.reverse.filterMap s.given = (s.given .beside).toList ++
      ((s.given .here).toList ++ ((s.given .named).toList ++ ((s.given .input).toList ++
        (s.given .inline).toList))) := by
    show [Place.beside, .here, .named, .input, .inline].filterMap s.given = _
    simp only [List.filterMap_cons, List.filterMap_nil]
    cases s.given .beside <;> cases s.given .here <;> cases s.given .named <;>
      cases s.given .input <;> cases s.given .inline <;> rfl
  have hfiles : ((documentPaths s.env).flatMap (fileLayer s.files)).map Layer.content =
      (s.given .here).toList ++ (s.given .named).toList := by
    rw [documentPaths, List.flatMap_cons, List.map_append, hhere, hnamed]
  rw [layers, List.map_append, List.map_append, List.map_append, hfiles, hinput, hplaces]
  simp only [List.append_assoc]
  congr 1
  · simp only [Sources.given]
    cases s.beside <;> rfl
  · congr 3
    simp only [Sources.given]
    cases s.env.get? documentVariable <;> rfl

/-- **All sources in one document**: the usable ones over the defaults, and then the overrides. -/
theorem merged_eq (s : Sources) :
    (merged s).1 = applyOverrides (s.documents.foldl Value.overlay defaults) s.env := by
  have hdocuments : (places.reverse.filterMap s.given).filterMap usable = s.documents :=
    List.filterMap_filterMap
  unfold merged
  show applyOverrides ((layers s).foldl lay (defaults, [])).1 s.env = _
  rw [foldl_lay, content_layers, hdocuments]

theorem tidy_usable {c : Except FileError String} {v : Value} (h : usable c = some v) : v.Tidy := by
  unfold usable at h
  split at h
  · cases h
  · split at h
    · cases h
    · cases hd : document (Text.bytes _) with
      | error e =>
        rw [hd] at h
        cases h
      | ok u =>
        rw [hd] at h
        obtain rfl := Option.some.inj h
        exact tidy_document hd

theorem mem_documents {s : Sources} {v : Value} (h : v ∈ s.documents) :
    ∃ k, s.document? k = some v := by
  obtain ⟨k, -, hk⟩ := List.mem_filterMap.1 h
  exact ⟨k, hk⟩

theorem tidy_of_mem_documents {s : Sources} {v : Value} (h : v ∈ s.documents) : v.Tidy := by
  obtain ⟨k, hk⟩ := mem_documents h
  obtain ⟨c, -, hc⟩ := Option.bind_eq_some_iff.1 hk
  exact tidy_usable hc

/-! ## Values at a path -/

/-- Of documents over each other, the highest counts that has anything at the path. -/
theorem at?_foldl_overlay {p : List String} (docs : List Value) (w : Value)
    (h : ∀ v ∈ docs, v.Tidy ∧ v.Fits p) :
    (docs.foldl Value.overlay w).at? p =
      (docs.reverse.findSome? fun v => v.at? p).or (w.at? p) := by
  induction docs generalizing w with
  | nil => rfl
  | cons u docs ih =>
    obtain ⟨htidy, hfits⟩ := h u List.mem_cons_self
    rw [List.foldl_cons, ih _ fun v hv => h v (List.mem_cons_of_mem u hv),
      Value.at?_overlay w htidy hfits, List.reverse_cons, List.findSome?_append,
      List.findSome?_singleton, Option.or_assoc]

theorem findSome?_documents (s : Sources) (p : List String) :
    (s.documents.reverse.findSome? fun v => v.at? p) = highest s.document? p := by
  unfold Sources.documents highest
  rw [← List.filterMap_reverse, List.reverse_reverse, ← List.head?_filterMap,
    List.filterMap_filterMap, List.head?_filterMap]

section Overrides

variable {var : String × String} {p : List String}

theorem applyOverride_of_nil (v : Value) (h : overridePath var.1 = []) :
    applyOverride v var = v := by
  unfold applyOverride
  rw [h]

theorem applyOverride_of_path (v : Value) (h : overridePath var.1 = p) (hp : p ≠ []) :
    applyOverride v var = v.place p (scalar (Text.trim var.2)) := by
  unfold applyOverride
  rw [h]
  cases p with
  | nil => exact absurd rfl hp
  | cons => rfl

/-- A variable is not seen from elsewhere. -/
theorem at?_applyOverride_apart (v : Value)
    (h : overridePath var.1 ≠ [] → Apart p (overridePath var.1)) :
    (applyOverride v var).at? p = v.at? p := by
  by_cases hpath : overridePath var.1 = []
  · rw [applyOverride_of_nil v hpath]
  · rw [applyOverride_of_path v rfl hpath, v.at?_place_apart _ (h hpath)]

end Overrides

/-- Of the variables, the last counts that sets the path. -/
theorem at?_applyOverrides {p : List String} (hp : p ≠ []) (env : Env) (v : Value)
    (h : ∀ var ∈ env, overridePath var.1 ≠ [] →
      overridePath var.1 = p ∨ Apart p (overridePath var.1)) :
    (applyOverrides v env).at? p = (overrideOf env p).or (v.at? p) := by
  induction env generalizing v with
  | nil => rfl
  | cons var env ih =>
    have hrest := ih (applyOverride v var) fun x hx => h x (List.mem_cons_of_mem var hx)
    have hfold : applyOverrides v (var :: env) = applyOverrides (applyOverride v var) env := rfl
    rw [hfold, hrest]
    unfold overrideOf
    by_cases hvar : overridePath var.1 = p
    · rw [List.filter_cons, if_pos (decide_eq_true hvar), List.getLast?_cons,
        applyOverride_of_path v hvar hp, Value.at?_place_self]
      cases (env.filter fun var => overridePath var.1 = p).getLast? <;> rfl
    · have hkept : (applyOverride v var).at? p = v.at? p :=
        at?_applyOverride_apart v fun hpath =>
          (h var List.mem_cons_self hpath).resolve_left hvar
      have hskip : ¬ decide (overridePath var.1 = p) = true := fun hd => hvar (of_decide_eq_true hd)
      rw [List.filter_cons, if_neg hskip, hkept]

/-- Only the variables that set fields are looked at. -/
theorem applyOverrides_eq (v : Value) (env : Env) :
    applyOverrides v env = applyOverrides v (overrides env) := by
  induction env generalizing v with
  | nil => rfl
  | cons var env ih =>
    have hfold : applyOverrides v (var :: env) = applyOverrides (applyOverride v var) env := rfl
    rw [hfold, ih]
    unfold overrides
    by_cases hvar : overridePath var.1 = []
    · have hskip : ¬ decide (overridePath var.1 ≠ []) = true := fun hd =>
        of_decide_eq_true hd hvar
      rw [List.filter_cons, if_neg hskip, applyOverride_of_nil v hvar]
    · rw [List.filter_cons, if_pos (decide_eq_true hvar)]
      rfl

/-- It does not matter what the places give that are passed over. -/
theorem documents_eq {s s' : Sources}
    (h : ∀ k, s'.given k = s.given k ∨ PassedOver (s'.given k) ∧ PassedOver (s.given k)) :
    s'.documents = s.documents := by
  have hall : s'.document? = s.document? := by
    funext k
    unfold Sources.document?
    obtain hk | ⟨hpassed', hpassed⟩ := h k
    · rw [hk]
    · rw [hpassed'.usable, hpassed.usable]
  unfold Sources.documents
  rw [hall]

theorem at?_merged (s : Sources) {p : List String} (hp : p ≠ [])
    (hdocuments : ∀ k v, s.document? k = some v → v.Fits p)
    (hoverrides : ∀ var ∈ s.env, overridePath var.1 ≠ [] →
      overridePath var.1 = p ∨ Apart p (overridePath var.1)) :
    (merged s).1.at? p =
      (overrideOf s.env p).or ((highest s.document? p).or (defaults.at? p)) := by
  have hfits : ∀ v ∈ s.documents, v.Tidy ∧ v.Fits p := by
    intro v hv
    obtain ⟨k, hk⟩ := mem_documents hv
    exact ⟨tidy_of_mem_documents hv, hdocuments k v hk⟩
  rw [merged_eq, at?_applyOverrides hp s.env _ hoverrides, at?_foldl_overlay s.documents _ hfits,
    findSome?_documents]

theorem merged_of_passedOver {s s' : Sources} (henv : overrides s'.env = overrides s.env)
    (h : ∀ k, s'.given k = s.given k ∨ PassedOver (s'.given k) ∧ PassedOver (s.given k)) :
    (merged s').1 = (merged s).1 := by
  rw [merged_eq, merged_eq, documents_eq h, applyOverrides_eq, henv, ← applyOverrides_eq]

/-- What is loaded depends on the merged document alone. -/
theorem load_settings (s : Sources) : (load s).1 = (ofDocument (merged s).1).1 := rfl

/-! ## Variables as they stand -/

/-- Of variables that are all texts the first of each name is seen. -/
theorem get?_of_texts {b : Block} {env : Env} (h : b.texts? = some env) (name : String) :
    b.get? name = env.get? name := by
  induction b generalizing env with
  | nil =>
    cases h
    rfl
  | cons var b ih =>
    obtain ⟨n, v⟩ := var
    rw [Block.texts?, List.mapM_cons] at h
    obtain ⟨⟨n', v'⟩, hvar, h⟩ := Option.bind_eq_some_iff.1 h
    obtain ⟨rest, hrest, h⟩ := Option.bind_eq_some_iff.1 h
    cases h
    obtain ⟨m, hm, hpair⟩ := Option.bind_eq_some_iff.1 hvar
    obtain ⟨x, hx, heq⟩ := Option.map_eq_some_iff.1 hpair
    cases heq
    obtain rfl := Text.bytes_of_text? hm
    have hsame : (Text.bytes name == Text.bytes n') = (name == n') := by
      rw [Bool.eq_iff_iff, beq_iff_eq, beq_iff_eq]
      refine ⟨fun h => ?_, congrArg Text.bytes⟩
      have htext := congrArg Text.text? h
      rwa [Text.text?_bytes, Text.text?_bytes, Option.some.injEq] at htext
    have ih' := ih hrest
    rw [Block.get?, Env.get?] at ih' ⊢
    rw [List.lookup_cons, List.lookup_cons, hsame]
    cases name == n' with
    | true => exact hx
    | false => exact ih'

/-- What some names are given by `f` is found under them. -/
theorem lookup_filterMap (f : String → Option String) (names : List String) (name : String) :
    (names.filterMap fun n => (f n).map fun value => (n, value)).lookup name =
      if name ∈ names then f name else none := by
  induction names with
  | nil => rfl
  | cons n names ih =>
    by_cases hname : name = n
    · subst hname
      rw [if_pos List.mem_cons_self, List.filterMap_cons]
      cases hf : f name with
      | none => simpa [hf] using ih
      | some value => exact List.lookup_cons_self
    · simp only [List.filterMap_cons, List.mem_cons, hname, false_or]
      cases f n with
      | none => exact ih
      | some value =>
        rw [← ih, Option.map_some, List.lookup_cons, beq_false_of_ne hname]

theorem get?_named (b : Block) {name : String}
    (h : name ∈ [pathVariable, stdinVariable, documentVariable]) :
    b.named.get? name = b.get? name :=
  (lookup_filterMap b.get? _ name).trans (if_pos h)

/-- **The documents are found by name** before the variables are looked through, and they are the
same. -/
theorem given_named (s : Sources) {b : Block} (h : b.texts? = some s.env) (k : Place) :
    Sources.given { s with env := b.named } k = s.given k := by
  have seen : ∀ name ∈ [pathVariable, stdinVariable, documentVariable],
      b.named.get? name = s.env.get? name :=
    fun name hname => (get?_named b hname).trans (get?_of_texts h name)
  cases k with
  | beside | here => rfl
  | named => simp only [Sources.given, seen pathVariable (by decide)]
  | input =>
    simp only [Sources.given, readsStdin, seen stdinVariable (by decide)]
    rfl
  | inline => simp only [Sources.given, seen documentVariable (by decide)]

/-! ## Top theorem -/

/-- **The order of the layers.**  The documents of the places are what the texts there say (`Gives`).
Where each of them has objects on a path and something else at its end, as far as it goes, and no
override is for a part of the path or runs beyond it, the value there is what the last override for
the path says, or else what the highest document says that says anything there, or else the default.
What is passed over, because it is missing, cannot be read, is blank or is no document, makes no
difference.  All this is about variables that are texts: where the variables as they stand are, they
are loaded so, and the places give the same whether their variables are looked up by name or found
among all. -/
theorem settings_by_precedence (s : Sources) :
    (∀ k, Gives (s.given k) (s.document? k)) ∧
    (∀ p, p ≠ [] → (∀ k v, s.document? k = some v → v.Fits p) →
      (∀ var ∈ s.env, overridePath var.1 ≠ [] →
        overridePath var.1 = p ∨ Apart p (overridePath var.1)) →
      (merged s).1.at? p =
        (overrideOf s.env p).or ((highest s.document? p).or (defaults.at? p))) ∧
    (∀ s' : Sources, overrides s'.env = overrides s.env →
      (∀ k, s'.given k = s.given k ∨ PassedOver (s'.given k) ∧ PassedOver (s.given k)) →
      (merged s').1 = (merged s).1 ∧ (load s').1 = (load s).1) ∧
    ∀ b : Block, b.texts? = some s.env → loadFrom s b = .loaded (load s).1 (load s).2 ∧
      ∀ k, Sources.given { s with env := b.named } k = s.given k := by
  refine ⟨gives_document? s, fun p => at?_merged s, fun s' henv h => ?_, fun b hb => ⟨?_, ?_⟩⟩
  · have hmerged := merged_of_passedOver henv h
    exact ⟨hmerged, by rw [load_settings, load_settings, hmerged]⟩
  · simp only [loadFrom, hb]
  · exact given_named s hb

/-- A file with a port and a host, two overrides for the port, and a text that is blank. -/
def contested : Sources where
  files := .ofList [] [("config.json", Text.bytes "\x7b\"port\":3,\"host\":\"::1\"\x7d")] []
  env := [("SIGNAL_RELAY__PORT", "1"), (documentVariable, " \n"),
    ("SIGNAL_RELAY__port", " 2 ")]

theorem settings_by_precedence_contested :
    (merged contested).1.at? ["port"] = some (scalar "2") ∧
      (merged contested).1.at? ["host"] = some (.string "::1") ∧
      (merged { contested with env := overrides contested.env }).1 = (merged contested).1 ∧
      loadFrom contested (contested.env.map fun var => (Text.bytes var.1, Text.bytes var.2)) =
        .loaded (load contested).1 (load contested).2 := by
  have fits : ∀ p, (∀ k ∈ places, (contested.document? k).all (fun v => decide (v.Fits p)) = true) →
      ∀ k v, contested.document? k = some v → v.Fits p := by
    intro p hall k v hv
    have hk := hall k (by cases k <;> decide)
    rw [hv] at hk
    exact of_decide_eq_true hk
  obtain ⟨-, hat, hsame, hblock⟩ := settings_by_precedence contested
  have hinline : PassedOver (contested.given .inline) := .blank (by decide +kernel)
  refine ⟨?_, ?_, (hsame { contested with env := overrides contested.env } rfl fun k => ?_).1,
    (hblock _ (by decide +kernel)).1⟩
  · refine (hat ["port"] (List.cons_ne_nil _ _) (fits _ (by decide +kernel))
      (by decide +kernel)).trans ?_
    rfl
  · refine (hat ["host"] (List.cons_ne_nil _ _) (fits _ (by decide +kernel))
      (by decide +kernel)).trans ?_
    rfl
  · cases k with
    | inline => exact .inr ⟨.missing, hinline⟩
    | _ => exact .inl rfl

/-- A number that is beyond all doubles, in an object that is well formed. -/
def beyond : String := "\x7b\"port\":1,\"x\":1e400\x7d"

/-- An object is passed over as a whole if a number in it is out of range. -/
theorem beyond_passedOver :
    ObjectText Strict [⟨"port", Text.bytes "1"⟩, ⟨"x", Text.bytes "1e400"⟩] (Text.bytes beyond) ∧
      Sources.given { env := [(documentVariable, beyond)] } .inline = some (.ok beyond) ∧
      (merged { env := [(documentVariable, beyond)] }).1.at? ["port"] =
        some (.number (.integer 8443)) ∧
      (load { env := [(documentVariable, beyond)] }).1 = {} := by
  have port : MemberText Strict ⟨"port", Text.bytes "1"⟩ (Text.bytes "\"port\":1") := by
    have hdigits : Whole [49] := ⟨⟨List.cons_ne_nil _ _, List.all_eq_true.1 rfl⟩, by decide⟩
    have hone : Numeral [49] := .mk false hdigits .absent .absent
    have hname : Spells (Text.bytes "port" ++ []) "port" := .plain (List.all_eq_true.1 rfl) .nil
    exact ⟨[], _, [], [], gap_nil, hname, gap_nil, gap_nil, .number hone, rfl⟩
  have x : MemberText Strict ⟨"x", Text.bytes "1e400"⟩ (Text.bytes "\"x\":1e400") := by
    have hdigits : Whole [49] := ⟨⟨List.cons_ne_nil _ _, List.all_eq_true.1 rfl⟩, by decide⟩
    have hpower : Digits [52, 48, 48] := ⟨List.cons_ne_nil _ _, List.all_eq_true.1 rfl⟩
    have hbeyond : Numeral [49, 101, 52, 48, 48] :=
      .mk false hdigits .absent (.bare (.inl rfl) hpower)
    have hname : Spells (Text.bytes "x" ++ []) "x" := .plain (List.all_eq_true.1 rfl) .nil
    exact ⟨[], _, [], [], gap_nil, hname, gap_nil, gap_nil, .number hbeyond, rfl⟩
  refine ⟨⟨[], _, [], gap_nil, .filled port (.next gap_nil x (.done gap_nil)), gap_nil, rfl⟩, rfl,
    rfl, rfl⟩

end Switchboard.Config
