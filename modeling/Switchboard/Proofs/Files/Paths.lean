import Mathlib.Data.List.TakeDrop
import Mathlib.Data.List.TakeWhile
import Switchboard.Files

/-!
# Paths that lead down

A path is cut at its slashes, and a path behind another has the pieces of both.  One whose
components are names alone leads down from wherever it is joined to: what is read there is the file
under these names.

    segments path = the pieces of path between slashes
    components (join root below) = components root ++ names
    fs.read (join root below) = .ok b → root leads to a directory, and the names from there to b
-/

namespace Switchboard

namespace Path

/-! ## Specification -/

/-- A name that a file or a directory can have. -/
structure Plain (name : String) : Prop where
  no_slash : '/' ∉ name.toList
  not_empty : name ≠ ""
  not_here : name ≠ "."
  not_up : name ≠ ".."

theorem plain_iff {name : String} :
    Plain name ↔ '/' ∉ name.toList ∧ name ≠ "" ∧ name ≠ "." ∧ name ≠ ".." :=
  ⟨fun ⟨hslash, hempty, hhere, hup⟩ => ⟨hslash, hempty, hhere, hup⟩,
    fun ⟨hslash, hempty, hhere, hup⟩ => ⟨hslash, hempty, hhere, hup⟩⟩

instance (name : String) : Decidable (Plain name) := decidable_of_iff' _ plain_iff

/-! ## Pieces -/

variable {path root below a b : String} {pieces names : List String}

theorem pieces_eq (piece cs : List Char) :
    Path.pieces piece cs = (List.splitOnPPrepend (· == '/') cs piece).map String.ofList := by
  induction piece, cs using Path.pieces.induct with
  | case1 piece => rw [Path.pieces, List.splitOnPPrepend_nil, List.map_singleton]
  | case2 piece rest ih =>
    rw [Path.pieces, ih, List.splitOnPPrepend_cons_pos (by rfl), List.map_cons,
      List.splitOnPPrepend_nil_right]
  | case3 piece c rest hother ih =>
    rw [Path.pieces.eq_3 _ _ _ hother, ih, List.splitOnPPrepend_cons_neg (by simpa using hother)]

theorem segments_eq (path : String) :
    segments path = (path.toList.splitOn '/').map String.ofList := by
  rw [segments, pieces_eq, List.splitOnPPrepend_nil_right, List.splitOn_eq_splitOnP]

theorem no_slash_of_mem_splitOn {cs piece : List Char} (h : piece ∈ cs.splitOn '/') :
    '/' ∉ piece := by
  induction cs generalizing piece with
  | nil =>
    rw [List.splitOn_nil, List.mem_singleton] at h
    exact h ▸ List.not_mem_nil
  | cons c cs ih =>
    rw [List.splitOn_cons_eq_if_modifyHead] at h
    split at h
    · rcases List.mem_cons.1 h with rfl | h
      · exact List.not_mem_nil
      · exact ih h
    · next hc =>
      obtain ⟨first, rest, hsplit⟩ := List.exists_cons_of_ne_nil (List.splitOn_ne_nil '/' cs)
      rw [hsplit] at h ih
      rcases List.mem_cons.1 h with rfl | h
      · intro hslash
        rcases List.mem_cons.1 hslash with rfl | hslash
        · exact hc BEq.rfl
        · exact ih List.mem_cons_self hslash
      · exact ih (List.mem_cons_of_mem first h)

theorem no_slash_of_mem_segments {s : String} (h : s ∈ segments path) : '/' ∉ s.toList := by
  rw [segments_eq] at h
  obtain ⟨piece, hpiece, rfl⟩ := List.mem_map.1 h
  rw [String.toList_ofList]
  exact no_slash_of_mem_splitOn hpiece

theorem segments_slash (a b : String) : segments (a ++ "/" ++ b) = segments a ++ segments b := by
  have hchars : (a ++ "/" ++ b).toList = a.toList ++ '/' :: b.toList := by simp
  rw [segments_eq, hchars, List.splitOn_append_cons_self, List.map_append, ← segments_eq,
    ← segments_eq]

theorem segments_of_no_slash (h : '/' ∉ a.toList) : segments a = [a] := by
  rw [segments_eq, List.splitOn_eq_singleton h, List.map_singleton, String.ofList_toList]

theorem segments_ne_nil (path : String) : segments path ≠ [] := by
  rw [segments_eq]
  exact fun h => List.splitOn_ne_nil '/' path.toList (List.map_eq_nil_iff.1 h)

theorem head?_segments_of_absolute (h : isAbsolute path = true) :
    (segments path).head? = some "" := by
  obtain ⟨cs, hcs⟩ := List.head?_eq_some_iff.1 (eq_of_beq h)
  rw [segments_eq, hcs, List.splitOn_cons_eq_if_modifyHead, if_pos BEq.rfl]
  rfl

theorem head?_segments_of_relative (hpath : isAbsolute path = false) (hne : path ≠ "") :
    (segments path).head? ≠ some "" := by
  have hchars : path.toList ≠ [] := by simpa using hne
  obtain ⟨c, cs, hcs⟩ := List.exists_cons_of_ne_nil hchars
  obtain ⟨first, rest, hsplit⟩ := List.exists_cons_of_ne_nil (List.splitOn_ne_nil '/' cs)
  have hc : ¬ (c == '/') = true := by
    rw [isAbsolute, hcs] at hpath
    simpa using hpath
  rw [segments_eq, hcs, List.splitOn_cons_eq_if_modifyHead, if_neg hc, hsplit]
  simp

/-! ## Components -/

theorem component?_eq_none {piece : String} :
    component? piece = none ↔ piece = "" ∨ piece = "." := by
  unfold component?
  split
  · next h => simpa using h
  · next h =>
    split <;> simpa using h

theorem component?_eq_name {piece name : String} (h : component? piece = some (.name name)) :
    piece = name ∧ ¬ (piece = "" ∨ piece = ".") ∧ piece ≠ ".." := by
  have hstay : ¬ (piece = "" ∨ piece = ".") := fun hstay => by
    rw [component?_eq_none.2 hstay] at h
    cases h
  rw [component?, if_neg (by simpa using hstay)] at h
  split at h
  · cases h
  · next hup =>
    cases h
    exact ⟨rfl, hstay, hup⟩

theorem Plain.component? {name : String} (h : Plain name) :
    component? name = some (.name name) := by
  have hstay : ¬ (name = "" || name = ".") = true := by simp [h.not_empty, h.not_here]
  rw [Path.component?, if_neg hstay, if_neg h.not_up]

theorem filterMap_plain (h : ∀ n ∈ names, Plain n) :
    names.filterMap component? = names.map .name := by
  induction names with
  | nil => rfl
  | cons n names ih =>
    rw [List.filterMap_cons_some (h n List.mem_cons_self).component?,
      ih fun m hm => h m (List.mem_cons_of_mem n hm), List.map_cons]

/-- Pieces that do not step up are names, or nothing. -/
theorem exists_names (hup : ".." ∉ pieces) (hslash : ∀ s ∈ pieces, '/' ∉ s.toList) :
    ∃ names : List String,
      pieces.filterMap component? = names.map .name ∧ ∀ n ∈ names, Plain n := by
  induction pieces with
  | nil => exact ⟨[], rfl, nofun⟩
  | cons piece pieces ih =>
    obtain ⟨names, hnames, hplain⟩ := ih (fun h => hup (List.mem_cons_of_mem piece h))
      (fun s hs => hslash s (List.mem_cons_of_mem piece hs))
    by_cases hstay : piece = "" ∨ piece = "."
    · have hpiece := component?_eq_none.2 hstay
      exact ⟨names, by rw [List.filterMap_cons_none hpiece, hnames], hplain⟩
    · obtain ⟨hempty, hhere⟩ := not_or.1 hstay
      have hpiece : Plain piece := ⟨hslash piece List.mem_cons_self, hempty, hhere,
        fun h => hup (h ▸ List.mem_cons_self)⟩
      refine ⟨piece :: names, ?_, List.forall_mem_cons.2 ⟨hpiece, hplain⟩⟩
      rw [List.filterMap_cons_some hpiece.component?, hnames, List.map_cons]

/-- Only the first piece can stand for where a path starts. -/
theorem components_eq (path : String) :
    components path =
      (if (segments path).head? = some "." then [.here]
        else if isAbsolute path then [.top] else []) ++ (segments path).filterMap component? := by
  have habs : isAbsolute path = true → (segments path).head? = some "" :=
    head?_segments_of_absolute
  rw [components.eq_def]
  split
  · next h =>
    rw [h]
    rfl
  · next h =>
    have hfirst : some "" ≠ some "." := by decide
    rw [h, List.filterMap_cons_none (by rfl), List.head?_cons, if_neg hfirst]
  · next hhere hempty =>
    have hfirst : (segments path).head? ≠ some "." := fun h => by
      obtain ⟨rest, hrest⟩ := List.head?_eq_some_iff.1 h
      exact hhere rest hrest
    have hrelative : ¬ isAbsolute path = true := fun h => by
      obtain ⟨rest, hrest⟩ := List.head?_eq_some_iff.1 (habs h)
      exact hempty rest hrest
    rw [if_neg hfirst, if_neg hrelative, List.nil_append]

theorem components_ne_nil (hne : path ≠ "") : components path ≠ [] := by
  rw [components_eq]
  split
  · exact List.cons_ne_nil _ _
  · next hhere =>
    split
    · exact List.cons_ne_nil _ _
    · next hpath =>
      obtain ⟨first, rest, hsegments⟩ := List.exists_cons_of_ne_nil (segments_ne_nil path)
      have hempty := head?_segments_of_relative (by simpa using hpath) hne
      rw [hsegments, List.head?_cons, Option.some_inj] at hhere
      rw [hsegments, List.head?_cons, ne_eq, Option.some_inj] at hempty
      cases hfirst : component? first with
      | none => exact absurd (component?_eq_none.1 hfirst) (not_or.2 ⟨hempty, hhere⟩)
      | some component =>
        rw [hsegments, List.filterMap_cons_some hfirst]
        exact List.cons_ne_nil _ _

/-- More pieces are more components; where the path starts stays the same. -/
theorem components_append {lead tail more : List String} (hlead : lead ≠ [])
    (ha : segments a = lead ++ tail) (hb : segments b = lead ++ more)
    (habs : isAbsolute b = isAbsolute a) (htail : tail.filterMap component? = []) :
    components b = components a ++ more.filterMap component? := by
  obtain ⟨first, rest, rfl⟩ := List.exists_cons_of_ne_nil hlead
  rw [components_eq b, components_eq a, ha, hb, habs, List.filterMap_append, List.filterMap_append,
    htail, List.append_nil, List.append_assoc]
  rfl

theorem filterMap_segments (hpath : isAbsolute path = false)
    (hnames : components path = names.map .name) :
    (segments path).filterMap component? = names.map .name := by
  rw [components_eq, hpath] at hnames
  split at hnames
  · cases names <;> cases hnames
  · exact hnames

/-! ## Last names -/

theorem fileName?_of_names (h : components path = names.map .name) :
    fileName? path = names.getLast? := by
  rw [fileName?, h, List.getLast?_map]
  cases names.getLast? <;> rfl

theorem span_dot {cs after rest : List Char} :
    cs.span (· != '.') = (after, '.' :: rest) ↔ cs = after ++ '.' :: rest ∧ '.' ∉ after := by
  rw [List.span_eq_takeWhile_dropWhile, Prod.mk.injEq]
  constructor
  · rintro ⟨rfl, hrest⟩
    refine ⟨by rw [← hrest, List.takeWhile_append_dropWhile], fun h => ?_⟩
    exact absurd (List.mem_takeWhile_imp h) (by decide)
  · rintro ⟨rfl, hdot⟩
    have hafter : ∀ c ∈ after, (c != '.') = true := fun c hc =>
      bne_iff_ne.2 fun heq => hdot (heq ▸ hc)
    rw [List.takeWhile_append_of_pos hafter, List.dropWhile_append_of_pos hafter]
    simp

/-- The extension is what stands behind the last dot, if something stands in front of that. -/
theorem extensionOf_eq_some {name : List Char} {ext : String} :
    extensionOf name = some ext ↔
      ∃ stem, name = stem ++ '.' :: ext.toList ∧ stem ≠ [] ∧ '.' ∉ ext.toList := by
  rw [extensionOf]
  constructor
  · intro h
    split at h
    · next after c before hspan =>
      obtain ⟨hname, hdot⟩ := span_dot.1 hspan
      cases h
      refine ⟨(c :: before).reverse, ?_, by simp, by simpa using hdot⟩
      rw [← List.reverse_reverse name, hname]
      simp
    · cases h
  · rintro ⟨stem, rfl, hstem, hdot⟩
    obtain ⟨c, before, hbefore⟩ := List.exists_cons_of_ne_nil (mt List.reverse_eq_nil_iff.1 hstem)
    have hspan : (stem ++ '.' :: ext.toList).reverse.span (· != '.') =
        (ext.toList.reverse, '.' :: c :: before) :=
      span_dot.2 ⟨by simp [← hbefore], by simpa using hdot⟩
    rw [hspan]
    simp

/-! ## Joining -/

theorem isAbsolute_append {a b : String} (ha : a ≠ "") :
    isAbsolute (a ++ b) = isAbsolute a := by
  have hchars : a.toList ≠ [] := by simpa using ha
  obtain ⟨c, cs, hcs⟩ := List.exists_cons_of_ne_nil hchars
  simp [isAbsolute, hcs]

theorem join_empty (below : String) : join "" below = below := by
  rw [join, if_pos (by simp)]

theorem isAbsolute_join (hroot : root ≠ "") (hbelow : isAbsolute below = false) :
    isAbsolute (join root below) = isAbsolute root := by
  rw [join, if_neg (by simp [hroot, hbelow])]
  split
  · exact isAbsolute_append hroot
  · rw [String.append_assoc, isAbsolute_append hroot]

/-- A path behind a root has the pieces of both, with nothing between them. -/
theorem segments_join (hroot : root ≠ "") (hbelow : isAbsolute below = false) :
    ∃ lead tail, lead ≠ [] ∧ segments root = lead ++ tail ∧ (tail = [] ∨ tail = [""]) ∧
      segments (join root below) = lead ++ segments below := by
  rw [join, if_neg (by simp [hroot, hbelow])]
  by_cases hlast : root.toList.getLast? = some '/'
  · obtain ⟨cs, hcs⟩ := List.getLast?_eq_some_iff.1 hlast
    have hroot' : root = String.ofList cs ++ "/" ++ "" := by
      rw [← String.toList_inj, hcs]
      simp
    have hjoin : root ++ below = String.ofList cs ++ "/" ++ below := by
      rw [hroot']
      simp
    refine ⟨segments (String.ofList cs), [""], segments_ne_nil _, ?_, .inr rfl, ?_⟩
    · rw [hroot', segments_slash]
      rfl
    · rw [if_pos (by simp [hlast]), hjoin, segments_slash]
  · exact ⟨segments root, [], segments_ne_nil root, (List.append_nil _).symm, .inl rfl,
      by rw [if_neg (by simp [hlast]), segments_slash]⟩

/-- **Names stay below the root** that they are joined to, whatever root that is. -/
theorem components_join (hbelow : isAbsolute below = false)
    (hnames : components below = names.map .name) (root : String) :
    components (join root below) = components root ++ names.map .name := by
  by_cases hroot : root = ""
  · rw [hroot, join_empty, hnames]
    rfl
  · obtain ⟨lead, tail, hlead, hsegments, htail, hjoin⟩ := segments_join hroot hbelow
    rw [components_append hlead hsegments hjoin (isAbsolute_join hroot hbelow) ?_,
      filterMap_segments hbelow hnames]
    rcases htail with rfl | rfl <;> rfl

end Path

namespace Files

/-! ## Walking -/

variable {fs : Files} {root below : String} {above names : List String} {content : Bytes}

theorem follow_stay {piece : String} (h : Path.component? piece = none) :
    fs.follow (.dir above) piece = .ok (.dir above) :=
  if_pos (by simpa using Path.component?_eq_none.1 h)

theorem follow_name {piece name : String} {spot : Spot}
    (hname : Path.component? piece = some (.name name))
    (h : fs.follow (.dir above) piece = .ok spot) : fs.spotAt (above ++ [name]) = .ok spot := by
  obtain ⟨rfl, hstay, hup⟩ := Path.component?_eq_name hname
  rw [follow, if_neg (by simpa using hstay), if_neg hup] at h
  split at h
  · cases h
  · exact h

/-- What stands under names tells them. -/
theorem spotAt_cases {spot : Spot} (h : fs.spotAt names = .ok spot) :
    spot = .dir names ∨ ∃ b, spot = .file names b := by
  unfold spotAt at h
  split at h
  · cases h
    exact .inr ⟨_, rfl⟩
  · split at h
    · cases h
      exact .inl rfl
    · cases h

/-- Nothing is found behind a file. -/
theorem followAll_of_file {spot : List String} {pieces : List String} {last : Spot}
    (h : fs.followAll (.file spot content) pieces = .ok last) :
    pieces = [] ∧ last = .file spot content := by
  cases pieces with
  | nil => cases h; exact ⟨rfl, rfl⟩
  | cons piece pieces => cases h

theorem followAll_append {spot last : Spot} {lead more : List String} :
    fs.followAll spot (lead ++ more) = .ok last ↔
      ∃ middle, fs.followAll spot lead = .ok middle ∧ fs.followAll middle more = .ok last := by
  induction lead generalizing spot with
  | nil => simp [followAll]
  | cons piece lead ih =>
    rw [List.cons_append, followAll, followAll]
    split
    · simp
    · exact ih

/-- Names lead from a directory to the file that stands under them there. -/
theorem followAll_names {pieces spot : List String}
    (hnames : pieces.filterMap Path.component? = names.map .name)
    (h : fs.followAll (.dir above) pieces = .ok (.file spot content)) :
    fs.spotAt (above ++ names) = .ok (.file (above ++ names) content) := by
  induction pieces generalizing above names with
  | nil => cases h
  | cons piece pieces ih =>
    rw [followAll] at h
    split at h
    · cases h
    next next hfollow =>
    cases hpiece : Path.component? piece with
    | none =>
      rw [follow_stay hpiece] at hfollow
      cases hfollow
      rw [List.filterMap_cons_none hpiece] at hnames
      exact ih hnames h
    | some component =>
      rw [List.filterMap_cons_some hpiece] at hnames
      cases names with
      | nil => cases hnames
      | cons name names =>
        obtain ⟨rfl, hrest⟩ := List.cons.inj hnames
        have hspot := follow_name hpiece hfollow
        obtain rfl | ⟨b, rfl⟩ := spotAt_cases hspot
        · have hdown := ih hrest h
          rw [List.append_assoc] at hdown
          exact hdown
        · obtain ⟨rfl, heq⟩ := followAll_of_file h
          cases heq
          cases names with
          | nil => exact hspot
          | cons name names => cases hrest

theorem read_eq_ok {path : String} (h : fs.read path = .ok content) :
    ∃ spot, fs.followAll (fs.start path) (Path.segments path) = .ok (.file spot content) := by
  unfold read find at h
  split at h
  · next hfind =>
    cases h
    split at hfind
    · cases hfind
    · exact ⟨_, hfind⟩
  · cases h
  · cases h

/-- **What is read below a root** is the file under these names in the directory that the root
leads to. -/
theorem read_join (hbelow : Path.isAbsolute below = false)
    (hnames : Path.components below = names.map .name)
    (h : fs.read (Path.join root below) = .ok content) :
    ∃ above, fs.followAll (fs.start root) (Path.segments root) = .ok (.dir above) ∧
      fs.spotAt (above ++ names) = .ok (.file (above ++ names) content) := by
  have hpieces := Path.filterMap_segments hbelow hnames
  obtain ⟨spot, hspot⟩ := read_eq_ok h
  by_cases hroot : root = ""
  · subst hroot
    rw [Path.join_empty, start, hbelow] at hspot
    exact ⟨fs.home, rfl, followAll_names hpieces hspot⟩
  · obtain ⟨lead, tail, hlead, hsegments, htail, hjoin⟩ := Path.segments_join hroot hbelow
    rw [start, Path.isAbsolute_join hroot hbelow, ← start, hjoin] at hspot
    obtain ⟨middle, hmiddle, hdown⟩ := followAll_append.1 hspot
    cases middle with
    | file middle b =>
      exact absurd (followAll_of_file hdown).1 (Path.segments_ne_nil below)
    | dir above =>
      refine ⟨above, ?_, followAll_names hpieces hdown⟩
      rw [hsegments]
      refine followAll_append.2 ⟨_, hmiddle, ?_⟩
      rcases htail with rfl | rfl <;> rfl

end Files

end Switchboard
