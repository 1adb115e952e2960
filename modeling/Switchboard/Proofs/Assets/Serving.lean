import Switchboard.Assets
import Switchboard.Http.Target
import Switchboard.Proofs.Files.Paths
import Switchboard.Proofs.Text.Lenient

/-!
# What is served

A path is refused if a piece of it steps up or its first piece is a dot; any other leads down from
the root (`resolve?_eq_none_iff`, `components_of_resolve?`).  So all that is served is a file below
the root whose name ends in a known extension (`Held`), and such a file is served to whoever asks
for it by its path, or for its directory if it is the index there (`Asks`).

    resolve? path = none ↔ ".." ∈ pieces path ∨ (pieces path).head? = some "."
    (serve fs root r).1.status = 200 → a file held below root, of which it has content and type
    Held fs root dir name content type, Asks dir name path → GET path is answered with content, type
-/

namespace Switchboard.Assets

open Switchboard.Path (Plain)

/-! ## Specification -/

/-- The pieces of a path between slashes, behind the slashes that it starts with. -/
def pieces (path : String) : List String :=
  ((path.toList.dropWhile (· == '/')).splitOn '/').map String.ofList

/-- The extensions that are known, and the types that they stand for. -/
inductive Known : String → String → Prop
  | html : Known "html" "text/html"
  | js : Known "js" "application/javascript"
  | png : Known "png" "image/png"
  | jpg : Known "jpg" "image/jpeg"
  | jpeg : Known "jpeg" "image/jpeg"
  | gif : Known "gif" "image/gif"
  | css : Known "css" "text/css"
  | xml : Known "xml" "text/xml"

/-- The name ends in an extension of this type, in lower case or not, and starts with something
else. -/
def OfType (name type : String) : Prop :=
  ∃ stem ext, name = stem ++ "." ++ ext ∧ stem ≠ "" ∧ '.' ∉ ext.toList ∧
    Known (Text.lowerAscii ext) type

/-- Below the root there is a file of a known type: names lead down to it from the directory that
the root leads to. -/
structure Held (fs : Files) (root : String) (dir : List String) (name : String) (content : Bytes)
    (type : String) : Prop where
  plain : ∀ n ∈ dir ++ [name], Plain n
  ofType : OfType name type
  found : ∃ above, fs.followAll (fs.start root) (Path.segments root) = .ok (.dir above) ∧
    fs.spotAt (above ++ (dir ++ [name])) = .ok (.file (above ++ (dir ++ [name])) content)

/-- The path of a directory below the root, with a slash behind each name. -/
def directory (dir : List String) : String := String.join (dir.map (· ++ "/"))

def slashes (n : Nat) : String := String.ofList (List.replicate n '/')

/-- The paths that ask for a file: its own, and that of its directory if it is the index there; as
many slashes as one likes in front. -/
inductive Asks (dir : List String) (name : String) : String → Prop
  | file (n : Nat) (hn : 0 < n) : Asks dir name (slashes n ++ (directory dir ++ name))
  | index (n : Nat) (hn : 0 < n) (hname : name = "index.html") :
    Asks dir name (slashes n ++ directory dir)

variable {fs : Files} {root path below name type : String} {dir names : List String}
  {content : Bytes} {r : Http.Request} {headers : List (String × String)}

/-! ## Paths that are asked for -/

/-- A path without the slashes that it starts with. -/
def trimmed (path : String) : String := String.ofList (path.toList.dropWhile (· == '/'))

theorem pieces_eq (path : String) : pieces path = Path.segments (trimmed path) := by
  rw [pieces, Path.segments_eq, trimmed, String.toList_ofList]

theorem isAbsolute_trimmed (path : String) : Path.isAbsolute (trimmed path) = false := by
  have hhead := List.head?_dropWhile_not (· == '/') path.toList
  rw [Path.isAbsolute, trimmed, String.toList_ofList]
  cases h : (path.toList.dropWhile (· == '/')).head? with
  | none => rfl
  | some c =>
    rw [h] at hhead
    simpa using hhead

/-- The index is put behind a path that ends as directories do. -/
theorem relative_cases (path : String) :
    relative path = trimmed path ∧ trimmed path ≠ "" ∧ (∀ lead, trimmed path ≠ lead ++ "/") ∨
      relative path = index ∧ trimmed path = "" ∨
      ∃ lead, relative path = lead ++ "/" ++ index ∧ trimmed path = lead ++ "/" := by
  rw [relative, trimmed]
  generalize path.toList.dropWhile (· == '/') = cs
  by_cases hnil : cs = []
  · subst hnil
    exact .inr (.inl ⟨rfl, rfl⟩)
  by_cases hlast : cs.getLast? = some '/'
  · obtain ⟨lead, rfl⟩ := List.getLast?_eq_some_iff.1 hlast
    refine .inr (.inr ⟨String.ofList lead, ?_, ?_⟩)
    · rw [if_pos (by simp), String.ofList_append]
    · rw [String.ofList_append]
  · left
    rw [if_neg (by simp [hnil, hlast])]
    refine ⟨rfl, by simpa using hnil, fun lead h => hlast ?_⟩
    rw [← String.toList_inj, String.toList_ofList] at h
    rw [h]
    simp

theorem isAbsolute_relative (path : String) : Path.isAbsolute (relative path) = false := by
  have habs := isAbsolute_trimmed path
  obtain ⟨h, -⟩ | ⟨h, -⟩ | ⟨lead, h, htrimmed⟩ := relative_cases path
  · rw [h, habs]
  · rw [h]
    decide
  · rw [htrimmed] at habs
    rw [h, Path.isAbsolute_append (by simp), habs]

theorem relative_ne_empty (path : String) : relative path ≠ "" := by
  obtain ⟨h, hne, -⟩ | ⟨h, -⟩ | ⟨lead, h, -⟩ := relative_cases path
  · rw [h]
    exact hne
  · rw [h]
    decide
  · rw [h]
    simp

/-- The index steps nowhere: what a path may not hold is the same with it and without. -/
theorem segments_relative {s : String} (hindex : s ≠ index) (hempty : s ≠ "") (path : String) :
    (s ∈ Path.segments (relative path) ↔ s ∈ pieces path) ∧
      ((Path.segments (relative path)).head? = some s ↔ (pieces path).head? = some s) := by
  have hsegments : Path.segments index = [index] := rfl
  rw [pieces_eq]
  obtain ⟨h, -⟩ | ⟨h, htrimmed⟩ | ⟨lead, h, htrimmed⟩ := relative_cases path
  · rw [h]
    exact ⟨.rfl, .rfl⟩
  · rw [h, htrimmed, hsegments]
    simp [Path.segments, Path.pieces, hindex, hempty, hindex.symm, hempty.symm]
  · have hnil : Path.segments "" = [""] := rfl
    obtain ⟨first, rest, hlead⟩ := List.exists_cons_of_ne_nil (Path.segments_ne_nil lead)
    have hslash : Path.segments (lead ++ "/") = first :: rest ++ [""] := by
      rw [← String.append_empty (s := lead ++ "/"), Path.segments_slash, hlead, hnil]
    rw [h, htrimmed, Path.segments_slash, hslash, hlead, hsegments]
    simp [hindex, hempty]

/-- Without these two, a path is names alone. -/
theorem exists_names_relative (hup : ".." ∉ pieces path) (hhere : (pieces path).head? ≠ some ".") :
    ∃ names : List String, names ≠ [] ∧ (∀ n ∈ names, Plain n) ∧
      Path.components (relative path) = names.map .name := by
  have hup' := mt (segments_relative (by decide) (by decide) path).1.1 hup
  have hhere' := mt (segments_relative (by decide) (by decide) path).2.1 hhere
  obtain ⟨names, hnames, hplain⟩ :=
    Path.exists_names hup' fun s hs => Path.no_slash_of_mem_segments hs
  have hcomponents : Path.components (relative path) = names.map .name := by
    rw [Path.components_eq, if_neg hhere', isAbsolute_relative, hnames]
    rfl
  refine ⟨names, ?_, hplain, hcomponents⟩
  rintro rfl
  exact Path.components_ne_nil (relative_ne_empty path) hcomponents

/-- With one of them, it is not. -/
theorem not_all_isName (h : ".." ∈ pieces path ∨ (pieces path).head? = some ".") :
    ¬ (Path.components (relative path)).all isName = true := by
  rw [Path.components_eq, isAbsolute_relative]
  rcases h with hup | hhere
  · have hup' := (segments_relative (by decide) (by decide) path).1.2 hup
    have hmem : Path.Component.up ∈ (Path.segments (relative path)).filterMap Path.component? :=
      List.mem_filterMap.2 ⟨"..", hup', rfl⟩
    intro hall
    exact absurd (List.all_eq_true.1 hall _ (List.mem_append_right _ hmem)) (by decide)
  · rw [if_pos ((segments_relative (by decide) (by decide) path).2.2 hhere)]
    exact Bool.false_ne_true

/-- **Only two things are refused**: a piece that steps up, and a dot as the first piece. -/
theorem resolve?_eq_none_iff :
    resolve? path = none ↔ ".." ∈ pieces path ∨ (pieces path).head? = some "." := by
  constructor
  · intro h
    by_contra hgood
    obtain ⟨hup, hhere⟩ := not_or.1 hgood
    obtain ⟨names, -, -, hnames⟩ := exists_names_relative hup hhere
    rw [resolve?, hnames, if_pos (by simp [isName])] at h
    cases h
  · intro h
    exact if_neg (not_all_isName h)

/-- **What is not refused leads down.** -/
theorem components_of_resolve? (h : resolve? path = some below) :
    Path.isAbsolute below = false ∧ ∃ names : List String, names ≠ [] ∧ (∀ n ∈ names, Plain n) ∧
      Path.components below = names.map .name := by
  have hgood := mt resolve?_eq_none_iff.2 (by rw [h]; exact Option.some_ne_none below)
  obtain ⟨hup, hhere⟩ := not_or.1 hgood
  have hbelow : relative path = below := by
    rw [resolve?] at h
    split at h
    · exact Option.some_inj.1 h
    · cases h
  exact hbelow ▸ ⟨isAbsolute_relative path, exists_names_relative hup hhere⟩

example : resolve? "/js/../../x.html" = none ∧ resolve? "//js/" = some "js/index.html" := by
  decide +kernel

/-! ## Types -/

/-- The table has the known extensions, and no others. -/
theorem lookup_kinds {ext : String} : kinds.lookup ext = some type ↔ Known ext type := by
  constructor
  · intro h
    obtain ⟨before, after, hkinds, -⟩ := List.lookup_eq_some_iff.1 h
    have hmem : (ext, type) ∈ kinds := hkinds ▸ List.mem_append_right before List.mem_cons_self
    simp only [kinds, List.mem_cons, Prod.mk.injEq, List.not_mem_nil, or_false] at hmem
    rcases hmem with ⟨rfl, rfl⟩ | ⟨rfl, rfl⟩ | ⟨rfl, rfl⟩ | ⟨rfl, rfl⟩ | ⟨rfl, rfl⟩ | ⟨rfl, rfl⟩ |
      ⟨rfl, rfl⟩ | ⟨rfl, rfl⟩ <;> constructor
  · intro h
    cases h <;> rfl

/-- The type of a path is that of its last name. -/
theorem typeOf?_eq_some (h : Path.components below = names.map .name) :
    typeOf? below = some type ↔ ∃ dir name, names = dir ++ [name] ∧ OfType name type := by
  rw [typeOf?, Path.extension?, Path.fileName?_of_names h]
  constructor
  · intro htype
    obtain ⟨ext, hext, hlookup⟩ := Option.bind_eq_some_iff.1 htype
    obtain ⟨name, hlast, hext⟩ := Option.bind_eq_some_iff.1 hext
    obtain ⟨stem, hname, hstem, hdot⟩ := Path.extensionOf_eq_some.1 hext
    obtain ⟨dir, rfl⟩ := List.getLast?_eq_some_iff.1 hlast
    refine ⟨dir, name, rfl, String.ofList stem, ext, ?_, by simpa using hstem, hdot,
      lookup_kinds.1 hlookup⟩
    rw [← String.toList_inj, hname]
    simp
  · rintro ⟨dir, name, rfl, stem, ext, hname, hstem, hdot, hkind⟩
    have hext : Path.extensionOf name.toList = some ext :=
      Path.extensionOf_eq_some.2 ⟨stem.toList, by rw [hname]; simp, by simpa using hstem, hdot⟩
    rw [List.getLast?_concat, Option.bind_some, hext, Option.bind_some, lookup_kinds.2 hkind]

example : typeOf? "a.JPEG" = some "image/jpeg" ∧ typeOf? "js/.html" = none := by decide +kernel

/-! ## Answers -/

theorem not_refused_iff {method : String} :
    ¬ (method ≠ "GET" && method ≠ "HEAD") = true ↔ method = "GET" ∨ method = "HEAD" := by
  by_cases hget : method = "GET" <;> simp [hget]

/-- What a path comes to that is not refused. -/
theorem serve_of_resolve? (hmethod : r.method = "GET" ∨ r.method = "HEAD")
    (hbelow : resolve? r.path = some below)
    (htype : typeOf? below = some type) (hread : fs.read (Path.join root below) = .ok content) :
    serve fs root r = ((Http.Answer.full 200 type content).forMethod r.method, []) := by
  rw [serve, if_neg (not_refused_iff.2 hmethod), hbelow]
  simp only [htype, hread]

/-- **Whatever is served is held below the root**, under the names that the path resolves to. -/
theorem serve_of_200 (h : (serve fs root r).1.status = 200) :
    (r.method = "GET" ∨ r.method = "HEAD") ∧
      ∃ below dir name content type, resolve? r.path = some below ∧
        Path.components below = (dir ++ [name]).map .name ∧
        Held fs root dir name content type ∧
        (serve fs root r).1 = (Http.Answer.full 200 type content).forMethod r.method := by
  by_cases hrefused : (r.method ≠ "GET" && r.method ≠ "HEAD") = true
  · rw [serve, if_pos hrefused] at h
    cases h
  have hmethod := not_refused_iff.1 hrefused
  refine ⟨hmethod, ?_⟩
  rw [serve, if_neg hrefused] at h
  split at h
  · cases h
  next below hbelow =>
  split at h
  · cases h
  next type htype =>
  split at h
  · next content hread =>
    obtain ⟨hrelative, names, -, hplain, hnames⟩ := components_of_resolve? hbelow
    obtain ⟨dir, name, rfl, hkind⟩ := (typeOf?_eq_some hnames).1 htype
    have hfound := Files.read_join hrelative hnames hread
    exact ⟨below, dir, name, content, type, hbelow, hnames, ⟨hplain, hkind, hfound⟩,
      by rw [serve_of_resolve? hmethod hbelow htype hread]⟩
  · cases h

/-! ## Asking for a file -/

theorem directory_cons (d : String) (dir : List String) :
    directory (d :: dir) = d ++ "/" ++ directory dir := by
  rw [directory, List.map_cons, String.join_cons, directory]

theorem segments_directory (h : ∀ n ∈ dir ++ [name], Plain n) :
    Path.segments (directory dir ++ name) = dir ++ [name] := by
  induction dir with
  | nil =>
    have hname : directory [] ++ name = name := String.empty_append
    rw [hname, Path.segments_of_no_slash (h name List.mem_cons_self).no_slash]
    rfl
  | cons d dir ih =>
    rw [directory_cons, String.append_assoc, Path.segments_slash,
      Path.segments_of_no_slash (h d List.mem_cons_self).no_slash,
      ih fun n hn => h n (List.mem_cons_of_mem d hn)]
    rfl

theorem isAbsolute_directory (h : ∀ n ∈ dir ++ [name], Plain n) :
    Path.isAbsolute (directory dir ++ name) = false := by
  by_contra habs
  have hhead := Path.head?_segments_of_absolute (by simpa using habs)
  rw [segments_directory h] at hhead
  exact (h "" (List.mem_of_head? hhead)).not_empty rfl

theorem components_directory (h : ∀ n ∈ dir ++ [name], Plain n) :
    Path.components (directory dir ++ name) = (dir ++ [name]).map .name := by
  have hhead : (dir ++ [name]).head? ≠ some "." := fun hhead =>
    (h "." (List.mem_of_head? hhead)).not_here rfl
  rw [Path.components_eq, segments_directory h, if_neg hhead, isAbsolute_directory h,
    Path.filterMap_plain h]
  rfl

theorem directory_ends (dir : List String) :
    directory dir = "" ∨ ∃ lead, directory dir = lead ++ "/" := by
  obtain rfl | ⟨dirs, d, rfl⟩ := List.eq_nil_or_concat dir
  · exact .inl rfl
  · refine .inr ⟨directory dirs ++ d, ?_⟩
    rw [List.concat_eq_append, directory, List.map_append, String.join_append, ← directory,
      String.append_assoc]
    simp

theorem trimmed_slashes {p : String} (n : Nat) (hp : Path.isAbsolute p = false) :
    trimmed (slashes n ++ p) = p := by
  have hslashes : ∀ c ∈ List.replicate n '/', (c == '/') = true := fun c hc =>
    beq_iff_eq.2 (List.eq_of_mem_replicate hc)
  have hkept : p.toList.dropWhile (· == '/') = p.toList := by
    rw [Path.isAbsolute] at hp
    cases hchars : p.toList with
    | nil => rfl
    | cons c cs =>
      rw [hchars] at hp
      exact List.dropWhile_cons_of_neg (by simpa using hp)
  rw [trimmed, slashes, String.toList_append, String.toList_ofList,
    List.dropWhile_append_of_pos hslashes, hkept, String.ofList_toList]

theorem ne_slash_of_plain {lead : String} (h : Plain name) (before : String) :
    before ++ name ≠ lead ++ "/" := by
  intro heq
  have hlast : (before ++ name).toList.getLast? = some '/' := by
    rw [heq]
    simp
  have hname : name.toList ≠ [] := by simpa using h.not_empty
  rw [String.toList_append, List.getLast?_append_of_ne_nil _ hname] at hlast
  exact h.no_slash (List.mem_of_getLast? hlast)

/-- Either way the path of the file is found. -/
theorem relative_of_asks (hplain : ∀ n ∈ dir ++ [name], Plain n) (h : Asks dir name path) :
    relative path = directory dir ++ name := by
  have habs := isAbsolute_directory hplain
  have hname := hplain name (List.mem_append_right dir List.mem_cons_self)
  cases h with
  | file n hn =>
    have htrimmed := trimmed_slashes n habs
    obtain ⟨h, -⟩ | ⟨-, h⟩ | ⟨lead, -, h⟩ :=
      relative_cases (slashes n ++ (directory dir ++ name))
    · rw [h, htrimmed]
    · rw [htrimmed] at h
      simp [hname.not_empty] at h
    · rw [htrimmed] at h
      exact absurd h (ne_slash_of_plain hname (directory dir))
  | index n hn hindex =>
    have hrelative : Path.isAbsolute (directory dir) = false := by
      by_cases hempty : directory dir = ""
      · rw [hempty]
        rfl
      · rw [← Path.isAbsolute_append hempty, habs]
    have htrimmed := trimmed_slashes n hrelative
    obtain ⟨-, hne, hnot⟩ | ⟨h, hempty⟩ | ⟨lead, h, hlead⟩ :=
      relative_cases (slashes n ++ directory dir)
    · rw [htrimmed] at hne hnot
      obtain hempty | ⟨lead, hlead⟩ := directory_ends dir
      · exact absurd hempty hne
      · exact absurd hlead (hnot lead)
    · rw [h, ← htrimmed, hempty, hindex]
      rfl
    · rw [h, ← htrimmed, hlead, hindex]
      rfl

/-- **What is held is served** to whoever asks for it and can be given it. -/
theorem serve_of_asks {b : Bytes} (hheld : Held fs root dir name content type)
    (hread : fs.read (Path.join root (directory dir ++ name)) = .ok b) (h : Asks dir name path) :
    (serve fs root ⟨"GET", path, headers⟩).1 = .full 200 type content := by
  have hcomponents := components_directory hheld.plain
  have hresolve : resolve? path = some (directory dir ++ name) := by
    rw [resolve?, relative_of_asks hheld.plain h, hcomponents, if_pos (by simp [isName])]
  have htype : typeOf? (directory dir ++ name) = some type :=
    (typeOf?_eq_some hcomponents).2 ⟨dir, name, rfl, hheld.ofType⟩
  have hcontent : b = content := by
    obtain ⟨above, hroot, hfile⟩ := hheld.found
    obtain ⟨above', hroot', hfile'⟩ :=
      Files.read_join (isAbsolute_directory hheld.plain) hcomponents hread
    rw [hroot'] at hroot
    cases hroot
    rw [hfile'] at hfile
    cases hfile
    rfl
  have hserve := serve_of_resolve? (r := ⟨"GET", path, headers⟩) (.inl rfl) hresolve htype hread
  have hget : "GET" ≠ "HEAD" := by decide
  rw [hserve, hcontent, Http.Answer.forMethod, if_neg hget]

/-! ## Targets -/

section Targets

open Http

theorem splitPath_of_path {s : Bytes} (h : ∀ b ∈ s, isPathByte b = true) :
    splitPath s = some s := by
  induction s with
  | nil => rfl
  | cons b s ih =>
    have hb := h b List.mem_cons_self
    have hquery : b ≠ 63 := fun heq => absurd (heq ▸ hb) (by decide)
    have hfragment : b ≠ 35 := fun heq => absurd (heq ▸ hb) (by decide)
    rw [splitPath, if_neg hquery, if_neg hfragment, if_pos hb,
      ih fun c hc => h c (List.mem_cons_of_mem b hc)]
    rfl

theorem bytes_of_isAbsolute {path : String} (hslash : Path.isAbsolute path = true) :
    ∃ rest, Text.bytes path = 47 :: rest := by
  obtain ⟨cs, hcs⟩ := List.head?_eq_some_iff.1 (eq_of_beq hslash)
  rw [Text.bytes_eq_encode, hcs, Text.encode_cons]
  exact ⟨Text.encode cs, rfl⟩

/-- A target that is a path as it is arrives as that path. -/
theorem pathOf_path {target : String} (hslash : Path.isAbsolute target = true)
    (hpath : ∀ b ∈ Text.bytes target, isPathByte b = true)
    (hlength : (Text.bytes target).length ≤ 65534) : pathOf target = some target := by
  obtain ⟨rest, hrest⟩ := bytes_of_isAbsolute hslash
  have hfits : ¬ (65534 < (Text.bytes target).length || (Text.bytes target).isEmpty) = true := by
    rw [hrest] at hlength ⊢
    simpa using hlength
  have hstar : Text.bytes target ≠ [42] := by
    rw [hrest]
    exact fun h => absurd (List.cons.inj h).1 (by decide)
  have hhead : (Text.bytes target).head? = some 47 := by
    rw [hrest]
    rfl
  rw [pathOf, pathBytes, if_neg hfits, if_neg hstar, if_pos hhead, splitPath_of_path hpath,
    Option.map_some, Text.lenient_bytes]

theorem path_slashes (n : Nat) : ∀ b ∈ Text.bytes (slashes n), isPathByte b = true := by
  intro b hb
  rw [Text.bytes_eq_encode, slashes, String.toList_ofList, Text.encode] at hb
  obtain ⟨c, hc, hb⟩ := List.mem_flatMap.1 hb
  obtain rfl := List.eq_of_mem_replicate hc
  obtain rfl := List.mem_singleton.1 hb
  rfl

/-- A path that asks for a file holds no other bytes than the file's and slashes. -/
theorem path_of_asks (h : Asks dir name path)
    (hpath : ∀ b ∈ Text.bytes (directory dir ++ name), isPathByte b = true) :
    ∀ b ∈ Text.bytes path, isPathByte b = true := by
  rw [Text.bytes_append] at hpath
  intro b hb
  cases h with
  | file n hn =>
    rw [Text.bytes_append, Text.bytes_append] at hb
    rcases List.mem_append.1 hb with hb | hb
    · exact path_slashes n b hb
    · exact hpath b hb
  | index n hn hname =>
    rw [Text.bytes_append] at hb
    rcases List.mem_append.1 hb with hb | hb
    · exact path_slashes n b hb
    · exact hpath b (List.mem_append_left _ hb)

theorem isAbsolute_of_asks (h : Asks dir name path) : Path.isAbsolute path = true := by
  have hslashes : ∀ n p, 0 < n → Path.isAbsolute (slashes n ++ p) = true := by
    intro n p hn
    obtain ⟨n, rfl⟩ := Nat.exists_eq_succ_of_ne_zero (Nat.pos_iff_ne_zero.1 hn)
    simp [Path.isAbsolute, slashes, List.replicate_succ]
  cases h with
  | file n hn => exact hslashes n _ hn
  | index n hn => exact hslashes n _ hn

/-- So it is a target that arrives as it is. -/
theorem request_of_asks (h : Asks dir name path)
    (hpath : ∀ b ∈ Text.bytes (directory dir ++ name), isPathByte b = true)
    (hlength : (Text.bytes path).length ≤ 65534) :
    Request.of? "GET" path headers = some ⟨"GET", path, headers⟩ := by
  have htoken : isToken (Text.bytes "GET") = true := by decide +kernel
  rw [Request.of?, if_pos htoken,
    pathOf_path (isAbsolute_of_asks h) (path_of_asks h hpath) hlength]
  rfl

end Targets

/-! ## Top theorem -/

/-- **What is served.**  A path is refused exactly if, behind the slashes that it starts with, some
piece is `..` or the first is `.`; any other is resolved to names alone, one at least, which stay
below any root that they are joined to.  So whatever the root, the tree and the request, an answer
200 is one to GET or HEAD and has content and type of a file that is held below the root.  And each
such file that can be read, and whose path is a target as it is, is served to those who ask for
it. -/
theorem served_iff_held :
    (∀ path, resolve? path = none ↔ ".." ∈ pieces path ∨ (pieces path).head? = some ".") ∧
    (∀ path below, resolve? path = some below → Path.isAbsolute below = false ∧
      ∃ names : List String, names ≠ [] ∧ (∀ n ∈ names, Plain n) ∧
        Path.components below = names.map .name ∧
        ∀ root, Path.components (Path.join root below) =
          Path.components root ++ names.map .name) ∧
    (∀ (fs : Files) (root : String) (r : Http.Request), (serve fs root r).1.status = 200 →
      (r.method = "GET" ∨ r.method = "HEAD") ∧
        ∃ below dir name content type, resolve? r.path = some below ∧
          Path.components below = (dir ++ [name]).map .name ∧
          Held fs root dir name content type ∧
          (serve fs root r).1 = (Http.Answer.full 200 type content).forMethod r.method) ∧
    ∀ (fs : Files) (root : String) (dir : List String) (name : String) (content : Bytes)
      (type : String), Held fs root dir name content type →
      (∃ b, fs.read (Path.join root (directory dir ++ name)) = .ok b) →
      (∀ b ∈ Text.bytes (directory dir ++ name), Http.isPathByte b = true) →
      ∀ path headers, Asks dir name path →
        (serve fs root ⟨"GET", path, headers⟩).1 = .full 200 type content ∧
        ((Text.bytes path).length ≤ 65534 →
          Http.Request.of? "GET" path headers = some ⟨"GET", path, headers⟩) := by
  refine ⟨fun path => resolve?_eq_none_iff, ?_, fun fs root r => serve_of_200, ?_⟩
  · intro path below h
    obtain ⟨hrelative, names, hne, hplain, hnames⟩ := components_of_resolve? h
    exact ⟨hrelative, names, hne, hplain, hnames, Path.components_join hrelative hnames⟩
  · rintro fs root dir name content type hheld ⟨b, hread⟩ hpath path headers hasks
    exact ⟨serve_of_asks hheld hread hasks, request_of_asks hasks hpath⟩

/-- A page, the index of its directory, and a note that is of no type. -/
def site : Files :=
  .ofList ["home"] [("/srv/docs/index.html", [60]), ("/srv/notes.txt", [33])] []

/-- The page is served under its directory, and to HEAD by a path with a dot in it. -/
theorem site_served :
    Held site "/srv/" ["docs"] "index.html" [60] "text/html" ∧
    (serve site "/srv/" ⟨"GET", "//docs/", []⟩).1 = .full 200 "text/html" [60] ∧
    Http.Request.of? "GET" "//docs/" [] = some ⟨"GET", "//docs/", []⟩ ∧
    (∃ dir name content type, Held site "/srv/" dir name content type ∧
      (serve site "/srv/" ⟨"HEAD", "/docs/./index.html", []⟩).1 =
        (Http.Answer.full 200 type content).forMethod "HEAD") ∧
    ∃ names : List String, Path.components (Path.join "/srv/" "docs/./index.html") =
      Path.components "/srv/" ++ names.map .name := by
  obtain ⟨-, hdown, honly, hserved⟩ := served_iff_held
  have hpage : Held site "/srv/" ["docs"] "index.html" [60] "text/html" :=
    ⟨by decide +kernel, ⟨"index", "html", by decide +kernel, by decide, by decide, .html⟩,
      ["srv"], rfl, rfl⟩
  have hread : ∃ b, site.read (Path.join "/srv/" (directory ["docs"] ++ "index.html")) = .ok b :=
    ⟨[60], by rfl⟩
  have hasks : Asks ["docs"] "index.html" "//docs/" := .index 2 (by decide) rfl
  obtain ⟨hget, hrequest⟩ :=
    hserved site "/srv/" _ _ _ _ hpage hread (by decide +kernel) "//docs/" [] hasks
  obtain ⟨-, -, dir, name, content, type, -, -, hheld, hhead⟩ :=
    honly site "/srv/" ⟨"HEAD", "/docs/./index.html", []⟩ (by decide +kernel)
  obtain ⟨-, names, -, -, -, hjoin⟩ :=
    hdown "/docs/./index.html" "docs/./index.html" (by decide +kernel)
  exact ⟨hpage, hget, hrequest (by decide +kernel), ⟨dir, name, content, type, hheld, hhead⟩,
    names, hjoin "/srv/"⟩

end Switchboard.Assets
