import Switchboard.Config.Check
import Switchboard.Tls.Material

/-!
# Checked files and opened files

A check of settings asks for the files of two paths, without the blanks around them; startup opens
the two paths as they stand.  The two agree unless blanks surround a path.

    check fs c = ok () → every checked path leads to a file
    check fs c = ok () → startup cannot read p → trim p ≠ p
-/

namespace Switchboard

/-! ## Specification -/

namespace Tls

/-- The paths whose files a check asks for. -/
def checkedPaths (t : TlsSettings) : List String :=
  (Config.requiredPath t.certificatePath).toList ++ (Config.requiredPath t.privateKeyPath).toList

/-- The paths that startup opens. -/
def openedPaths (t : TlsSettings) : List String :=
  t.certificatePath.toList ++ t.privateKeyPath.toList

/-- Startup does not get hold of its files: a path is not set, or its file cannot be read. -/
def Error.isAbsence : Error → Bool
  | .certificateUnset | .keyUnset | .chainUnreadable .. | .keyUnreadable .. => true
  | _ => false

end Tls

/-! ## What is checked -/

namespace Config

variable {fs : Files} {c : Config}

theorem requiredPath_eq_some_iff {value : Option String} {path : String} :
    requiredPath value = some path ↔ ∃ p, value = some p ∧ Text.trim p = path ∧ path ≠ "" := by
  cases value with
  | none => simp [requiredPath]
  | some p =>
    simp only [requiredPath, Option.map_some, Option.filter_eq_some_iff, Option.some.injEq,
      decide_eq_true_eq, exists_eq_left', ne_eq]

theorem checkFile_eq_ok_iff {field : String} {value : Option String}
    {absent : String → Complaint} :
    checkFile fs field value absent = .ok () ↔
      ∃ path, requiredPath value = some path ∧ fs.isFile path = true := by
  unfold checkFile
  cases requiredPath value with
  | none => simp
  | some path => by_cases h : fs.isFile path <;> simp [h]

/-- Settings that pass have both paths, and without blanks they lead to files. -/
theorem files_of_check (h : check fs c = .ok ()) :
    ∃ certificate key, c.tls = ⟨some certificate, some key⟩ ∧
      Tls.checkedPaths c.tls = [Text.trim certificate, Text.trim key] ∧
      fs.isFile (Text.trim certificate) = true ∧ fs.isFile (Text.trim key) = true := by
  have hfirst : checkFile fs "security.tls.certificate_path" c.tls.certificatePath .noCertificate =
      .ok () := by
    unfold check at h
    cases hc : checkFile fs "security.tls.certificate_path" c.tls.certificatePath .noCertificate with
    | error e => rw [hc] at h; cases h
    | ok _ => rfl
  have hsecond : checkFile fs "security.tls.private_key_path" c.tls.privateKeyPath .noKey =
      .ok () := by
    unfold check at h
    rw [hfirst] at h
    cases hk : checkFile fs "security.tls.private_key_path" c.tls.privateKeyPath .noKey with
    | error e => rw [hk] at h; cases h
    | ok _ => rfl
  obtain ⟨path, hpath, hfile⟩ := checkFile_eq_ok_iff.1 hfirst
  obtain ⟨path', hpath', hfile'⟩ := checkFile_eq_ok_iff.1 hsecond
  have hchecked : Tls.checkedPaths c.tls = [path, path'] := by
    simp [Tls.checkedPaths, hpath, hpath']
  obtain ⟨certificate, hcertificate, rfl, -⟩ := requiredPath_eq_some_iff.1 hpath
  obtain ⟨key, hkey, rfl, -⟩ := requiredPath_eq_some_iff.1 hpath'
  refine ⟨certificate, key, ?_, hchecked, hfile, hfile'⟩
  rw [← hcertificate, ← hkey]

end Config

/-! ## What is opened -/

namespace Tls

variable {judge : Verdict} {fs fs' : Files} {path certificate key : String} {t : TlsSettings}
  {e : Error}

theorem read_of_isFile (h : fs.isFile path = true) : ∃ b, fs.read path = .ok b :=
  (fs.isFile_iff path).1 h

/-- Once its file is read, a chain fails for what the file holds. -/
theorem loadChain_error (h : loadChain fs path = .error e) (hfile : fs.isFile path = true) :
    e.isAbsence = false := by
  obtain ⟨b, hb⟩ := read_of_isFile hfile
  simp only [loadChain, hb] at h
  split at h <;> cases h <;> rfl

theorem loadKey_error (h : loadKey fs path = .error e) (hfile : fs.isFile path = true) :
    e.isAbsence = false := by
  obtain ⟨b, hb⟩ := read_of_isFile hfile
  simp only [loadKey, hb] at h
  split at h <;> cases h <;> rfl

/-- With both files there, nothing is absent. -/
theorem prepare_error (h : prepare judge fs ⟨some certificate, some key⟩ = .error e)
    (hcertificate : fs.isFile certificate = true) (hkey : fs.isFile key = true) :
    e.isAbsence = false := by
  unfold prepare load at h
  cases hchain : loadChain fs certificate with
  | error e' =>
    simp only [hchain] at h
    cases h
    exact loadChain_error hchain hcertificate
  | ok chain =>
    simp only [hchain] at h
    cases hread : loadKey fs key with
    | error e' =>
      simp only [hread] at h
      cases h
      exact loadKey_error hread hkey
    | ok k =>
      simp only [hread, Except.map] at h
      split at h <;> cases h
      rfl

/-- Startup depends on the files that it opens, and on no others. -/
theorem prepare_congr (h : ∀ p ∈ openedPaths t, fs'.read p = fs.read p) :
    prepare judge fs' t = prepare judge fs t := by
  obtain ⟨certificate, key⟩ := t
  cases certificate with
  | none => rfl
  | some certificate =>
    cases key with
    | none => rfl
    | some key =>
      have hcertificate : fs'.read certificate = fs.read certificate := h _ (by simp [openedPaths])
      have hkey : fs'.read key = fs.read key := h _ (by simp [openedPaths])
      simp only [prepare, load, loadChain, loadKey, hcertificate, hkey]

/-! ## Top theorem -/

/-- **What a check promises to startup.**  Settings that pass name two paths; without the blanks
around them they lead to the files that were asked for.  Startup opens the two paths as they stand
and nothing else, so if no blanks surround them it opens what was checked and never fails for want
of a path or a file; it fails so only at a path with blanks around it that leads to no file. -/
theorem startup_opens_checked (judge : Verdict) (fs : Files) (c : Config)
    (h : Config.check fs c = .ok ()) :
    checkedPaths c.tls = (openedPaths c.tls).map Text.trim ∧
    (openedPaths c.tls).length = 2 ∧
    (∀ p ∈ checkedPaths c.tls, fs.isFile p = true) ∧
    (∀ fs', (∀ p ∈ openedPaths c.tls, fs'.read p = fs.read p) →
      prepare judge fs' c.tls = prepare judge fs c.tls) ∧
    ((∀ p ∈ openedPaths c.tls, Text.trim p = p) → openedPaths c.tls = checkedPaths c.tls ∧
      ∀ e, prepare judge fs c.tls = .error e → e.isAbsence = false) ∧
    ∀ e, prepare judge fs c.tls = .error e → e.isAbsence = true →
      ∃ p ∈ openedPaths c.tls, Text.trim p ≠ p ∧ fs.isFile p = false := by
  obtain ⟨certificate, key, ht, hchecked, hcertificate, hkey⟩ := Config.files_of_check h
  have hopened : openedPaths c.tls = [certificate, key] := by rw [ht]; rfl
  have hfails : ∀ e, prepare judge fs c.tls = .error e → e.isAbsence = true →
      ∃ p ∈ openedPaths c.tls, Text.trim p ≠ p ∧ fs.isFile p = false := by
    intro e he habsent
    have other : ∀ p, fs.isFile (Text.trim p) = true → ¬ fs.isFile p = true →
        Text.trim p ≠ p ∧ fs.isFile p = false := by
      intro p htrim hfile
      exact ⟨fun hsame => hfile (hsame ▸ htrim), Bool.eq_false_iff.2 hfile⟩
    by_cases hc : fs.isFile certificate = true
    · by_cases hk : fs.isFile key = true
      · rw [ht] at he
        have hpresent := prepare_error he hc hk
        rw [habsent] at hpresent
        cases hpresent
      · exact ⟨key, by simp [hopened], other key hkey hk⟩
    · exact ⟨certificate, by simp [hopened], other certificate hcertificate hc⟩
  refine ⟨by rw [hchecked, hopened]; rfl, by rw [hopened]; rfl, ?_, fun fs' => prepare_congr,
    fun hplain => ⟨?_, ?_⟩, hfails⟩
  · intro p hp
    rw [hchecked] at hp
    simp only [List.mem_cons, List.not_mem_nil, or_false] at hp
    rcases hp with rfl | rfl
    · exact hcertificate
    · exact hkey
  · rw [hchecked, hopened, hplain certificate (by simp [hopened]), hplain key (by simp [hopened])]
  · intro e he
    cases habsent : e.isAbsence with
    | false => rfl
    | true =>
      obtain ⟨p, hp, hne, -⟩ := hfails e he habsent
      exact absurd (hplain p hp) hne

/-- A tree with a file for the certificate and one for the key, neither of which holds any. -/
def emptyPair : Files :=
  .ofList ["relay"] [("cert.pem", Text.bytes "c"), ("key.pem", Text.bytes "k")] []

/-- Settings that name the files of `emptyPair`, with something behind the first name. -/
def namesPair (behind : String) : Config :=
  { tls := ⟨some ("cert.pem" ++ behind), some "key.pem"⟩ }

theorem startup_emptyPair : Config.check emptyPair (namesPair "") = .ok () ∧
    openedPaths (namesPair "").tls = checkedPaths (namesPair "").tls ∧
    ∀ judge, ∃ e, prepare judge emptyPair (namesPair "").tls = .error e ∧ e.isAbsence = false := by
  have hcheck : Config.check emptyPair (namesPair "") = .ok () := rfl
  have hplain : ∀ p ∈ openedPaths (namesPair "").tls, Text.trim p = p := by decide +kernel
  have hsame := fun judge =>
    (startup_opens_checked judge emptyPair (namesPair "") hcheck).2.2.2.2.1 hplain
  have hempty : ∀ judge, prepare judge emptyPair (namesPair "").tls =
      .error (.chainEmpty "cert.pem") := fun _ => rfl
  exact ⟨hcheck, (hsame fun _ => .ok ()).1, fun judge => ⟨_, hempty judge, (hsame judge).2 _
    (hempty judge)⟩⟩

/-- Settings pass with a blank behind the name of the certificate; startup does not find it then. -/
theorem checked_not_opened : Config.check emptyPair (namesPair " ") = .ok () ∧
    ∀ judge, prepare judge emptyPair (namesPair " ").tls =
      .error (.chainUnreadable "cert.pem " .notFound) :=
  ⟨rfl, fun _ => rfl⟩

end Tls

end Switchboard
