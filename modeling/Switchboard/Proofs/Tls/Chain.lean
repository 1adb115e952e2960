import Switchboard.Proofs.Tls.Sections
import Switchboard.Tls.Material

/-!
# Chains that come back

A chain is all certificates of its file, in their order, whatever other sections and stray lines stand
between them.  If anything is wrong with the file, wherever it is, there is no chain.

    Carries items ders → loadChain = ok ders      for ders ≠ []
    one item broken, or the last section open → loadChain = error _
-/

namespace Switchboard

namespace Pem

/-! ## Specification -/

/-- The certificates among the items are these, in this order; the other items are framed as they
should be, and no body is broken. -/
inductive Carries : List Item → List Bytes → Prop
  | nil : Carries [] []
  | certificate {s : Section} {der : Bytes} {items : List Item} {ders : List Bytes}
    (written : s.Writes ⟨.certificate, der⟩) (rest : Carries items ders) :
    Carries (.block s :: items) (der :: ders)
  | other {i : Item} {items : List Item} {ders : List Bytes} (framed : i.Framed)
    (sound : ¬ i.Broken) (other : ∀ e, i.entry = some e → e.kind ≠ .certificate)
    (rest : Carries items ders) : Carries (i :: items) ders

variable {file rest : Bytes} {items : List Item} {ders : List Bytes} {s : Section}

namespace Carries

theorem framed (h : Carries items ders) : ∀ i ∈ items, i.Framed := by
  induction h with
  | nil => exact nofun
  | certificate written _ ih => exact List.forall_mem_cons.2 ⟨written.framed, ih⟩
  | other framed _ _ _ ih => exact List.forall_mem_cons.2 ⟨framed, ih⟩

theorem sound (h : Carries items ders) : ∀ i ∈ items, ¬ i.Broken := by
  induction h with
  | nil => exact nofun
  | certificate written _ ih => exact List.forall_mem_cons.2 ⟨written.not_broken, ih⟩
  | other _ sound _ _ ih => exact List.forall_mem_cons.2 ⟨sound, ih⟩

/-- The certificates among the entries are those that the items carry. -/
theorem entries (h : Carries items ders) :
    ((items.filterMap Item.entry).filter (·.kind = .certificate)).map Entry.der = ders := by
  induction h with
  | nil => rfl
  | certificate written _ ih =>
    rw [List.filterMap_cons_some written.entry, List.filter_cons_of_pos (by simp), List.map_cons,
      ih]
  | @other i items ders _ _ other _ ih =>
    rw [List.filterMap_cons]
    cases he : i.entry with
    | none => exact ih
    | some e =>
      dsimp only
      rw [List.filter_cons_of_neg (by simpa using other e he), ih]

end Carries

/-! ## Certificates -/

theorem certificates_of_entries {es : List Entry} (h : Pem.entries file = es.map .ok) :
    certificates file = .ok ((es.filter (·.kind = .certificate)).map Entry.der) := by
  rw [certificates, h, List.foldr_map]
  clear h
  induction es with
  | nil => rfl
  | cons e es ih =>
    rw [List.foldr_cons, ih]
    by_cases he : e.kind = .certificate
    · rw [List.filter_cons_of_pos (by simpa using he)]
      simp only [he, if_true]
      rfl
    · rw [List.filter_cons_of_neg (by simpa using he)]
      simp only [he, if_false]

/-- A fault of any entry is one of the whole file. -/
theorem certificates_of_error {x : Error} (h : .error x ∈ Pem.entries file) :
    ∃ e, certificates file = .error e := by
  rw [certificates]
  generalize Pem.entries file = rs at h ⊢
  induction rs with
  | nil => cases h
  | cons r rs ih =>
    rw [List.foldr_cons]
    cases r with
    | error e => exact ⟨e, rfl⟩
    | ok e =>
      rcases List.mem_cons.1 h with hr | hrs
      · cases hr
      · obtain ⟨x, hx⟩ := ih hrs
        rw [hx]
        by_cases he : e.kind = .certificate
        · exact ⟨x, by simp only [he, if_true]; rfl⟩
        · exact ⟨x, by simp only [he, if_false]⟩

/-- Items that carry certificates are read as these. -/
theorem certificates_of_carries (h : Carries items ders) (hs : Spells file (written items)) :
    certificates file = .ok ders := by
  have htext : Pem.entries (written items) = (items.filterMap Item.entry).map .ok := by
    have hall := entries_written h.framed []
    rw [List.append_nil, foldr_follow h.sound] at hall
    exact hall.trans (List.append_nil _)
  have hfile : Pem.entries file = (items.filterMap Item.entry).map .ok := by
    rw [← htext]
    refine entries_of_spells hs fun line hmem => ?_
    rw [htext] at hmem
    obtain ⟨e, -, he⟩ := List.mem_map.1 hmem
    cases he
  rw [certificates_of_entries hfile, h.entries]

/-- With a broken item there are no certificates, whatever follows. -/
theorem certificates_of_broken (h : ∀ i ∈ items, i.Framed) (hbroken : ∃ i ∈ items, i.Broken)
    (hs : Spells file (written items ++ rest)) : ∃ e, certificates file = .error e := by
  obtain ⟨es, x, hes⟩ := foldr_follow_broken hbroken (Pem.entries rest)
  have htext : Pem.entries (written items ++ rest) = es.map .ok ++ [.error (.badBody x)] :=
    (entries_written h rest).trans hes
  have hfile : Pem.entries file = es.map .ok ++ [.error (.badBody x)] := by
    rw [← htext]
    refine entries_of_spells hs fun line hmem => ?_
    rw [htext, List.mem_append, List.mem_singleton, List.mem_map] at hmem
    rcases hmem with ⟨e, -, he⟩ | he <;> cases he
  exact certificates_of_error (hfile ▸ List.mem_append_right _ List.mem_cons_self)

/-- With a section that is still open at its end, a file has no certificates. -/
theorem certificates_of_opened (h : ∀ i ∈ items, i.Framed) (hopen : s.Framed)
    (hs : Spells file (written items ++ s.opened)) : ∃ e, certificates file = .error e := by
  by_cases hbroken : ∃ i ∈ items, i.Broken
  · exact certificates_of_broken h hbroken hs
  · have hsound : ∀ i ∈ items, ¬ i.Broken := fun i hi hb => hbroken ⟨i, hi, hb⟩
    have hlast : Pem.entries s.opened = [.error (.unclosed s.label)] := by
      have hopened := hopen.entriesFrom_opened []
      rw [List.append_nil] at hopened
      rw [Pem.entries, hopened]
      rfl
    have htext : Pem.entries (written items ++ s.opened) =
        (items.filterMap Item.entry).map .ok ++ [.error (.unclosed s.label)] := by
      rw [entries_written h, foldr_follow hsound, hlast]
    have hfile : Pem.entries file =
        (items.filterMap Item.entry).map .ok ++ [.error (.unclosed s.label)] := by
      rw [← htext]
      refine entries_of_spells hs fun line hmem => ?_
      rw [htext, List.mem_append, List.mem_singleton, List.mem_map] at hmem
      rcases hmem with ⟨e, -, he⟩ | he <;> cases he
    exact certificates_of_error (hfile ▸ List.mem_append_right _ List.mem_cons_self)

end Pem

/-! ## Top theorem -/

namespace Tls

open Pem

variable {fs : Files} {path : String} {file : Bytes}

theorem loadChain_of_certificates (hread : fs.read path = .ok file) {ders : List Bytes}
    (h : certificates file = .ok ders) (hne : ders ≠ []) : loadChain fs path = .ok ders := by
  unfold loadChain
  rw [hread]
  dsimp only
  rw [h]
  cases ders with
  | nil => exact absurd rfl hne
  | cons der ders => rfl

theorem loadChain_of_error (hread : fs.read path = .ok file) {e : Pem.Error}
    (h : certificates file = .error e) : loadChain fs path = .error (.chainBroken path e) := by
  unfold loadChain
  rw [hread]
  dsimp only
  rw [h]

/-- **A chain comes back as it was written.**  A file of sections and stray lines gives its
certificates, all of them in their order, or the error that there are none; of how their base64 is
broken into lines, of how these end, and of the other items nothing is seen.  If one body of a known
kind is no base64, whatever stands before and behind it, or if the file ends inside a section, there
is an error and no chain. -/
theorem loadChain_written (hread : fs.read path = .ok file) (items : List Item) :
    (∀ ders, Carries items ders → Spells file (written items) →
      (ders ≠ [] → loadChain fs path = .ok ders) ∧
        (ders = [] → loadChain fs path = .error (.chainEmpty path))) ∧
    ((∀ i ∈ items, i.Framed) →
      (∀ rest, (∃ i ∈ items, i.Broken) → Spells file (written items ++ rest) →
        ∃ e, loadChain fs path = .error (.chainBroken path e)) ∧
      ∀ s : Section, s.Framed → Spells file (written items ++ s.opened) →
        ∃ e, loadChain fs path = .error (.chainBroken path e)) := by
  refine ⟨fun ders h hs => ⟨?_, ?_⟩, fun hframed => ⟨fun rest hbroken hs => ?_, fun s hs hfile => ?_⟩⟩
  · exact loadChain_of_certificates hread (certificates_of_carries h hs)
  · rintro rfl
    have hnone := certificates_of_carries h hs
    unfold loadChain
    rw [hread]
    dsimp only
    rw [hnone]
  · obtain ⟨e, he⟩ := certificates_of_broken hframed hbroken hs
    exact ⟨e, loadChain_of_error hread he⟩
  · obtain ⟨e, he⟩ := certificates_of_opened hframed hs hfile
    exact ⟨e, loadChain_of_error hread he⟩

/-- A certificate of four octets, broken into two lines. -/
def leaf : Section :=
  ⟨Text.bytes "CERTIFICATE", .lf, [⟨Text.bytes "AAEC", .crlf⟩, ⟨Text.bytes "Aw==", .lf⟩], .crlf⟩

/-- A section of a label that means nothing here. -/
def parameters : Section :=
  ⟨Text.bytes "DH PARAMETERS", .lf, [⟨Text.bytes "anything at all", .lf⟩], .lf⟩

/-- A section of a known label whose body is no base64. -/
def garbled : Section := ⟨Text.bytes "X509 CRL", .lf, [⟨Text.bytes "AA*A", .lf⟩], .lf⟩

def remark : Item := .stray ⟨Text.bytes "issuer: none", .cr⟩

/-- A chain among other things, one with something garbled behind it, and one that breaks off. -/
def chainFiles : Files :=
  .ofList ["relay"] [
    ("chain.pem", written [remark, .block leaf, .block parameters, .block leaf]),
    ("garbled.pem", written [.block leaf, .block garbled] ++ Text.bytes "-----BEGIN"),
    ("short.pem", written [.block leaf] ++ parameters.opened)] []

theorem loadChain_amongOthers :
    loadChain chainFiles "chain.pem" = .ok [[0, 1, 2, 3], [0, 1, 2, 3]] ∧
    (∃ e, loadChain chainFiles "garbled.pem" = .error (.chainBroken "garbled.pem" e)) ∧
    ∃ e, loadChain chainFiles "short.pem" = .error (.chainBroken "short.pem" e) := by
  have hleaf : leaf.Writes ⟨.certificate, [0, 1, 2, 3]⟩ := ⟨rfl, by decide, by decide⟩
  have hparameters : parameters.Framed ∧ (Item.block parameters).outcome = none := by decide
  have hgarbled : garbled.Framed ∧ (Item.block garbled).Broken := ⟨by decide, _, rfl⟩
  have hcarries : Carries [remark, .block leaf, .block parameters, .block leaf]
      [[0, 1, 2, 3], [0, 1, 2, 3]] := by
    refine .other (by decide) nofun nofun (.certificate hleaf (.other hparameters.1 ?_ ?_
      (.certificate hleaf .nil)))
    · rintro ⟨e, he⟩
      rw [hparameters.2] at he
      cases he
    · intro e he
      rw [Item.entry, hparameters.2] at he
      cases he
  refine ⟨?_, ?_, ?_⟩
  · have hread : chainFiles.read "chain.pem" = .ok _ := rfl
    exact ((loadChain_written hread _).1 _ hcarries (.inl rfl)).1 (List.cons_ne_nil _ _)
  · have hread : chainFiles.read "garbled.pem" = .ok _ := rfl
    refine ((loadChain_written hread [.block leaf, .block garbled]).2 ?_).1
      (Text.bytes "-----BEGIN") ⟨_, List.mem_cons_of_mem _ List.mem_cons_self, hgarbled.2⟩ (.inl rfl)
    exact List.forall_mem_cons.2 ⟨hleaf.framed, List.forall_mem_singleton.2 hgarbled.1⟩
  · have hread : chainFiles.read "short.pem" = .ok _ := rfl
    exact ((loadChain_written hread [.block leaf]).2
      (List.forall_mem_singleton.2 hleaf.framed)).2 parameters hparameters.1 (.inl rfl)

end Tls

end Switchboard
