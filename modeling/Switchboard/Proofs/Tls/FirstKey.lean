import Switchboard.Proofs.Tls.Sections
import Switchboard.Tls.Material

/-!
# The first key

The key of a file is that of its first section which holds one: sections of other kinds and stray
lines in front of it are passed over, and what stands behind it is not looked at.

    loadKey of written items ++ s.bytes ++ anything = ok (the key of s)      for items without keys
-/

namespace Switchboard

namespace Pem

/-! ## Specification -/

/-- The item is framed as it should be, its body is not broken, and it holds no private key. -/
structure Item.Keyless (i : Item) : Prop where
  framed : i.Framed
  sound : ¬ i.Broken
  other : ∀ e, i.entry = some e → e.kind.isKey = false

/-! ## Entries -/

variable {file : Bytes} {items : List Item} {s : Section} {key : Entry}

/-- Entries that are no keys are passed over. -/
theorem firstKeyOf_append {es : List Entry} (h : ∀ e ∈ es, e.kind.isKey = false)
    (more : List (Except Error Entry)) : firstKeyOf (es.map .ok ++ more) = firstKeyOf more := by
  induction es with
  | nil => rfl
  | cons e es ih =>
    obtain ⟨he, hes⟩ := List.forall_mem_cons.1 h
    rw [List.map_cons, List.cons_append, firstKeyOf, he, ih hes]
    rfl

theorem keyless_entries (h : ∀ i ∈ items, i.Keyless) :
    ∀ e ∈ items.filterMap Item.entry, e.kind.isKey = false := by
  intro e he
  obtain ⟨i, hi, hentry⟩ := List.mem_filterMap.1 he
  exact (h i hi).other e hentry

/-- What is read of items without keys, and then of what stands behind them. -/
theorem entries_keyless (h : ∀ i ∈ items, i.Keyless) (rest : Bytes) :
    entries (written items ++ rest) = (items.filterMap Item.entry).map .ok ++ entries rest := by
  rw [entries_written fun i hi => (h i hi).framed, foldr_follow fun i hi => (h i hi).sound]

theorem firstKey_written (h : ∀ i ∈ items, i.Keyless) (hs : s.Writes key)
    (hkey : key.kind.isKey = true) (rest : Bytes) :
    firstKey (written items ++ (s.bytes ++ rest)) = .ok (some key) := by
  rw [firstKey, entries_keyless h, firstKeyOf_append (keyless_entries h), hs.framed.entries_bytes,
    hs.outcome, follow, firstKeyOf, if_pos hkey]

theorem firstKey_keyless (h : ∀ i ∈ items, i.Keyless) (hfile : Spells file (written items)) :
    firstKey file = .ok none := by
  have htext : entries (written items) = (items.filterMap Item.entry).map .ok := by
    have hall := entries_keyless h []
    rw [List.append_nil] at hall
    exact hall.trans (List.append_nil _)
  have hsame : entries file = entries (written items) := by
    refine entries_of_spells hfile fun line hmem => ?_
    rw [htext] at hmem
    obtain ⟨e, -, he⟩ := List.mem_map.1 hmem
    cases he
  have hnone := firstKeyOf_append (keyless_entries h) []
  rw [List.append_nil] at hnone
  rw [firstKey, hsame, htext, hnone]
  rfl

end Pem

/-! ## Top theorem -/

namespace Tls

open Pem

variable {fs : Files} {path : String} {file : Bytes}

/-- **The first key is the key.**  Whatever sections of other kinds and stray lines stand in front of
it, and whatever bytes behind it, the first section that holds a private key is what is loaded: what
its base64 was written of, under the kind of its label.  Without such a section there is the error
that there is none. -/
theorem loadKey_first (hread : fs.read path = .ok file) {items : List Item}
    (h : ∀ i ∈ items, i.Keyless) :
    (∀ s key rest, Section.Writes s key → key.kind.isKey = true →
      file = written items ++ (s.bytes ++ rest) → loadKey fs path = .ok key) ∧
    (Spells file (written items) → loadKey fs path = .error (.keyAbsent path)) := by
  constructor
  · rintro s key rest hs hkey rfl
    unfold loadKey
    rw [hread]
    dsimp only
    rw [firstKey_written h hs hkey]
  · intro hfile
    unfold loadKey
    rw [hread]
    dsimp only
    rw [firstKey_keyless h hfile]

/-- A key of three octets. -/
def ecKey : Section := ⟨Text.bytes "EC PRIVATE KEY", .crlf, [⟨Text.bytes "AAEC", .crlf⟩], .lf⟩

/-- A key behind a request and in front of what is no section, and the request alone. -/
def keyFiles : Files :=
  let request : Section :=
    ⟨Text.bytes "CERTIFICATE REQUEST", .lf, [⟨Text.bytes "Aw==", .lf⟩], .lf⟩
  .ofList ["relay"] [
    ("key.pem", written [.block request] ++ (ecKey.bytes ++ Text.bytes "-----BEGIN\n")),
    ("request.pem", written [.block request])] []

theorem loadKey_behindRequest :
    loadKey keyFiles "key.pem" = .ok ⟨.ecKey, [0, 1, 2]⟩ ∧
    loadKey keyFiles "request.pem" = .error (.keyAbsent "request.pem") := by
  let request : Section :=
    ⟨Text.bytes "CERTIFICATE REQUEST", .lf, [⟨Text.bytes "Aw==", .lf⟩], .lf⟩
  have hrequest : request.Writes ⟨.request, [3]⟩ := ⟨rfl, by decide, by decide⟩
  have hkeyless : ∀ i ∈ [Item.block request], i.Keyless := by
    refine List.forall_mem_singleton.2 ⟨hrequest.framed, hrequest.not_broken, fun e he => ?_⟩
    rw [hrequest.entry] at he
    cases he
    rfl
  have hkey : ecKey.Writes ⟨.ecKey, [0, 1, 2]⟩ := ⟨rfl, by decide, by decide⟩
  have hreadKey : keyFiles.read "key.pem" = .ok _ := rfl
  have hreadRequest : keyFiles.read "request.pem" = .ok _ := rfl
  exact ⟨(loadKey_first hreadKey hkeyless).1 ecKey _ _ hkey rfl rfl,
    (loadKey_first hreadRequest hkeyless).2 (.inl rfl)⟩

end Tls

end Switchboard
