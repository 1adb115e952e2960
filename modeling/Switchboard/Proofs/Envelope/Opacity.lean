import Mathlib.Data.List.Forall2
import Switchboard.Hub.Basic
import Switchboard.Proofs.Envelope.Reading

/-!
# What an envelope carries is not looked at

A frame that is an object may have other values in its members than the two identifiers
(`Redressed`): whether it is an envelope, and which one, stays the same, and so does what the relay
says to it (`Alike`).

    Redressed f f' → ofFrame f = ok e ↔ ofFrame f' = ok e
    Redressed f f' → accept bound f = ok e ↔ accept bound f' = ok e
-/

namespace Switchboard

open Json

/-! ## Specification -/

/-- Members of one name, and of one value if the name is that of an identifier. -/
def Envelope.SameHeader (m m' : Member) : Prop :=
  m'.name = m.name ∧ (m.name = "userId" ∨ m.name = "toUserId" → m'.value = m.value)

/-- A frame and what it becomes when other values are put into the members of its object; the two
identifiers stay as they are. -/
inductive Frame.Redressed : Frame → Frame → Prop
  | same (f : Frame) : Redressed f f
  | text {s s' : String} {ms ms' : List Member} (h : ObjectText Inside ms (Text.bytes s))
      (h' : ObjectText Inside ms' (Text.bytes s')) (hms : List.Forall₂ Envelope.SameHeader ms ms') :
      Redressed (.text s) (.text s')
  | binary {b b' : Bytes} {ms ms' : List Member} (h : ObjectText Inside ms b)
      (h' : ObjectText Inside ms' b') (hms : List.Forall₂ Envelope.SameHeader ms ms') :
      Redressed (.binary b) (.binary b')

/-- Violations that differ in the words for what is malformed at most. -/
inductive Violation.Alike : Violation → Violation → Prop
  | same (v : Violation) : Alike v v
  | malformed (p p' : Problem) : Alike (.malformed p) (.malformed p')

/-- The same envelope, or violations that are alike. -/
inductive Envelope.Alike : Except Violation Envelope → Except Violation Envelope → Prop
  | envelope (e : Envelope) : Alike (.ok e) (.ok e)
  | violation {v v' : Violation} (h : v.Alike v') : Alike (.error v) (.error v')

theorem Violation.Alike.kind {v v' : Violation} (h : v.Alike v') : v'.kind = v.kind := by
  cases h <;> rfl

namespace Envelope

variable {ms ms' : List Member} {b b' : Bytes}

/-! ## Members -/

/-- The members of a name come to as many values, and for an identifier to the same. -/
theorem valuesOf_sameHeader (h : List.Forall₂ SameHeader ms ms') (name : String) :
    (valuesOf name ms').length = (valuesOf name ms).length ∧
      (name = "userId" ∨ name = "toUserId" → valuesOf name ms' = valuesOf name ms) := by
  induction h with
  | nil => exact ⟨rfl, fun _ => rfl⟩
  | @cons m m' ms ms' hm _ ih =>
    obtain ⟨hlength, hsame⟩ := ih
    obtain ⟨hname, hvalue⟩ := hm
    by_cases hn : m.name = name
    · have hcons : valuesOf name (m :: ms) = m.value :: valuesOf name ms := by
        simp [valuesOf, hn]
      have hcons' : valuesOf name (m' :: ms') = m'.value :: valuesOf name ms' := by
        simp [valuesOf, hname, hn]
      rw [hcons, hcons', List.length_cons, List.length_cons, hlength]
      refine ⟨rfl, fun hid => ?_⟩
      rw [hsame hid, hvalue (hn ▸ hid)]
    · have hskip : valuesOf name (m :: ms) = valuesOf name ms := by
        simp [valuesOf, hn]
      have hskip' : valuesOf name (m' :: ms') = valuesOf name ms' := by
        simp [valuesOf, hname, hn]
      rw [hskip, hskip']
      exact ⟨hlength, hsame⟩

theorem header_of_sameHeader (h : List.Forall₂ SameHeader ms ms') {e : Envelope}
    (hms : Header ms e) : Header ms' e := by
  obtain ⟨sender, recipient, v, hv⟩ := hms
  have hlength := (valuesOf_sameHeader h "message").1
  rw [hv, List.length_singleton] at hlength
  constructor
  · rw [(valuesOf_sameHeader h "userId").2 (.inl rfl)]
    exact sender
  · rw [(valuesOf_sameHeader h "toUserId").2 (.inr rfl)]
    exact recipient
  · exact List.length_eq_one_iff.1 hlength

theorem SameHeader.symm {m m' : Member} (h : SameHeader m m') : SameHeader m' m := by
  obtain ⟨hname, hvalue⟩ := h
  refine ⟨hname.symm, fun hid => ?_⟩
  rw [hname] at hid
  exact (hvalue hid).symm

theorem header_iff_of_sameHeader (h : List.Forall₂ SameHeader ms ms') {e : Envelope} :
    Header ms' e ↔ Header ms e := by
  refine ⟨fun he => ?_, header_of_sameHeader h⟩
  exact header_of_sameHeader (h.flip.imp fun _ _ hm => SameHeader.symm hm) he

/-! ## Documents -/

theorem ofBytes_object (h : ObjectText Inside ms b) {e : Envelope} :
    ofBytes b = .ok e ↔ Header ms e :=
  ofBytes_eq_ok_iff_parse.trans
    ((Record.parse_object (fun _ => field_reads) h).trans makes_iff)

theorem alike_ofBytes (h : ObjectText Inside ms b) (h' : ObjectText Inside ms' b')
    (hms : List.Forall₂ SameHeader ms ms') : Alike (ofBytes b) (ofBytes b') := by
  by_cases hok : ∃ e, Header ms e
  · obtain ⟨e, he⟩ := hok
    rw [(ofBytes_object h).2 he, (ofBytes_object h').2 (header_of_sameHeader hms he)]
    exact .envelope e
  · have hno : ∀ e, ofBytes b ≠ .ok e := fun e he => hok ⟨e, (ofBytes_object h).1 he⟩
    have hno' : ∀ e, ofBytes b' ≠ .ok e := fun e he =>
      hok ⟨e, (header_iff_of_sameHeader hms).1 ((ofBytes_object h').1 he)⟩
    obtain ⟨p, hp⟩ := ofBytes_eq_error hno
    obtain ⟨p', hp'⟩ := ofBytes_eq_error hno'
    rw [hp, hp']
    exact .violation (.malformed p p')

theorem Alike.refl (x : Except Violation Envelope) : Alike x x := by
  cases x with
  | ok e => exact .envelope e
  | error v => exact .violation (.same v)

/-- **Two frames that differ in what they carry are the same envelope, or both are none.** -/
theorem alike_ofFrame {f f' : Frame} (h : f.Redressed f') : Alike (ofFrame f) (ofFrame f') := by
  cases h with
  | same => exact .refl _
  | text h h' hms => exact alike_ofBytes h h' hms
  | binary h h' hms => exact alike_ofBytes h h' hms

end Envelope

/-- The relay takes both for the same envelope, or refuses both for the same reason. -/
theorem Hub.alike_accept {f f' : Frame} (h : f.Redressed f') (bound : PeerId) :
    Envelope.Alike (accept bound f) (accept bound f') := by
  unfold accept
  generalize hx : Envelope.ofFrame f = x
  generalize hx' : Envelope.ofFrame f' = x'
  have halike := Envelope.alike_ofFrame h
  rw [hx, hx'] at halike
  cases halike with
  | envelope e => exact .refl _
  | violation hv => exact .violation hv

end Switchboard
