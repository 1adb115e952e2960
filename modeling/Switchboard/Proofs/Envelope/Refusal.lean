import Switchboard.Proofs.Envelope.Reading
import Switchboard.Proofs.Relay.Calls
import Switchboard.Proofs.Relay.Teardown

/-!
# What is no envelope ends its link

Of all data frames those are envelopes whose bytes are such a document, and a link that reads any
other is closed for it.

    ofFrame f = ok e ↔ Document Inside f.content e
    no e is in f.content → the link that reads f is closing, its frame malformed
-/

namespace Switchboard.Relay

open Json Envelope

variable {f : Frame}

/-- The link that reads a malformed frame is closed. -/
theorem World.closing_of_malformed {w : World} {i : Nat} {l : Link} {p : Problem}
    (hl : w.links[i]? = some l) (hf : w.offer? l = some f)
    (hp : ofFrame f = .error (.malformed p)) :
    ∃ l' owed giveUp, (w.undergo (.turn i .read)).1.links[i]? = some l' ∧
      l'.phase = .closing (.violation (.malformed p)) owed giveUp := by
  have hroute : (w.hub.route l.peer f).2 = .error (.malformed p) := by
    simp only [Hub.route, Hub.accept, hp]
  have hcall : w.call? (.turn i .read) =
      some ⟨i, l.peer, f, w.target? l.peer f, (w.hub.route l.peer f).2⟩ :=
    call?_eq_some_iff.2 ⟨l, rfl, hl, hf, rfl, rfl, rfl⟩
  obtain ⟨l₂, c, rest, hl₂, -, -, ⟨h, o, -, ha, -⟩ | ⟨h, v, giveUp, owed, -, ha, hw⟩⟩ :=
    undergo_call hcall
  · rw [hroute] at ha
    cases ha
  · rw [hroute] at ha
    cases ha
    rw [hw]
    exact ⟨_, owed, giveUp, links_put_self hl₂ _, rfl⟩

/-! ## Top theorem -/

/-- **Only documents of one shape are envelopes.**  A data frame is an envelope if and only if its
bytes are an object that has each of the three members once, the identifiers among them, or a list
of just these three values; whatever else it holds, it is malformed, and any link that reads it is
closed for that violation. -/
theorem envelope_only_if_document (f : Frame) (hf : f.isData = true) :
    (∀ e, ofFrame f = .ok e ↔ Document Inside (f.content) e) ∧
      ((∀ e, ¬ Document Inside (f.content) e) →
        ∃ p, ofFrame f = .error (.malformed p) ∧
          ∀ (w : World) (i : Nat) (l : Link), w.links[i]? = some l → w.offer? l = some f →
            ∃ l' owed giveUp, (w.undergo (.turn i .read)).1.links[i]? = some l' ∧
              l'.phase = .closing (.violation (.malformed p)) owed giveUp) := by
  rw [ofFrame_eq_ofBytes hf]
  refine ⟨fun e => ofBytes_eq_ok_iff, fun hn => ?_⟩
  obtain ⟨p, hp⟩ := ofBytes_eq_error fun e he => hn e (ofBytes_eq_ok_iff.1 he)
  exact ⟨p, hp, fun w i l hl ho =>
    w.closing_of_malformed hl ho ((ofFrame_eq_ofBytes hf).trans hp)⟩

/-- Two identifiers, and nothing for the recipient. -/
def pair : Frame := .text "[1,2]"

theorem envelope_only_if_document_pair :
    let w := (World.start (.ofSettings {}) none).after
      [.act (.connect (World.seventh "first")), .arrive 0 (.frame pair)]
    pair.isData = true ∧ (∀ e, ¬ Document Inside (pair.content) e) ∧
      ∃ l p l' owed giveUp, w.links[0]? = some l ∧ w.offer? l = some pair ∧
        (w.undergo (.turn 0 .read)).1.links[0]? = some l' ∧
        l'.phase = .closing (.violation (.malformed p)) owed giveUp := by
  intro w
  obtain ⟨hread, hrefused⟩ := envelope_only_if_document pair rfl
  have hno : ∀ e, ¬ Document Inside (pair.content) e := by
    intro e he
    have hfails : (ofFrame pair).isOk = false := by decide +kernel
    rw [(hread e).2 he] at hfails
    cases hfails
  have hoffer : (w.links[0]?).bind w.offer? = some pair := by decide +kernel
  obtain ⟨l, hl, ho⟩ := Option.bind_eq_some_iff.1 hoffer
  obtain ⟨p, -, hclosing⟩ := hrefused hno
  obtain ⟨l', owed, giveUp, hl', hphase⟩ := hclosing w 0 l hl ho
  exact ⟨rfl, hno, l, p, l', owed, giveUp, hl, ho, hl', hphase⟩

/-- A list of three is an envelope and no object. -/
theorem envelope_without_members : ofFrame (.text "[1,2,null]") = .ok ⟨1, 2⟩ ∧
    ¬ ∃ ms, ObjectText Inside ms (Text.bytes "[1,2,null]") := by
  refine ⟨by decide +kernel, fun ⟨ms, hms⟩ => ?_⟩
  have hhead : (skipBlank (Text.bytes "[1,2,null]")).head? = some 91 := by decide +kernel
  rw [hms.head] at hhead
  cases hhead

end Switchboard.Relay
