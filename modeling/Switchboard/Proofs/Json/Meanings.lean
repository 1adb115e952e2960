import Switchboard.Proofs.Json.Documents
import Switchboard.Proofs.Json.Magnitudes

/-!
# What documents mean

A document is read as what it says, where each numeral stands for an integer of 64 bits or for a
double about what it amounts to (`Stands`); and it is read if all its numerals stay within the
doubles (`Held`).  Texts in which a numeral is at the border may be read or not.

    document s = ok v → DocumentText Stands v s
    DocumentText Held v s → ∃ w, document s = ok w
-/

namespace Switchboard.Json

/-! ## Specification -/

/-- A numeral within the doubles, and what it stands for. -/
def Held (t : Bytes) (n : Number) : Prop := Stands t n ∧ Moderate t

/-- Values of one kind, which are the same but for numbers, lists and objects. -/
inductive Resembles : Value → Value → Prop
  | same (v : Value) : Resembles v v
  | number (n m : Number) : Resembles (.number n) (.number m)
  | array (vs ws : List Value) : Resembles (.array vs) (.array ws)
  | object (ms ms' : Members) : Resembles (.object ms) (.object ms')

/-! ## Other numbers in place of some -/

section Choose

variable {α β γ : Type} {P : α → Bytes → Prop} {Q : β → Bytes → Prop} {f : α → γ} {g : β → γ}
  {as : List α} {t : Bytes}

theorem More.choose (h : ∀ a b, P a b → ∃ c, g c = f a ∧ Q c b) (hm : More P as t) :
    ∃ cs, cs.map g = as.map f ∧ More Q cs t := by
  induction hm with
  | done hg => exact ⟨[], rfl, .done hg⟩
  | next hg ha hm ih =>
    obtain ⟨c, hc, hq⟩ := h _ _ ha
    obtain ⟨cs, hcs, hmore⟩ := ih
    exact ⟨c :: cs, by rw [List.map_cons, List.map_cons, hc, hcs], .next hg hq hmore⟩

theorem Body.choose (h : ∀ a b, P a b → ∃ c, g c = f a ∧ Q c b) (hb : Body P as t) :
    ∃ cs, cs.map g = as.map f ∧ Body Q cs t := by
  cases hb with
  | empty hg => exact ⟨[], rfl, .empty hg⟩
  | filled ha hm =>
    obtain ⟨c, hc, hq⟩ := h _ _ ha
    obtain ⟨cs, hcs, hmore⟩ := hm.choose h
    exact ⟨c :: cs, by rw [List.map_cons, List.map_cons, hc, hcs], .filled hq hmore⟩

end Choose

variable {S S' : Sense} {N N' : Bytes → Number → Prop} {depth nested : Nat} {v w : Value}
  {s t : Bytes}

/-- Whatever stands for something in `S` stands for something of that kind in `S'`. -/
structure Sense.Covers (S S' : Sense) : Prop where
  number : ∀ t n, S.number t n → ∃ m, S'.number t m
  text : ∀ t u, S.text t u → ∃ w, S'.text t w ∧ Resembles u w

theorem Plainly.choose (h : Plainly S v t) (hS : S.Covers S') :
    ∃ w, Plainly S' w t ∧ Resembles v w := by
  cases h with
  | null => exact ⟨_, .null, .same _⟩
  | tt => exact ⟨_, .tt, .same _⟩
  | ff => exact ⟨_, .ff, .same _⟩
  | number ht hn =>
    obtain ⟨m, hm⟩ := hS.number _ _ hn
    exact ⟨_, .number ht hm, .number _ _⟩
  | string h => exact ⟨_, .string h, .same _⟩

theorem Unquoted.of_names {ms ms' : Members} (h : Unquoted ms)
    (hnames : ms'.map Prod.fst = ms.map Prod.fst) : Unquoted ms' := by
  cases ms' with
  | nil => exact fun _ hm => by cases hm
  | cons m' ms' =>
    cases ms with
    | nil => cases hnames
    | cons m ms =>
      intro x hx
      cases hx
      rw [(List.cons.inj hnames).1]
      exact h m rfl

theorem Quoted.choose (h : Quoted S v t) (hS : S.Covers S') :
    ∃ w, Quoted S' w t ∧ Resembles v w := by
  obtain ⟨u, body, hb, hu, rfl⟩ := h
  obtain ⟨w, hw, hkind⟩ := hS.text _ _ hu
  have hbody : Body (Entry Prod.fst fun m => Plainly S' m.2) [(rawName, .string u)] body := by
    cases hb with
    | filled hm hmore =>
      cases hmore with
      | done hg =>
        refine .filled ?_ (.done hg)
        obtain ⟨g, raw, g₁, g₂, x, hg, hraw, hg₁, hg₂, hx, rfl⟩ := hm
        refine ⟨g, raw, g₁, g₂, x, hg, hraw, hg₁, hg₂, ?_, rfl⟩
        cases hx with
        | string h => exact .string h
  exact ⟨w, ⟨u, body, hbody, hw, rfl⟩, hkind⟩

/-- **A text says something still**, where numerals and texts stand for others. -/
theorem Depicts.choose (h : Depicts S depth v t) (hS : S.Covers S') :
    ∃ w, Depicts S' depth w t ∧ Resembles v w := by
  induction depth generalizing v t with
  | zero => exact Plainly.choose h hS
  | succ depth ih =>
    obtain h | ⟨vs, body, hb, rfl, rfl⟩ | ⟨ms, body, hb, hms, rfl, rfl⟩ | h := h
    · obtain ⟨w, hw, hkind⟩ := h.choose hS
      exact ⟨w, .inl hw, hkind⟩
    · obtain ⟨ws, -, hbody⟩ := hb.choose (f := fun _ => ()) (g := fun _ : Value => ())
        (Q := Element (Depicts S' depth)) fun a b ⟨g, x, hg, hx, heq⟩ => by
          obtain ⟨c, hc, -⟩ := ih hx
          exact ⟨c, rfl, g, x, hg, hc, heq⟩
      exact ⟨_, .inr (.inl ⟨ws, body, hbody, rfl, rfl⟩), .array _ _⟩
    · obtain ⟨ws, hnames, hbody⟩ := hb.choose (f := Prod.fst) (g := Prod.fst)
        (Q := Entry Prod.fst fun m : String × Value => Depicts S' depth m.2)
        fun a b ⟨g, raw, g₁, g₂, x, hg, hraw, hg₁, hg₂, hx, heq⟩ => by
          obtain ⟨c, hc, -⟩ := ih hx
          exact ⟨(a.1, c), rfl, g, raw, g₁, g₂, x, hg, hraw, hg₁, hg₂, hc, heq⟩
      exact ⟨_, .inr (.inr (.inl ⟨ws, body, hbody, hms.of_names hnames, rfl, rfl⟩)), .object _ _⟩
    · obtain ⟨w, hw, hkind⟩ := h.choose hS
      exact ⟨w, .inr (.inr (.inr hw)), hkind⟩

theorem SaysWithin.choose (hN : ∀ t n, N t n → ∃ m, N' t m) (h : SaysWithin N nested v s) :
    ∃ w, SaysWithin N' nested w s ∧ Resembles v w := by
  induction nested generalizing v s with
  | zero => cases h
  | succ nested ih =>
    obtain ⟨g, t, g', hg, ht, hg', rfl⟩ := h
    have hcovers : Sense.Covers ⟨N, fun t u => SaysWithin N nested u t⟩
        ⟨N', fun t u => SaysWithin N' nested u t⟩ := ⟨hN, fun _ _ hu => ih hu⟩
    obtain ⟨w, hw, hkind⟩ := ht.choose hcovers
    exact ⟨w, ⟨g, t, g', hg, hw, hg', rfl⟩, hkind⟩

theorem DocumentText.choose (hN : ∀ t n, N t n → ∃ m, N' t m) (h : DocumentText N v s) :
    ∃ w, DocumentText N' w s ∧ Resembles v w := by
  obtain ⟨nested, h⟩ := h
  obtain ⟨w, hw, hkind⟩ := h.choose hN
  exact ⟨w, ⟨nested, hw⟩, hkind⟩

/-! ## Texts that begin with neither bracket nor brace -/

/-- What begins with neither bracket nor brace is written plainly. -/
theorem plainly_of_depicts {b : UInt8} (h : Depicts S depth v (b :: s)) (hlist : b ≠ 91)
    (hobject : b ≠ 123) : Plainly S v (b :: s) := by
  cases depth with
  | zero => exact h
  | succ depth =>
    obtain h | ⟨_, _, _, _, heq⟩ | ⟨_, _, _, _, _, heq⟩ | ⟨_, _, _, _, heq⟩ := h
    · exact h
    · exact absurd (List.cons.inj heq).1 hlist
    · exact absurd (List.cons.inj heq).1 hobject
    · exact absurd (List.cons.inj heq).1 hobject

/-! ## Top theorems -/

/-- **A document is read as what it says.** -/
theorem documentText_of_document (h : document s = .ok v) : DocumentText Stands v s :=
  (document_eq_ok_iff.1 h).mono fun _ _ => stands_of_scanNumber

/-- **A document is read** if all its numerals are within the doubles. -/
theorem document_of_documentText (h : DocumentText Held v s) : ∃ w, document s = .ok w := by
  have hscanned : ∀ t n, Held t n → ∃ m, Scanned t m := fun _ _ hn => scanNumber_of_moderate hn.2
  obtain ⟨w, hw, -⟩ := h.choose hscanned
  exact ⟨w, document_eq_ok_iff.2 hw⟩

theorem document_eq_error (h : ∀ v, ¬ DocumentText Stands v s) : ∃ p, document s = .error p := by
  cases hd : document s with
  | error p => exact ⟨p, rfl⟩
  | ok v => exact absurd (documentText_of_document hd) (h v)

end Switchboard.Json
