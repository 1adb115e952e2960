import Switchboard.Envelope
import Switchboard.Proofs.Json.Records
import Switchboard.Proofs.Json.Texts

/-!
# Which documents are envelopes

An envelope is an object in which each of three names comes once, two of them with an identifier,
among any others (`Header`); or it is a list of three values in the same order (`Positions`).  The
members of an object are taken one by one, each by the field of its name, and at every point each
field awaits its one value or has it (`Awaits`).

    ofBytes b = ok e ↔ Document Inside b e
    Awaits for the first member and the others ↔ it can be taken, and Awaits for the others then
-/

namespace Switchboard

/-! ## Specification -/

/-- The bytes of a data frame. -/
def Frame.content : Frame → Bytes
  | text s => Text.bytes s
  | binary b => b
  | _ => []

namespace Envelope

open Json

/-- The values of the members that have this name. -/
def valuesOf (name : String) (ms : List Member) : List Bytes :=
  (ms.filter (·.name == name)).map (·.value)

/-- The value is an integer numeral, of 64 bits with its sign. -/
def IsId (v : Bytes) (id : PeerId) : Prop :=
  Denotes v id ∧ -(Bounds.half64 : Int) ≤ id ∧ id ≤ (Bounds.half64 : Int) - 1

/-- What members make an envelope: each of the three names comes once. -/
structure Header (ms : List Member) (e : Envelope) : Prop where
  sender : ∃ v, valuesOf "userId" ms = [v] ∧ IsId v e.sender
  recipient : ∃ v, valuesOf "toUserId" ms = [v] ∧ IsId v e.recipient
  payload : ∃ v, valuesOf "message" ms = [v]

/-- What a list is if it makes an envelope. -/
def Positions (vs : List Bytes) (e : Envelope) : Prop :=
  ∃ sender recipient payload, vs = [sender, recipient, payload] ∧ IsId sender e.sender ∧
    IsId recipient e.recipient

/-- The documents that are envelopes; `S` says what can stand in strings that are passed over. -/
def Document (S : Bytes → Prop) (b : Bytes) (e : Envelope) : Prop :=
  (∃ ms, ObjectText S ms b ∧ Header ms e) ∨ ∃ vs, ListText S vs b ∧ Positions vs e

/-! ## Fields -/

/-- What a field takes from its value. -/
def takes (f : Json.Field Envelope) (e : Envelope) (v : Bytes) (e' : Envelope) : Prop :=
  if f.name = "userId" then ∃ id, IsId v id ∧ e' = { e with sender := id }
  else if f.name = "toUserId" then ∃ id, IsId v id ∧ e' = { e with recipient := id }
  else e' = e

theorem payloadField_reads : payloadField.Reads fun e _ e' => e' = e where
  sound {depth s rest e e'} h := by
    simp only [payloadField] at h
    cases hskip : skipValue s with
    | error x =>
      rw [hskip] at h
      cases h
    | ok r =>
      rw [hskip] at h
      cases h
      exact value_of_skipValue hskip
  exact {depth g v rest e} hg hv hr := by
    simp only [payloadField, skipValue_append (fun _ => id) hg hv hr]
    exact gives_ok rfl fun _ he => he

theorem signed64_reads : signed64.Reads IsId :=
  integer_reads (Int.le_refl _) (by decide)

theorem field_reads {f : Json.Field Envelope} (hf : f ∈ record.fields) : f.Reads (takes f) := by
  simp only [record, List.mem_cons, List.not_mem_nil, or_false] at hf
  rcases hf with rfl | rfl | rfl
  · exact signed64_reads.field "userId" _
  · exact signed64_reads.field "toUserId" _
  · exact payloadField_reads

/-! ## What is still to come -/

/-- What came for a field, if its name did. -/
def come {α : Type} (name : String) (get : Envelope → α) (acc : Filled Envelope) : Option α :=
  if name ∈ acc.seen then some (get acc.state) else none

/-- A field has its value `x`, or these values hold it. -/
def Awaits {α : Type} (P : Bytes → α → Prop) (x : α) : Option α → List Bytes → Prop
  | none, vs => ∃ v, vs = [v] ∧ P v x
  | some y, vs => vs = [] ∧ y = x

/-- The members are those that are still to come for `e`. -/
structure Remaining (acc : Filled Envelope) (ms : List Member) (e : Envelope) : Prop where
  sender : Awaits IsId e.sender (come "userId" sender acc) (valuesOf "userId" ms)
  recipient : Awaits IsId e.recipient (come "toUserId" recipient acc) (valuesOf "toUserId" ms)
  payload : Awaits (fun _ _ => True) () (come "message" (fun _ => ()) acc) (valuesOf "message" ms)

variable {α : Type} {name : String} {ms : List Member} {m : Member} {acc acc' : Filled Envelope}
  {e : Envelope}

section Awaits

variable {P : Bytes → α → Prop} {seen : List String} {x y : α}

/-- The value comes: there was none, and there is none behind it. -/
theorem awaits_first :
    Awaits P x (if m.name ∈ seen then some y else none) (valuesOf m.name (m :: ms)) ↔
      m.name ∉ seen ∧ P m.value x ∧ valuesOf m.name ms = [] := by
  have hvalues : valuesOf m.name (m :: ms) = m.value :: valuesOf m.name ms := by
    simp [valuesOf]
  rw [hvalues]
  split
  · next hseen => exact ⟨fun h => (List.cons_ne_nil _ _ h.1).elim, fun h => absurd hseen h.1⟩
  · next hseen =>
    constructor
    · rintro ⟨v, hv, hP⟩
      obtain ⟨rfl, hnone⟩ := List.cons.inj hv
      exact ⟨hseen, hP, hnone⟩
    · rintro ⟨-, hP, hnone⟩
      exact ⟨m.value, by rw [hnone], hP⟩

/-- Under other names it is nothing. -/
theorem awaits_later (h : m.name ≠ name) :
    Awaits P x (if name ∈ m.name :: seen then some y else none) (valuesOf name ms) ↔
      Awaits P x (if name ∈ seen then some y else none) (valuesOf name (m :: ms)) := by
  simp [valuesOf, h, h.symm]

/-- At the end nothing is awaited any more. -/
theorem awaits_nil : Awaits P x (if name ∈ seen then some y else none) (valuesOf name []) ↔
    name ∈ seen ∧ y = x := by
  split
  · next hseen => exact ⟨fun h => ⟨hseen, h.2⟩, fun h => ⟨rfl, h.2⟩⟩
  · next hseen => exact ⟨(fun ⟨_, hv, _⟩ => nomatch hv), fun h => absurd h.1 hseen⟩

end Awaits

section Field

variable {P : Bytes → α → Prop} {get : Envelope → α} {x : α}

theorem awaits_this (h : m.name = name) :
    Awaits P x (come name get acc) (valuesOf name (m :: ms)) ↔
      m.name ∉ acc.seen ∧ P m.value x ∧ valuesOf name ms = [] := by
  subst h
  exact awaits_first

/-- The value of a field came, and no other. -/
theorem awaits_came {seen : List String} {st : Envelope} {vs : List Bytes} (h : m.name = name) :
    Awaits P x (come name get ⟨m.name :: seen, st⟩) vs ↔ vs = [] ∧ get st = x := by
  rw [h, come, if_pos List.mem_cons_self, Awaits]

/-- To the other fields it is nothing. -/
theorem awaits_other {st : Envelope} (h : m.name ≠ name) (hget : get st = get acc.state) :
    Awaits P x (come name get ⟨m.name :: acc.seen, st⟩) (valuesOf name ms) ↔
      Awaits P x (come name get acc) (valuesOf name (m :: ms)) := by
  rw [come, come, hget]
  exact awaits_later h

end Field

theorem find_field {f : Json.Field Envelope} (hf : f ∈ record.fields) (hn : m.name = f.name) :
    record.fields.find? (·.name == m.name) = some f := by
  rw [hn]
  simp only [record, List.mem_cons, List.not_mem_nil, or_false] at hf
  rcases hf with rfl | rfl | rfl <;> rfl

theorem takes_sender {set : Int → Envelope → Envelope} {v : Bytes} {e' : Envelope} :
    takes (.of "userId" signed64 set) e v e' ↔ ∃ id, IsId v id ∧ e' = { e with sender := id } := by
  simp [takes, Json.Field.of]

theorem takes_recipient {set : Int → Envelope → Envelope} {v : Bytes} {e' : Envelope} :
    takes (.of "toUserId" signed64 set) e v e' ↔
      ∃ id, IsId v id ∧ e' = { e with recipient := id } := by
  simp [takes, Json.Field.of]

theorem takes_payload {v : Bytes} {e' : Envelope} : takes payloadField e v e' ↔ e' = e := by
  simp [takes, payloadField]

/-- What a member does that belongs to a field. -/
theorem exists_taken {f : Json.Field Envelope} (hf : f ∈ record.fields) (hn : m.name = f.name) :
    (∃ acc', record.Takes takes acc m acc' ∧ Remaining acc' ms e) ↔ m.name ∉ acc.seen ∧
      ∃ st, takes f acc.state m.value st ∧ Remaining ⟨m.name :: acc.seen, st⟩ ms e := by
  simp only [Record.takes_known (find_field hf hn)]
  constructor
  · rintro ⟨_, ⟨hnew, st, hst, rfl⟩, h⟩
    exact ⟨hnew, st, hst, h⟩
  · rintro ⟨hnew, st, hst, h⟩
    exact ⟨_, ⟨hnew, st, hst, rfl⟩, h⟩

/-- A member of any other name is none that is awaited. -/
theorem remaining_unknown (hsender : m.name ≠ "userId") (hrecipient : m.name ≠ "toUserId")
    (hpayload : m.name ≠ "message") : Remaining acc (m :: ms) e ↔ Remaining acc ms e := by
  have same : ∀ {n : String}, m.name ≠ n → valuesOf n (m :: ms) = valuesOf n ms := fun h => by
    simp [valuesOf, h]
  constructor
  · rintro ⟨hs, hr, hp⟩
    rw [same hsender] at hs
    rw [same hrecipient] at hr
    rw [same hpayload] at hp
    exact ⟨hs, hr, hp⟩
  · rintro ⟨hs, hr, hp⟩
    rw [← same hsender] at hs
    rw [← same hrecipient] at hr
    rw [← same hpayload] at hp
    exact ⟨hs, hr, hp⟩

/-- **One member is taken.**  It is awaited with the others exactly if it can be taken, and the
others are awaited then. -/
theorem remaining_cons :
    Remaining acc (m :: ms) e ↔ ∃ acc', record.Takes takes acc m acc' ∧ Remaining acc' ms e := by
  have other : ∀ {n n' : String}, m.name = n → n ≠ n' → m.name ≠ n' := fun h hne => h ▸ hne
  by_cases hsender : m.name = "userId"
  · have hrecipient : m.name ≠ "toUserId" := other hsender (by decide)
    have hpayload : m.name ≠ "message" := other hsender (by decide)
    rw [exists_taken (.head _) hsender]
    simp only [takes_sender]
    constructor
    · intro h
      obtain ⟨hnew, hid, hnone⟩ := (awaits_this hsender).1 h.sender
      exact ⟨hnew, _, ⟨_, hid, rfl⟩, (awaits_came hsender).2 ⟨hnone, rfl⟩,
        (awaits_other hrecipient rfl).2 h.recipient, (awaits_other hpayload rfl).2 h.payload⟩
    · rintro ⟨hnew, _, ⟨id, hid, rfl⟩, h⟩
      obtain ⟨hnone, rfl⟩ := (awaits_came hsender).1 h.sender
      exact ⟨(awaits_this hsender).2 ⟨hnew, hid, hnone⟩,
        (awaits_other hrecipient rfl).1 h.recipient, (awaits_other hpayload rfl).1 h.payload⟩
  by_cases hrecipient : m.name = "toUserId"
  · have hpayload : m.name ≠ "message" := other hrecipient (by decide)
    rw [exists_taken (.tail _ (.head _)) hrecipient]
    simp only [takes_recipient]
    constructor
    · intro h
      obtain ⟨hnew, hid, hnone⟩ := (awaits_this hrecipient).1 h.recipient
      exact ⟨hnew, _, ⟨_, hid, rfl⟩, (awaits_other hsender rfl).2 h.sender,
        (awaits_came hrecipient).2 ⟨hnone, rfl⟩, (awaits_other hpayload rfl).2 h.payload⟩
    · rintro ⟨hnew, _, ⟨id, hid, rfl⟩, h⟩
      obtain ⟨hnone, rfl⟩ := (awaits_came hrecipient).1 h.recipient
      exact ⟨(awaits_other hsender rfl).1 h.sender,
        (awaits_this hrecipient).2 ⟨hnew, hid, hnone⟩, (awaits_other hpayload rfl).1 h.payload⟩
  by_cases hpayload : m.name = "message"
  · rw [exists_taken (.tail _ (.tail _ (.head _))) hpayload]
    simp only [takes_payload]
    constructor
    · intro h
      obtain ⟨hnew, -, hnone⟩ := (awaits_this hpayload).1 h.payload
      exact ⟨hnew, _, rfl, (awaits_other hsender rfl).2 h.sender,
        (awaits_other hrecipient rfl).2 h.recipient, (awaits_came hpayload).2 ⟨hnone, rfl⟩⟩
    · rintro ⟨hnew, _, rfl, h⟩
      obtain ⟨hnone, -⟩ := (awaits_came hpayload).1 h.payload
      exact ⟨(awaits_other hsender rfl).1 h.sender, (awaits_other hrecipient rfl).1 h.recipient,
        (awaits_this hpayload).2 ⟨hnew, trivial, hnone⟩⟩
  · have hnone : record.fields.find? (·.name == m.name) = none := by
      simp [record, Json.Field.of, payloadField, Ne.symm hsender, Ne.symm hrecipient,
        Ne.symm hpayload]
    simp only [Record.takes_unknown hnone, exists_eq_left]
    exact remaining_unknown hsender hrecipient hpayload

/-! ## Members and places -/

theorem absent_eq_none_iff {seen : List String} : record.absent seen = none ↔
    "userId" ∈ seen ∧ "toUserId" ∈ seen ∧ "message" ∈ seen := by
  simp [record, Record.absent, Json.Field.of, payloadField]

theorem remaining_nil :
    Remaining acc [] e ↔ record.absent acc.seen = none ∧ e = acc.state := by
  rw [absent_eq_none_iff]
  constructor
  · rintro ⟨hs, hr, hp⟩
    obtain ⟨hs, hsender⟩ := awaits_nil.1 hs
    obtain ⟨hr, hrecipient⟩ := awaits_nil.1 hr
    refine ⟨⟨hs, hr, (awaits_nil.1 hp).1⟩, ?_⟩
    cases e
    cases hacc : acc.state
    simp_all
  · rintro ⟨⟨hs, hr, hp⟩, rfl⟩
    exact ⟨awaits_nil.2 ⟨hs, rfl⟩, awaits_nil.2 ⟨hr, rfl⟩, awaits_nil.2 ⟨hp, rfl⟩⟩

theorem makes_iff {start : Envelope} : record.Makes takes start ms e ↔ Header ms e := by
  have hremaining : record.Makes takes start ms e ↔ Remaining ⟨[], start⟩ ms e :=
    Record.makes_iff_of (R := (Remaining · · e)) (fun _ => remaining_nil)
      (fun _ _ _ => remaining_cons) ms
  refine hremaining.trans ⟨?_, ?_⟩
  · rintro ⟨hs, hr, v, hv, -⟩
    exact ⟨hs, hr, v, hv⟩
  · rintro ⟨hs, hr, v, hv⟩
    exact ⟨hs, hr, v, hv, trivial⟩

theorem fills_iff {start : Envelope} {vs : List Bytes} :
    Fills takes record.fields vs start e ↔ Positions vs e := by
  constructor
  · intro h
    obtain _ | ⟨v₁, _ | ⟨v₂, _ | ⟨v₃, _ | ⟨v₄, vs⟩⟩⟩⟩ := vs <;>
      simp only [record, Fills, and_false, exists_false] at h
    obtain ⟨_, h₁, _, h₂, _, h₃, rfl⟩ := h
    obtain ⟨id, hid, rfl⟩ := takes_sender.1 h₁
    obtain ⟨id', hid', rfl⟩ := takes_recipient.1 h₂
    obtain rfl := takes_payload.1 h₃
    exact ⟨v₁, v₂, v₃, rfl, hid, hid'⟩
  · rintro ⟨v₁, v₂, v₃, rfl, hid, hid'⟩
    exact ⟨_, takes_sender.2 ⟨_, hid, rfl⟩, _, takes_recipient.2 ⟨_, hid', rfl⟩, _,
      takes_payload.2 rfl, rfl⟩

/-! ## Documents -/

theorem ofFrame_eq_ofBytes {f : Frame} (hf : f.isData = true) : ofFrame f = ofBytes f.content := by
  cases f with
  | text | binary => rfl
  | ping | pong | close => cases hf

theorem ofBytes_eq_ok_iff_parse {b : Bytes} : ofBytes b = .ok e ↔ codec.parse b = .ok e := by
  unfold ofBytes
  split <;> simp_all

/-- **A document is an envelope if its members or its places make one, and only then.** -/
theorem ofBytes_eq_ok_iff {b : Bytes} : ofBytes b = .ok e ↔ Document Inside b e := by
  have hP : ∀ f ∈ record.fields, f.Reads (takes f) := fun f => field_reads
  rw [ofBytes_eq_ok_iff_parse]
  constructor
  · intro h
    obtain ⟨ms, hms⟩ | ⟨vs, hvs⟩ := Record.document_of_parse rfl hP h
    · exact .inl ⟨ms, hms, makes_iff.1 ((Record.parse_object hP hms).1 h)⟩
    · exact .inr ⟨vs, hvs, fills_iff.1 ((Record.parse_list rfl rfl hP hvs).1 h)⟩
  · rintro (⟨ms, hms, h⟩ | ⟨vs, hvs, h⟩)
    · exact (Record.parse_object hP hms).2 (makes_iff.2 h)
    · exact (Record.parse_list rfl rfl hP hvs).2 (fills_iff.2 h)

/-- What is no envelope is malformed. -/
theorem ofBytes_eq_error {b : Bytes} (h : ∀ e, ofBytes b ≠ .ok e) :
    ∃ p, ofBytes b = .error (.malformed p) := by
  unfold ofBytes at h ⊢
  split
  · next e he =>
    rw [he] at h
    exact absurd rfl (h e)
  · next p _ => exact ⟨p, rfl⟩

theorem document_strict_iff {b : Bytes} :
    Document Strict b e ↔ Document Inside b e ∧ Text.IsText b := by
  simp only [Document, objectText_strict_iff, listText_strict_iff]
  constructor
  · rintro (⟨ms, ⟨hms, ht⟩, h⟩ | ⟨vs, ⟨hvs, ht⟩, h⟩)
    · exact ⟨.inl ⟨ms, hms, h⟩, ht⟩
    · exact ⟨.inr ⟨vs, hvs, h⟩, ht⟩
  · rintro ⟨⟨ms, hms, h⟩ | ⟨vs, hvs, h⟩, ht⟩
    · exact .inl ⟨ms, ⟨hms, ht⟩, h⟩
    · exact .inr ⟨vs, ⟨hvs, ht⟩, h⟩

/-! ## Top theorems -/

/-- **Objects are read exactly.**  From a text that is an object come the two identifiers if and only
if each of the three names comes once, with two integers of 64 bits; in every other case it is
malformed.  It is the same whether it comes as text or as bytes. -/
theorem object_read_exactly {s : String} {ms : List Member}
    (h : ObjectText Inside ms (Text.bytes s)) :
    (∀ e, ofFrame (.text s) = .ok e ↔ Header ms e) ∧
      ((∀ e, ¬ Header ms e) → ∃ p, ofFrame (.text s) = .error (.malformed p)) ∧
      ofFrame (.binary (Text.bytes s)) = ofFrame (.text s) := by
  have hread : ∀ e, ofFrame (.text s) = .ok e ↔ Header ms e := fun e =>
    ofBytes_eq_ok_iff_parse.trans
      ((Record.parse_object (fun f => field_reads) h).trans makes_iff)
  exact ⟨hread, fun hn => ofBytes_eq_error fun e he => hn e ((hread e).1 he), rfl⟩

/-- An object with blanks in it, an escape in a name, and a member more, twice. -/
def spaced : String :=
  "\x7b \"seq\":9, \"toUserId\" : 2,\"m\\u0065ssage\":[null],\"userId\":-1,\"seq\":\x7b\x7d\x7d\n"

theorem object_read_exactly_spaced :
    ∃ ms, ObjectText Inside ms (Text.bytes spaced) ∧ Header ms ⟨-1, 2⟩ ∧
      ofFrame (.binary (Text.bytes spaced)) = .ok ⟨-1, 2⟩ := by
  have hok : ofFrame (.text spaced) = .ok ⟨-1, 2⟩ := by decide +kernel
  obtain ⟨ms, hms, -⟩ | ⟨vs, hvs, -⟩ :=
    (ofBytes_eq_ok_iff (b := Text.bytes spaced)).1 hok
  · obtain ⟨hread, -, hbinary⟩ := object_read_exactly hms
    exact ⟨ms, hms, (hread _).1 hok, hbinary.trans hok⟩
  · have hhead : (skipBlank (Text.bytes spaced)).head? = some 123 := by decide +kernel
    rw [hvs.head] at hhead
    cases hhead

/-- **What may stand where no one looks.**  Bytes are an envelope if they are such a document with
any bytes in the strings that are passed over; they are the bytes of a text that is one if those
strings are text as well.  All else is malformed. -/
theorem binary_read_exactly (b : Bytes) :
    (∀ e, ofFrame (.binary b) = .ok e ↔ Document Inside b e) ∧
      (∀ e, (∃ s, Text.bytes s = b ∧ ofFrame (.text s) = .ok e) ↔ Document Strict b e) ∧
      (∀ e, Document Strict b e ↔ Document Inside b e ∧ Text.IsText b) ∧
      ((∀ e, ¬ Document Inside b e) → ∃ p, ofFrame (.binary b) = .error (.malformed p)) := by
  have hread : ∀ e, ofFrame (.binary b) = .ok e ↔ Document Inside b e := fun _ => ofBytes_eq_ok_iff
  refine ⟨hread, fun e => ?_, fun e => document_strict_iff,
    fun hn => ofBytes_eq_error fun e he => hn e ((hread e).1 he)⟩
  rw [document_strict_iff]
  constructor
  · rintro ⟨s, rfl, hok⟩
    exact ⟨ofBytes_eq_ok_iff.1 hok, Text.isText_bytes s⟩
  · rintro ⟨hb, ht⟩
    obtain ⟨s, hs⟩ := Option.isSome_iff_exists.1 ht
    obtain rfl := Text.bytes_of_text? hs
    exact ⟨s, rfl, ofBytes_eq_ok_iff.2 hb⟩

/-- Bytes that no text has, in a string that is passed over. -/
def hidden : Bytes :=
  Text.bytes "\x7b\"userId\":1,\"toUserId\":2,\"message\":\"" ++ [0xFF, 0xFE] ++ Text.bytes "\"\x7d"

theorem hidden_is_no_text : ofFrame (.binary hidden) = .ok ⟨1, 2⟩ ∧
    ¬ ∃ s, Text.bytes s = hidden ∧ ofFrame (.text s) = .ok ⟨1, 2⟩ := by
  refine ⟨by decide +kernel, ?_⟩
  rintro ⟨s, hs, -⟩
  have hnone : Text.text? hidden = none := by decide +kernel
  rw [← hs, Text.text?_bytes] at hnone
  cases hnone

end Envelope

end Switchboard
