import Mathlib.Tactic.IntervalCases
import Switchboard.Counters
import Switchboard.Proofs.Envelope.Reading
import Switchboard.Proofs.Json.Printing

/-!
# Counters as documents

The counters are read from an object in which each of ten names comes once, in any order and among
any others, with an integer numeral of a word (`Shown`).  A name that is wanting or comes twice, or a
number that is negative, fractional or too large, is a fault.  What is written is read back.

    ObjectText Inside ms b → (codec.parse b = ok c ↔ Shown ms c)
    codec.parse (bytes (compact c.toValue)) = ok c
-/

namespace Switchboard.Counters

open Json
open Envelope (valuesOf Awaits awaits_first awaits_later awaits_nil)

/-! ## Specification -/

/-- Each name comes once, with a numeral of what its counter shows. -/
def Shown (ms : List Member) (c : Counters) : Prop :=
  ∀ e ∈ names.zip c.toList, ∃ v, valuesOf e.1 ms = [v] ∧ Denotes v e.2.toNat

/-- Numerals that no counter can show. -/
inductive Uncountable : Bytes → Prop
  | negative {v : Bytes} (hv : Numeral (45 :: v)) : Uncountable (45 :: v)
  | fractional (negative : Bool) {ds f e : Bytes} (hd : Whole ds) (hf : Fraction f)
      (he : Exponent e) (hne : f ++ e ≠ []) : Uncountable (sign negative ++ (ds ++ (f ++ e)))
  | large {v : Bytes} {n : Int} (hv : Denotes v n) (hn : Bounds.word64 ≤ n) : Uncountable v

/-! ## Columns -/

/-- What the counters show under a name. -/
def get (c : Counters) (name : String) : UInt64 := c.toList.getD (names.idxOf name) 0

/-- What a field takes from its value: a word, which comes into its place. -/
def takes (f : Json.Field Counters) (a : Counters) (v : Bytes) (b : Counters) : Prop :=
  ∃ n : UInt64, Denotes v n.toNat ∧ b.toList = a.toList.set (names.idxOf f.name) n

variable {a b c : Counters} {name other : String} {n : UInt64} {v : Bytes} {ms : List Member}
  {m : Member} {acc : Filled Counters}

theorem toList_injective (h : a.toList = b.toList) : a = b := by
  cases a
  cases b
  simpa [toList] using h

theorem exists_toList {ns : List UInt64} (h : ns.length = names.length) :
    ∃ c : Counters, c.toList = ns := by
  have hten : ns.length = 10 := h
  refine ⟨⟨ns[0], ns[1], ns[2], ns[3], ns[4], ns[5], ns[6], ns[7], ns[8], ns[9]⟩,
    List.ext_getElem h.symm fun i _ hi => ?_⟩
  rw [hten] at hi
  interval_cases i <;> rfl

theorem length_toList (c : Counters) : c.toList.length = names.length := rfl

/-- What is put into the place of one name is shown under it, and nothing else changes. -/
theorem get_of_set (hname : name ∈ names)
    (h : b.toList = a.toList.set (names.idxOf name) n) :
    b.get other = if other = name then n else a.get other := by
  have hlt : names.idxOf name < a.toList.length := List.idxOf_lt_length_iff.2 hname
  rw [get, h, List.getD_eq_getElem?_getD, List.getElem?_set]
  by_cases hsame : other = name
  · rw [if_pos hsame, hsame, if_pos rfl, if_pos hlt]
    rfl
  · have hne : names.idxOf name ≠ names.idxOf other := fun hi =>
      hsame ((List.idxOf_inj hname).1 hi).symm
    rw [if_neg hsame, if_neg hne, get, List.getD_eq_getElem?_getD]

theorem map_get (c : Counters) : names.map c.get = c.toList := rfl

/-- Counters are told by what they show. -/
theorem eq_of_get (h : ∀ name ∈ names, a.get name = b.get name) : a = b := by
  refine toList_injective ?_
  rw [← map_get a, ← map_get b]
  exact List.map_congr_left h

theorem shown_iff : Shown ms c ↔
    ∀ name ∈ names, ∃ v, valuesOf name ms = [v] ∧ Denotes v (c.get name).toNat := by
  have hzip : names.zip c.toList = names.map fun name => (name, c.get name) := rfl
  rw [Shown, hzip, List.forall_mem_map]

/-! ## Fields -/

theorem field_reads {f : Json.Field Counters} (hf : f ∈ record.fields) : f.Reads (takes f) := by
  have column : ∀ (name : String) (set : UInt64 → Counters → Counters),
      (∀ n c, (set n c).toList = c.toList.set (names.idxOf name) n) →
      (Field.of name word64 set).Reads (takes (Field.of name word64 set)) := by
    intro name set hset
    have hreads := word64_reads.field name set
    refine ⟨hreads.sound, fun hg hv hr => (hreads.exact hg hv hr).congr fun b => ?_⟩
    refine exists_congr fun n => and_congr_right fun _ => ⟨?_, fun h => ?_⟩
    · rintro rfl
      exact hset n _
    · exact toList_injective (h.trans (hset n _).symm)
  simp only [record, List.mem_cons, List.not_mem_nil, or_false] at hf
  rcases hf with rfl | rfl | rfl | rfl | rfl | rfl | rfl | rfl | rfl | rfl <;>
    exact column _ _ fun _ _ => rfl

theorem map_name_fields : record.fields.map (·.name) = names := rfl

/-- A member whose name is known belongs to the field of that name. -/
theorem find_field (h : m.name ∈ names) :
    ∃ f, f.name = m.name ∧ record.fields.find? (·.name == m.name) = some f := by
  rw [← map_name_fields, List.mem_map] at h
  obtain ⟨g, hg, hname⟩ := h
  cases hfind : record.fields.find? (·.name == m.name) with
  | none => exact absurd (beq_iff_eq.2 hname) (List.find?_eq_none.1 hfind g hg)
  | some f =>
    have hfound := List.find?_some hfind
    exact ⟨f, eq_of_beq hfound, rfl⟩

theorem find_field_eq_none (h : m.name ∉ names) :
    record.fields.find? (·.name == m.name) = none := by
  refine List.find?_eq_none.2 fun f hf hname => h ?_
  rw [← map_name_fields, ← beq_iff_eq.1 hname]
  exact List.mem_map_of_mem hf

theorem absent_eq_none_iff {seen : List String} :
    record.absent seen = none ↔ ∀ name ∈ names, name ∈ seen := by
  rw [← map_name_fields, List.forall_mem_map]
  simp [Record.absent, record]

/-! ## What is still to come -/

/-- The members are those that are still to come for `c`. -/
def Remaining (c : Counters) (acc : Filled Counters) (ms : List Member) : Prop :=
  ∀ name ∈ names, Awaits (fun v (n : UInt64) => Denotes v n.toNat) (c.get name)
    (if name ∈ acc.seen then some (acc.state.get name) else none) (valuesOf name ms)

theorem remaining_nil :
    Remaining c acc [] ↔ record.absent acc.seen = none ∧ c = acc.state := by
  rw [absent_eq_none_iff]
  constructor
  · intro h
    exact ⟨fun name hname => (awaits_nil.1 (h name hname)).1,
      eq_of_get fun name hname => (awaits_nil.1 (h name hname)).2.symm⟩
  · rintro ⟨hseen, rfl⟩ name hname
    exact awaits_nil.2 ⟨hseen name hname, rfl⟩

/-- A member of any other name is none that is awaited. -/
theorem remaining_unknown (h : m.name ∉ names) :
    Remaining c acc (m :: ms) ↔ Remaining c acc ms := by
  refine forall₂_congr fun name hname => ?_
  have hne : m.name ≠ name := fun heq => h (heq ▸ hname)
  have hvalues : valuesOf name (m :: ms) = valuesOf name ms := by simp [valuesOf, hne]
  rw [hvalues]

/-- **One member is taken.**  It is awaited with the others exactly if it can be taken, and the
others are awaited then. -/
theorem remaining_cons :
    Remaining c acc (m :: ms) ↔ ∃ acc', record.Takes takes acc m acc' ∧ Remaining c acc' ms := by
  by_cases hknown : m.name ∈ names
  · obtain ⟨f, hf, hfind⟩ := find_field hknown
    have hplace : f.name ∈ names := hf ▸ hknown
    -- under the other names nothing has changed once the member is taken
    have hothers : ∀ {st : Counters} {n : UInt64} {name : String},
        st.toList = acc.state.toList.set (names.idxOf f.name) n → m.name ≠ name →
        st.get name = acc.state.get name := by
      intro st n name hst hne
      rw [get_of_set hplace hst, if_neg (hf ▸ hne.symm)]
    simp only [Record.takes_known hfind]
    constructor
    · intro h
      obtain ⟨hnew, hvalue, hnone⟩ := awaits_first.1 (h m.name hknown)
      have hlength : (acc.state.toList.set (names.idxOf f.name) (c.get m.name)).length =
          names.length := List.length_set.trans (length_toList _)
      obtain ⟨st, hst⟩ := exists_toList hlength
      refine ⟨_, ⟨hnew, st, ⟨_, hvalue, hst⟩, rfl⟩, fun name hname => ?_⟩
      by_cases hsame : m.name = name
      · subst hsame
        rw [if_pos List.mem_cons_self, get_of_set hplace hst, if_pos hf.symm]
        exact ⟨hnone, rfl⟩
      · rw [awaits_later hsame, hothers hst hsame]
        exact h name hname
    · rintro ⟨_, ⟨hnew, st, ⟨n, hvalue, hst⟩, rfl⟩, h⟩ name hname
      have hname' := h name hname
      by_cases hsame : m.name = name
      · subst hsame
        rw [if_pos List.mem_cons_self, get_of_set hplace hst, if_pos hf.symm] at hname'
        obtain ⟨hnone, rfl⟩ := hname'
        exact awaits_first.2 ⟨hnew, hvalue, hnone⟩
      · rwa [awaits_later hsame, hothers hst hsame] at hname'
  · simp only [Record.takes_unknown (find_field_eq_none hknown), exists_eq_left]
    exact remaining_unknown hknown

theorem makes_iff : record.Makes takes {} ms c ↔ Shown ms c := by
  have hremaining : record.Makes takes {} ms c ↔ Remaining c ⟨[], {}⟩ ms :=
    Record.makes_iff_of (fun _ => remaining_nil) (fun _ _ _ => remaining_cons) ms
  rw [hremaining, shown_iff]
  rfl

/-! ## Numerals that do not count -/

/-- An integer numeral is digits behind a sign, if there is one. -/
theorem digit_of_denotes {i : Int} (h : Denotes v i) {x : UInt8} (hx : x ∈ v) :
    x = 45 ∨ isDigit x = true := by
  cases h with
  | plain hd => exact .inr (hd.1.2 x hx)
  | minus hd => exact (List.mem_cons.1 hx).imp id (hd.1.2 x)

/-- A fraction or an exponent begins with something that is no digit. -/
theorem exists_mem_of_fraction {f e : Bytes} (hf : Fraction f) (he : Exponent e)
    (hne : f ++ e ≠ []) : ∃ x ∈ f ++ e, x = 46 ∨ x = 101 ∨ x = 69 := by
  obtain ⟨x, rest, hx⟩ := List.exists_cons_of_ne_nil hne
  have hmem : x ∈ f ++ e := hx ▸ List.mem_cons_self
  refine ⟨x, hmem, ?_⟩
  cases hf with
  | point hd => exact .inl (List.cons.inj hx).1.symm
  | absent =>
    have hhead : e.head? = some x := by
      rw [List.nil_append] at hx
      rw [hx]
      rfl
    exact .inr (he.head hhead)

theorem not_denotes_of_uncountable (h : Uncountable v) (n : UInt64) : ¬ Denotes v n.toNat := by
  intro hd
  cases h with
  | negative hv =>
    generalize hi : (n.toNat : Int) = i at hd
    cases hd with
    | plain hw => exact absurd (hw.1.2 45 List.mem_cons_self) (by decide)
    | minus hw hz =>
      have hpos := mt (valueOf_eq_zero_iff hw).1 hz
      omega
  | @fractional negative ds f e hw hf he hne =>
    obtain ⟨x, hx, hcases⟩ := exists_mem_of_fraction hf he hne
    have hmem : x ∈ sign negative ++ (ds ++ (f ++ e)) :=
      List.mem_append_right _ (List.mem_append_right _ hx)
    have hdigit := digit_of_denotes hd hmem
    rcases hcases with rfl | rfl | rfl <;> exact absurd hdigit (by decide)
  | large hv hn =>
    have hlt : n.toNat < Bounds.word64 := n.toNat_lt
    have heq := hd.unique hv
    omega

/-- What no counters show is a fault. -/
theorem not_shown (hname : name ∈ names)
    (h : valuesOf name ms = [] ∨ 2 ≤ (valuesOf name ms).length ∨
      ∃ v ∈ valuesOf name ms, Uncountable v) : ¬ Shown ms c := by
  intro hs
  obtain ⟨v, hv, hd⟩ := shown_iff.1 hs name hname
  rw [hv] at h
  obtain hnone | htwice | ⟨w, hw, huncountable⟩ := h
  · cases hnone
  · exact absurd htwice (Nat.not_le.2 (Nat.lt_succ_self 1))
  · rw [List.mem_singleton.1 hw] at huncountable
    exact not_denotes_of_uncountable huncountable _ hd

/-! ## What is written -/

/-- A member for each name, with what `w` gives for it. -/
theorem valuesOf_map_names (w : String → Bytes) (hname : name ∈ names) :
    valuesOf name (names.map fun other => ⟨other, w other⟩) = [w name] := by
  have hone : names.filter (· == name) = [name] := by
    have hnodup : names.Nodup := by decide
    rw [List.filter_beq, List.count_eq_one_of_mem hnodup hname, List.replicate_one]
  rw [valuesOf, List.filter_map, List.map_map]
  exact congrArg (List.map w) hone

/-- **What is written of counters is an object that shows them.** -/
theorem objectText_toValue (c : Counters) :
    ∃ ms, ObjectText Inside ms (Text.bytes (compact c.toValue)) ∧ Shown ms c := by
  let entries : Members := names.map fun name => (name, .number (.integer (c.get name).toNat))
  have hvalue : c.toValue = .object entries := rfl
  have hwritten : ∀ e ∈ entries, Written Inside .value (Text.bytes (compact e.2)) := by
    intro e he
    obtain ⟨name, -, rfl⟩ := List.mem_map.1 he
    exact written_natural _
  refine ⟨_, hvalue ▸ objectText_compact hwritten, shown_iff.2 fun name hname => ?_⟩
  rw [List.map_map]
  exact ⟨_, valuesOf_map_names _ hname, denotes_toString _⟩

/-! ## Top theorem -/

/-- **Counters are read exactly.**  From a text that is an object come the counters that it shows,
each of ten names once with an integer numeral of a word, and otherwise a fault; so there is a fault
where a name is wanting or comes twice, or a number is negative, fractional or too large.  What is
written of counters is read as the same counters. -/
theorem object_shows_exactly {b : Bytes} (h : ObjectText Inside ms b) :
    (∀ c, codec.parse b = .ok c ↔ Shown ms c) ∧
      ((∃ name ∈ names, valuesOf name ms = [] ∨ 2 ≤ (valuesOf name ms).length ∨
          ∃ v ∈ valuesOf name ms, Uncountable v) → ∃ p, codec.parse b = .error p) ∧
      ∀ c, codec.parse (Text.bytes (compact c.toValue)) = .ok c := by
  have hread : ∀ {ms b}, ObjectText Inside ms b → ∀ c, codec.parse b = .ok c ↔ Shown ms c :=
    fun h c => (Record.parse_object (fun _ => field_reads) h).trans makes_iff
  refine ⟨hread h, ?_, fun c => ?_⟩
  · rintro ⟨name, hname, hfault⟩
    cases hparse : codec.parse b with
    | error p => exact ⟨p, rfl⟩
    | ok c => exact absurd ((hread h c).1 hparse) (not_shown hname hfault)
  · obtain ⟨ms, hms, hshown⟩ := objectText_toValue c
    exact (hread hms c).2 hshown

/-- The names in another order, with blanks and members between them, an escape in a name, and the
greatest word. -/
def shuffled : String :=
  "\x7b \"protocolViolations\":9, \"framesReceived\" : 5,\"at\":[1.5,null],\"peersEvicted\":4,
    \"connections\\u0041ctive\":1,\"framesForwarded\":6,\"connectionsClosed\":3,\"at\":-7,
    \"framesUnroutable\":7,\"connectionsAccepted\":18446744073709551615,
    \"framesDroppedBackpressure\":8,\"connectionsRejected\":2\x7d\n"

theorem object_shows_shuffled :
    ∃ ms, ObjectText Inside ms (Text.bytes shuffled) ∧
      Shown ms ⟨18446744073709551615, 1, 2, 3, 4, 5, 6, 7, 8, 9⟩ ∧
      codec.parse (Text.bytes shuffled) =
        .ok ⟨18446744073709551615, 1, 2, 3, 4, 5, 6, 7, 8, 9⟩ := by
  have hok : codec.parse (Text.bytes shuffled) =
      .ok ⟨18446744073709551615, 1, 2, 3, 4, 5, 6, 7, 8, 9⟩ := by decide +kernel
  obtain ⟨ms, hms⟩ | ⟨vs, hvs⟩ := Record.document_of_parse rfl (fun _ => field_reads) hok
  · exact ⟨ms, hms, ((object_shows_exactly hms).1 _).1 hok, hok⟩
  · have hhead : (skipBlank (Text.bytes shuffled)).head? = some 123 := by decide +kernel
    rw [hvs.head] at hhead
    cases hhead

/-- Counters at zero behind a member whose name spells no text: half of a pair of surrogates. -/
def unspelled : String :=
  "\x7b\"\\ud800\":0,\"connectionsAccepted\":0,\"connectionsActive\":0," ++
    "\"connectionsRejected\":0,\"connectionsClosed\":0,\"peersEvicted\":0," ++
    "\"framesReceived\":0,\"framesForwarded\":0,\"framesUnroutable\":0," ++
    "\"framesDroppedBackpressure\":0,\"protocolViolations\":0\x7d"

/-- It is a document by the grammar, with a member more than one that is read, and a fault. -/
theorem unspelled_is_fault :
    Written Inside .value (Text.bytes unspelled) ∧
      (∃ rest, Text.bytes (compact ({} : Counters).toValue) = 123 :: rest ∧
        Text.bytes unspelled = 123 :: (Text.bytes "\"\\ud800\":0," ++ rest)) ∧
      codec.parse (Text.bytes (compact ({} : Counters).toValue)) = .ok {} ∧
      ∀ c, codec.parse (Text.bytes unspelled) ≠ .ok c := by
  have hskip : skipValue (Text.bytes unspelled) = .ok [] := by decide +kernel
  have hhead : (Text.bytes unspelled).head? = some 123 := by decide +kernel
  have hfault : (codec.parse (Text.bytes unspelled)).toOption = none := by decide +kernel
  refine ⟨?_, ⟨(Text.bytes (compact ({} : Counters).toValue)).tail, by decide +kernel,
    by decide +kernel⟩, by decide +kernel, fun c hc => ?_⟩
  · obtain ⟨g, v, hg, hv, hs⟩ := value_of_skipValue hskip
    rw [List.append_nil] at hs
    cases g with
    | nil => exact hs ▸ hv
    | cons x g =>
      rw [hs] at hhead
      cases hhead
      exact absurd (hg 123 List.mem_cons_self) (by decide)
  · rw [hc] at hfault
    cases hfault

end Switchboard.Counters
