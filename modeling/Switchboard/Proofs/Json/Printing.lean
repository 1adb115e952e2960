import Switchboard.Proofs.Json.Documents
import Switchboard.Proofs.Json.Writing

/-!
# Documents that are written

A value that is written over several lines, one member or element a line, is read back with its
members by rising name, if its numbers are words, its brackets are not too deep, and no object begins
with the name under which a text stands for a value.

    v.Printable maxDepth → document (bytes (pretty v)) = ok v.sorted

On one line it is an object of the same members, each with its value as it is written.

    ObjectText of the members of ms (bytes (compact (object ms)))
-/

namespace Switchboard.Json

open Text

/-! ## Specification -/

/-- All numbers are words, at most `depth` brackets are inside each other, and no object begins with
`rawName`. -/
inductive Value.Printable : Nat → Value → Prop
  | null {depth : Nat} : Printable depth .null
  | bool {depth : Nat} (b : Bool) : Printable depth (.bool b)
  | number {depth n : Nat} (hn : n < Bounds.word64) : Printable depth (.number (.integer n))
  | string {depth : Nat} (s : String) : Printable depth (.string s)
  | array {depth : Nat} {vs : List Value} (h : ∀ v ∈ vs, Printable depth v) :
    Printable (depth + 1) (.array vs)
  | object {depth : Nat} {ms : Members} (hq : Unquoted ms) (h : ∀ m ∈ ms, Printable depth m.2) :
    Printable (depth + 1) (.object ms)

/-- Texts one behind the other, with commas between them. -/
def joined : List String → String
  | [] => ""
  | [t] => t
  | t :: u :: ts => t ++ "," ++ joined (u :: ts)

/-- A value on a line of its own. -/
def itemLine (level : Nat) (v : Value) : String := newLine level ++ indented level v

/-- A member with nothing between its tokens. -/
def memberText (m : String × Value) : String := quote m.1 ++ ":" ++ compact m.2

/-- A member on a line of its own. -/
def memberLine (level : Nat) (m : String × Value) : String :=
  newLine level ++ quote m.1 ++ ": " ++ indented level m.2

/-! ## Lines -/

variable {level depth : Nat} {v : Value} {g rest : Bytes} {inner : Bytes → Except Problem Value}

theorem gap_newLine (level : Nat) : Gap (bytes (newLine level)) := by
  have hspaces : ∀ n, Gap (encode (List.replicate n ' ')) := by
    intro n
    induction n with
    | zero => exact gap_nil
    | succ n ih =>
      rw [List.replicate_succ, encode_cons]
      exact Gap.append (fun b hb => by rw [List.mem_singleton.1 hb]; rfl) ih
  rw [bytes_eq_encode, newLine, String.toList_ofList, encode_cons]
  exact Gap.append (fun b hb => by rw [List.mem_singleton.1 hb]; rfl) (hspaces _)

theorem unquoted_cons {name : String} {v : Value} {ms : Members} (h : name ≠ rawName) :
    Unquoted ((name, v) :: ms) := by
  intro m hm
  cases hm
  exact h

theorem indentedItems_eq (level : Nat) (vs : List Value) :
    indentedItems level vs = joined (vs.map (itemLine level)) := by
  induction vs with
  | nil => rfl
  | cons v vs ih =>
    cases vs with
    | nil => rfl
    | cons w vs =>
      rw [indentedItems, ih]
      rfl

theorem indentedMembers_eq (level : Nat) (ms : Members) :
    indentedMembers level ms = joined (ms.map (memberLine level)) := by
  induction ms with
  | nil => rfl
  | cons m ms ih =>
    cases ms with
    | nil => rfl
    | cons m' ms =>
      rw [indentedMembers, ih]
      rfl

theorem compactMembers_eq (ms : Members) : compactMembers ms = joined (ms.map memberText) := by
  induction ms with
  | nil => rfl
  | cons m ms ih =>
    cases ms with
    | nil => rfl
    | cons m' ms =>
      rw [compactMembers, ih]
      rfl

section Joined

variable {α β : Type} {P : β → Bytes → Prop} {line : α → String} {f : α → β} {as : List α}

/-- Lines with commas between them are what stands in a bracket. -/
theorem body_joined (hline : ∀ a ∈ as, P (f a) (bytes (line a))) (hne : as ≠ []) (hg : Gap g) :
    Body P (as.map f) (bytes (joined (as.map line)) ++ g) := by
  have cut : ∀ (as : List α) (a : α), (∀ x ∈ as, P (f x) (bytes (line x))) →
      ∃ t, bytes (joined ((a :: as).map line)) ++ g = bytes (line a) ++ t ∧
        More P (as.map f) t := by
    intro as
    induction as with
    | nil => exact fun a _ => ⟨g, rfl, .done hg⟩
    | cons a' as ih =>
      intro a hline
      obtain ⟨t, ht, hmore⟩ := ih a' fun x hx => hline x (List.mem_cons_of_mem a' hx)
      refine ⟨[] ++ 44 :: (bytes (line a') ++ t), ?_,
        .next gap_nil (hline a' List.mem_cons_self) hmore⟩
      have hcomma : bytes "," = [44] := by decide
      have hsplit : joined ((a :: a' :: as).map line) =
          line a ++ "," ++ joined ((a' :: as).map line) := rfl
      rw [hsplit, Text.bytes_append, Text.bytes_append, hcomma, ← ht]
      simp
  obtain ⟨a, as, rfl⟩ := List.exists_cons_of_ne_nil hne
  obtain ⟨t, ht, hmore⟩ := cut as a fun x hx => hline x (List.mem_cons_of_mem a hx)
  rw [ht]
  exact .filled (hline a List.mem_cons_self) hmore

end Joined

/-! ## On one line -/

/-- **What is written of an object on one line is an object of its members.** -/
theorem objectText_compact {S : Bytes → Prop} {ms : Members}
    (h : ∀ m ∈ ms, Written S .value (bytes (compact m.2))) :
    ObjectText S (ms.map fun m => ⟨m.1, bytes (compact m.2)⟩) (bytes (compact (.object ms))) := by
  have hopen : bytes "\x7b" = [123] := by decide
  have hclose : bytes "\x7d" = [125] := by decide
  have hcolon : bytes ":" = [58] := by decide
  have hmember : ∀ m ∈ ms, MemberText S ⟨m.1, bytes (compact m.2)⟩ (bytes (memberText m)) := by
    intro m hm
    have hquote := memberText_quote m.1 gap_nil (h m hm)
    rw [memberText, Text.bytes_append, Text.bytes_append, hcolon, List.append_assoc]
    exact hquote
  have hbody : Body (MemberText S) (ms.map fun m => ⟨m.1, bytes (compact m.2)⟩)
      (bytes (compactMembers ms)) := by
    rw [compactMembers_eq]
    by_cases hne : ms = []
    · rw [hne]
      exact .empty gap_nil
    · have hjoined := body_joined hmember hne gap_nil
      rwa [List.append_nil] at hjoined
  refine ⟨[], _, [], gap_nil, hbody, gap_nil, ?_⟩
  rw [compact, Text.bytes_append, Text.bytes_append, hopen, hclose, List.append_assoc]
  rfl

/-! ## Values -/

theorem sortedItems_eq_map (vs : List Value) : Value.sortedItems vs = vs.map Value.sorted := by
  induction vs with
  | nil => rfl
  | cons v vs ih => rw [Value.sortedItems, ih, List.map_cons]

theorem sortedMembers_eq_map (ms : Members) :
    Value.sortedMembers ms = ms.map fun m => (m.1, m.2.sorted) := by
  induction ms with
  | nil => rfl
  | cons m ms ih =>
    obtain ⟨k, v⟩ := m
    rw [Value.sortedMembers, ih, List.map_cons]

theorem plainly_word {n : Nat} (hn : n < Bounds.word64) :
    Plainly (senseOf inner) (.number (.integer n)) (bytes (toString (n : Int))) := by
  have hd := denotes_toString n
  refine .number hd.numeral (scanNumber_eq_ok_iff.2 ⟨_, hd, ?_, ends_nil, ?_, ?_⟩)
  · rw [List.append_nil]
  · have hpos : (0 : Int) ≤ n := Int.natCast_nonneg n
    have hhalf : (0 : Int) ≤ Bounds.half64 := Int.natCast_nonneg _
    omega
  · exact Int.ofNat_lt.2 hn

theorem plainly_quote (s : String) : Plainly (senseOf inner) (.string s) (bytes (quote s)) := by
  rw [bytes_quote]
  exact .string (spells_escaped s)

theorem plainly_bool (b : Bool) :
    Plainly (senseOf inner) (.bool b) (bytes (if b then "true" else "false")) := by
  cases b
  · exact .ff
  · exact .tt

theorem bytes_bracketed {opening close : String} (s : String) :
    bytes (opening ++ s ++ newLine level ++ close) =
      bytes opening ++ ((bytes s ++ bytes (newLine level)) ++ bytes close) := by
  rw [Text.bytes_append, Text.bytes_append, Text.bytes_append]
  simp

theorem bytes_array (level : Nat) {vs : List Value} (hne : vs ≠ []) :
    bytes (indented level (.array vs)) =
      91 :: ((bytes (indentedItems (level + 1) vs) ++ bytes (newLine level)) ++ [93]) := by
  have hopen : bytes "[" = [91] := by decide
  have hclose : bytes "]" = [93] := by decide
  obtain ⟨v, vs, rfl⟩ := List.exists_cons_of_ne_nil hne
  rw [indented, bytes_bracketed, hopen, hclose]
  rfl

theorem bytes_object (level : Nat) {ms : Members} (hne : ms ≠ []) :
    bytes (indented level (.object ms)) =
      123 :: ((bytes (indentedMembers (level + 1) ms) ++ bytes (newLine level)) ++ [125]) := by
  have hopen : bytes "\x7b" = [123] := by decide
  have hclose : bytes "\x7d" = [125] := by decide
  obtain ⟨m, ms, rfl⟩ := List.exists_cons_of_ne_nil hne
  rw [indented, bytes_bracketed, hopen, hclose]
  rfl

theorem element_itemLine {S : Sense} {w : Value} (h : Depicts S depth w (bytes (indented level v))) :
    Element (Depicts S depth) w (bytes (itemLine level v)) :=
  ⟨_, _, gap_newLine level, h, Text.bytes_append _ _⟩

theorem entry_memberLine {Q : String × Value → Bytes → Prop} {m : String × Value} {w : Value}
    (h : Q (m.1, w) (bytes (indented level m.2))) :
    Entry Prod.fst Q (m.1, w) (bytes (memberLine level m)) := by
  have hcolon : bytes ": " = [58, 32] := by decide
  have hspace : Gap [32] := fun b hb => by
    rw [List.mem_singleton.1 hb]
    rfl
  refine ⟨_, _, [], [32], _, gap_newLine level, spells_escaped m.1, gap_nil, hspace, h, ?_⟩
  rw [memberLine, Text.bytes_append, Text.bytes_append, Text.bytes_append, bytes_quote, hcolon]
  simp

/-- The members of an object that is written over several lines. -/
theorem body_indentedMembers {Q : String × Value → Bytes → Prop} {f : Value → Value} {ms : Members}
    (hne : ms ≠ []) (h : ∀ m ∈ ms, Q (m.1, f m.2) (bytes (indented (level + 1) m.2))) :
    Body (Entry Prod.fst Q) (ms.map fun m => (m.1, f m.2))
      (bytes (indentedMembers (level + 1) ms) ++ bytes (newLine level)) := by
  rw [indentedMembers_eq]
  exact body_joined (fun m hm => entry_memberLine (h m hm)) hne (gap_newLine level)

/-- The names count, whatever stands under them. -/
theorem unquoted_map {ms : Members} {f : Value → Value} (h : Unquoted ms) :
    Unquoted (ms.map fun m => (m.1, f m.2)) := by
  intro m hm
  rw [List.head?_map] at hm
  obtain ⟨x, hx, rfl⟩ := Option.map_eq_some_iff.1 hm
  exact h x hx

/-- **What is written says the value**, with its members by rising name. -/
theorem depicts_indented (h : v.Printable depth) (level : Nat) :
    Depicts (senseOf inner) depth v.sorted (bytes (indented level v)) := by
  induction h generalizing level with
  | null => exact Plainly.null.depicts _
  | bool b => exact (plainly_bool b).depicts _
  | number hn => exact (plainly_word hn).depicts _
  | string s => exact (plainly_quote s).depicts _
  | @array depth vs _ ih =>
    refine .inr (.inl ?_)
    by_cases hne : vs = []
    · have hempty : bytes "[]" = [91, 93] := by decide
      subst hne
      exact ⟨[], [], .empty gap_nil, rfl, hempty⟩
    · have hbody : Body (Element (Depicts (senseOf inner) depth)) (vs.map Value.sorted)
          (bytes (indentedItems (level + 1) vs) ++ bytes (newLine level)) := by
        rw [indentedItems_eq]
        exact body_joined (fun u hu => element_itemLine (ih u hu _)) hne (gap_newLine level)
      refine ⟨_, _, hbody, ?_, bytes_array level hne⟩
      rw [Value.sorted, sortedItems_eq_map]
  | @object depth ms hq _ ih =>
    refine .inr (.inr (.inl ?_))
    by_cases hne : ms = []
    · have hempty : bytes "\x7b\x7d" = [123, 125] := by decide
      subst hne
      exact ⟨[], [], .empty gap_nil, hq, rfl, hempty⟩
    · have hbody : Body (Entry Prod.fst fun m => Depicts (senseOf inner) depth m.2)
          (ms.map fun m => (m.1, m.2.sorted))
          (bytes (indentedMembers (level + 1) ms) ++ bytes (newLine level)) :=
        body_indentedMembers hne fun u hu => ih u hu (level + 1)
      refine ⟨_, _, hbody, unquoted_map hq, ?_, bytes_object level hne⟩
      rw [Value.sorted, sortedMembers_eq_map]

/-! ## Top theorem -/

/-- **What is written is read back**, whatever blanks stand behind it. -/
theorem document_pretty (h : v.Printable maxDepth) (hg : Gap g) :
    document (bytes (pretty v) ++ g) = .ok v.sorted := by
  rw [document, documentWithin]
  exact wholly_readValue_iff.2 ⟨[], _, g, gap_nil, depicts_indented h 0, hg, rfl⟩

end Switchboard.Json
