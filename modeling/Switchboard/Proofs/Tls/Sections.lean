import Switchboard.Proofs.Tls.Lines

/-!
# Files in sections

Sections and stray lines follow each other in a file.  A section that is framed as it should be comes
to what its label and its content say (`Section.outcome`), wherever its lines break and however they
end, and the file is read item by item, up to the first that is at fault.

    entries (written items ++ rest) = (items.map outcome).foldr follow (entries rest)
    s.Writes e → s.outcome = some (ok e)
-/

namespace Switchboard.Pem

/-! ## Specification -/

/-- A section as it stands in a file: how its first line ends, its body, and how its last line
ends. -/
structure Section where
  label : Bytes
  head : Eol
  body : List Line
  foot : Eol

namespace Section

/-- The line that opens a section, without its end. -/
def start (s : Section) : Bytes := opening ++ s.label ++ Text.bytes "-----"

/-- The section without the line that closes it. -/
def opened (s : Section) : Bytes := s.start ++ s.head.bytes ++ s.body.flatMap Line.bytes

def bytes (s : Section) : Bytes := s.opened ++ (closing s.label ++ s.foot.bytes)

/-- What stands in the lines of the body. -/
def content (s : Section) : Bytes := s.body.flatMap Line.text

/-- A label of one line with no dash at its end, where spaces do not count, and a body of which no
line opens a section or closes this one. -/
structure Framed (s : Section) : Prop where
  label : Plain s.label
  dashes : (s.label.reverse.dropWhile (· == 32)).head? ≠ some 45
  body : ∀ l ∈ s.body, Plain l.text ∧ ¬ opening <+: l.text ∧ ¬ closing s.label <+: l.text

instance (s : Section) : Decidable s.Framed :=
  decidable_of_iff (Plain s.label ∧ (s.label.reverse.dropWhile (· == 32)).head? ≠ some 45 ∧
    ∀ l ∈ s.body, Plain l.text ∧ ¬ opening <+: l.text ∧ ¬ closing s.label <+: l.text)
    ⟨fun ⟨label, dashes, body⟩ => ⟨label, dashes, body⟩, fun h => ⟨h.label, h.dashes, h.body⟩⟩

def outcome (s : Section) : Option (Except Error Entry) := outcomeOf s.label s.content

/-- The section is one of the entry's kind, and its lines are the padded base64 of what the entry
holds; blanks in them count for nothing. -/
structure Writes (s : Section) (e : Entry) : Prop where
  label : s.label = Text.bytes e.kind.label
  body : ∀ l ∈ s.body, Plain l.text
  content : Base64.unblanked s.content = Base64.encode e.der

end Section

inductive Item where
  | stray (l : Line)
  | block (s : Section)

namespace Item

def bytes : Item → Bytes
  | stray l => l.bytes
  | block s => s.bytes

/-- A stray line opens no section. -/
def Framed : Item → Prop
  | stray l => Plain l.text ∧ ¬ opening <+: l.text
  | block s => s.Framed

instance : (i : Item) → Decidable i.Framed
  | stray l => inferInstanceAs (Decidable (Plain l.text ∧ ¬ opening <+: l.text))
  | block s => inferInstanceAs (Decidable s.Framed)

def outcome : Item → Option (Except Error Entry)
  | stray _ => none
  | block s => s.outcome

/-- A section of a known kind whose body is no base64. -/
def Broken (i : Item) : Prop := ∃ e, i.outcome = some (.error e)

/-- The entry of an item, if it has one. -/
def entry (i : Item) : Option Entry := i.outcome.bind Except.toOption

end Item

def written (items : List Item) : Bytes := items.flatMap Item.bytes

variable {e : UInt8} {s : Section} {items : List Item}

/-! ## Labels -/

theorem reverse_start (s : Section) :
    s.start.reverse = 45 :: 45 :: 45 :: 45 :: 45 :: (s.label.reverse ++ opening.reverse) := by
  have hdashes : (Text.bytes "-----").reverse = [45, 45, 45, 45, 45] := by decide
  rw [Section.start, List.reverse_append, List.reverse_append, hdashes]
  rfl

/-- Behind the five dashes of its first line, a section has its label. -/
theorem trailer_label (hs : s.Framed) (front : Bytes) :
    trailer 5 front (s.label.reverse ++ opening.reverse) = (5, front) := by
  have hopening : opening.reverse.dropWhile (· == 32) = 78 :: (Text.bytes "-----BEGI").reverse := by
    decide
  cases hlabel : s.label.reverse.dropWhile (· == 32) with
  | nil =>
    have hstop : (s.label.reverse ++ opening.reverse).dropWhile (· == 32) =
        78 :: (Text.bytes "-----BEGI").reverse := by
      rw [List.dropWhile_append, hlabel]
      exact hopening
    exact trailer_stop 5 front hstop (by decide) (by unfold IsEnd; decide)
  | cons c r =>
    have hmem : c ∈ s.label := by
      have hdrop : c ∈ s.label.reverse.dropWhile (· == 32) := hlabel ▸ List.mem_cons_self
      exact List.mem_reverse.1 ((List.dropWhile_suffix _).subset hdrop)
    have hdash : c ≠ 45 := by
      rintro rfl
      exact hs.dashes (by rw [hlabel]; rfl)
    have hstop : (s.label.reverse ++ opening.reverse).dropWhile (· == 32) =
        c :: (r ++ opening.reverse) := by
      rw [List.dropWhile_append, hlabel]
      rfl
    refine trailer_stop 5 front hstop hdash ?_
    rintro (rfl | rfl)
    · exact (hs.label _ hmem).1 rfl
    · exact (hs.label _ hmem).2 rfl

theorem labelOf?_start (hs : s.Framed) : labelOf? s.start = some s.label := by
  have hfive : trailer 0 s.start.reverse s.start.reverse =
      (5, s.label.reverse ++ opening.reverse) := by
    rw [reverse_start]
    simp only [trailer, if_true]
    exact trailer_label hs _
  have hlabel : (s.label.reverse ++ opening.reverse).reverse.drop opening.length = s.label := by simp
  unfold labelOf?
  rw [hfive]
  simp only [if_true, hlabel]

/-! ## Sections -/

theorem outcomeOf_congr {body' : Bytes} (h : Base64.unblanked body' = Base64.unblanked body) :
    outcomeOf label body' = outcomeOf label body := by
  rw [outcomeOf, ← Base64.decode_unblanked, h, Base64.decode_unblanked, outcomeOf]

/-- What is left of the end of a line behind its first byte. -/
def Eol.leftover : Eol → Bytes
  | crlf => [10]
  | _ => []

theorem unblanked_append (a b : Bytes) :
    Base64.unblanked (a ++ b) = Base64.unblanked a ++ Base64.unblanked b := List.filter_append ..

theorem unblanked_eol (e : Eol) : Base64.unblanked e.bytes = [] := by
  cases e <;> decide

theorem unblanked_leftover (e : Eol) : Base64.unblanked e.leftover = [] := by
  cases e <;> decide

theorem unblanked_lines (ls : List Line) :
    Base64.unblanked (ls.flatMap Line.bytes) = Base64.unblanked (ls.flatMap Line.text) := by
  induction ls with
  | nil => rfl
  | cons l ls ih =>
    rw [List.flatMap_cons, List.flatMap_cons, unblanked_append, unblanked_append, ih, Line.bytes,
      unblanked_append, unblanked_eol, List.append_nil]

theorem lines_body {ls : List Line} (h : ∀ l ∈ ls, Plain l.text) (rest : Bytes) :
    lines [] (ls.flatMap Line.bytes ++ rest) = ls.flatMap Line.pieces ++ lines [] rest := by
  induction ls with
  | nil => rfl
  | cons l ls ih =>
    obtain ⟨hl, hls⟩ := List.forall_mem_cons.1 h
    rw [List.flatMap_cons, List.flatMap_cons, List.append_assoc, lines_line hl, ih hls,
      List.append_assoc]

theorem flatten_body (ls : List Line) : (ls.flatMap Line.pieces).flatten = ls.flatMap Line.bytes := by
  induction ls with
  | nil => rfl
  | cons l ls ih =>
    rw [List.flatMap_cons, List.flatten_append, flatten_pieces, ih, List.flatMap_cons]

namespace Section.Framed

theorem plain_start (hs : s.Framed) : Plain s.start := by
  have hdashes : Plain (Text.bytes "-----") := by decide
  intro b hb
  rw [start, List.mem_append, List.mem_append] at hb
  rcases hb with (hb | hb) | hb
  · exact plain_opening b hb
  · exact hs.label b hb
  · exact hdashes b hb

/-- The pieces of the body belong to the body. -/
theorem inside (hs : s.Framed) :
    ∀ t ∈ s.body.flatMap Line.pieces, ¬ opening <+: t ∧ ¬ closing s.label <+: t := by
  intro t ht
  obtain ⟨l, hl, ht⟩ := List.mem_flatMap.1 ht
  obtain ⟨-, hopen, hclose⟩ := hs.body l hl
  exact ⟨not_prefix_piece unended_opening (by decide) hopen t ht,
    not_prefix_piece (unended_closing s.label) (closing_ne_nil _) hclose t ht⟩

theorem entriesFrom_start (hs : s.Framed) (more : List Bytes) :
    entriesFrom none [] (Line.pieces ⟨s.start, s.head⟩ ++ more) =
      entriesFrom (some s.label) s.head.leftover more := by
  have hopen : ∀ e : UInt8, opening <+: s.start ++ [e] := fun e => by
    rw [start, List.append_assoc, List.append_assoc]
    exact List.prefix_append _ _
  have first : ∀ {e : UInt8} (more : List Bytes), IsEnd e →
      entriesFrom none [] ((s.start ++ [e]) :: more) = entriesFrom (some s.label) [] more :=
    fun more he => entriesFrom_opens (hopen _) ((labelOf?_ended he).trans (labelOf?_start hs)) _ _ _
  have hover : ∀ t ∈ [[10]], ¬ opening <+: t ∧ ¬ closing s.label <+: t :=
    List.forall_mem_singleton.2 ⟨not_prefix_end unended_opening (by decide) (.inl rfl),
      not_prefix_end (unended_closing s.label) (closing_ne_nil _) (.inl rfl)⟩
  cases hhead : s.head with
  | lf => exact first more (.inl rfl)
  | cr => exact first more (.inr rfl)
  | crlf => exact (first _ (.inr rfl)).trans (entriesFrom_inside hover [] more)

/-- Up to the line that closes it, a section is open and holds its body. -/
theorem entriesFrom_opened (hs : s.Framed) (rest : Bytes) :
    entriesFrom none [] (lines [] (s.opened ++ rest)) =
      entriesFrom (some s.label) (s.head.leftover ++ s.body.flatMap Line.bytes) (lines [] rest) := by
  have hlines : lines [] (s.opened ++ rest) =
      Line.pieces ⟨s.start, s.head⟩ ++ (s.body.flatMap Line.pieces ++ lines [] rest) := by
    rw [← lines_body (fun l hl => (hs.body l hl).1), ← lines_line (l := ⟨s.start, s.head⟩)
      hs.plain_start, Line.bytes, opened, List.append_assoc]
  rw [hlines, hs.entriesFrom_start, entriesFrom_inside hs.inside, flatten_body]

/-- **A section is read as what it comes to**, and then what stands behind it. -/
theorem entries_bytes (hs : s.Framed) (rest : Bytes) :
    entries (s.bytes ++ rest) = follow s.outcome (entries rest) := by
  have hclosed : ∀ body, entriesFrom (some s.label) body
      (lines [] (closing s.label ++ s.foot.bytes ++ rest)) =
        follow (outcomeOf s.label body) (entriesFrom none [] (lines [] rest)) := by
    intro body
    have hline := lines_line (l := ⟨closing s.label, s.foot⟩) (plain_closing hs.label) rest
    have first : ∀ {e : UInt8} (more : List Bytes),
        entriesFrom (some s.label) body ((closing s.label ++ [e]) :: more) =
          follow (outcomeOf s.label body) (entriesFrom none [] more) :=
      fun more => entriesFrom_closes (not_opening_closing _ _) (List.prefix_append _ _) _ _
    have hover : ∀ t ∈ [[10]], ¬ opening <+: t := List.forall_mem_singleton.2 (by decide)
    rw [show closing s.label ++ s.foot.bytes = Line.bytes ⟨closing s.label, s.foot⟩ from rfl, hline]
    cases hfoot : s.foot with
    | lf => exact first _
    | cr => exact first _
    | crlf =>
      refine (first _).trans (congrArg _ ?_)
      exact entriesFrom_outside hover [] _
  have hbody : Base64.unblanked (s.head.leftover ++ s.body.flatMap Line.bytes) =
      Base64.unblanked s.content := by
    rw [unblanked_append, unblanked_leftover, unblanked_lines]
    rfl
  rw [entries, bytes, List.append_assoc, hs.entriesFrom_opened, hclosed, outcomeOf_congr hbody]
  rfl

end Section.Framed

/-! ## Items -/

/-- **A file is read item by item**, up to the first that is at fault. -/
theorem entries_written (h : ∀ i ∈ items, i.Framed) (rest : Bytes) :
    entries (written items ++ rest) = (items.map Item.outcome).foldr follow (entries rest) := by
  induction items with
  | nil => rfl
  | cons i items ih =>
    obtain ⟨hi, hitems⟩ := List.forall_mem_cons.1 h
    rw [written, List.flatMap_cons, List.append_assoc, List.map_cons, List.foldr_cons,
      ← ih hitems]
    cases i with
    | stray l =>
      obtain ⟨hplain, hopen⟩ := hi
      rw [entries, Item.bytes, lines_line hplain,
        entriesFrom_outside (not_prefix_piece unended_opening (by decide) hopen)]
      rfl
    | block s => exact Section.Framed.entries_bytes hi _

theorem Item.badBody_of_outcome {i : Item} {e : Error} (h : i.outcome = some (.error e)) :
    ∃ x, e = .badBody x := by
  cases i with
  | stray l => cases h
  | block s =>
    obtain ⟨k, -, hk⟩ := Option.map_eq_some_iff.1 h
    cases hd : Base64.decode s.content with
    | ok der =>
      rw [hd] at hk
      cases hk
    | error x =>
      rw [hd] at hk
      cases hk
      exact ⟨x, rfl⟩

/-- Items that are all sound come to their entries. -/
theorem foldr_follow (h : ∀ i ∈ items, ¬ i.Broken) (more : List (Except Error Entry)) :
    (items.map Item.outcome).foldr follow more = (items.filterMap Item.entry).map .ok ++ more := by
  induction items with
  | nil => rfl
  | cons i items ih =>
    obtain ⟨hi, hitems⟩ := List.forall_mem_cons.1 h
    rw [List.map_cons, List.foldr_cons, ih hitems, List.filterMap_cons, Item.entry]
    match ho : i.outcome with
    | none => rfl
    | some (.ok e) => rfl
    | some (.error x) => exact absurd ⟨x, ho⟩ hi

/-- Items of which one is broken come to an error, and what stands behind them is not looked at. -/
theorem foldr_follow_broken (h : ∃ i ∈ items, i.Broken) (more : List (Except Error Entry)) :
    ∃ (es : List Entry) (x : Base64.Error),
      (items.map Item.outcome).foldr follow more = es.map .ok ++ [.error (.badBody x)] := by
  induction items with
  | nil =>
    obtain ⟨_, hmem, -⟩ := h
    cases hmem
  | cons i items ih =>
    rw [List.map_cons, List.foldr_cons]
    match ho : i.outcome with
    | some (.error e) =>
      obtain ⟨x, rfl⟩ := Item.badBody_of_outcome ho
      exact ⟨[], x, rfl⟩
    | none =>
      obtain ⟨j, hj, hbroken⟩ := h
      rcases List.mem_cons.1 hj with rfl | hj
      · obtain ⟨x, hx⟩ := hbroken
        rw [ho] at hx
        cases hx
      · exact ih ⟨j, hj, hbroken⟩
    | some (.ok e) =>
      obtain ⟨j, hj, hbroken⟩ := h
      rcases List.mem_cons.1 hj with rfl | hj
      · obtain ⟨x, hx⟩ := hbroken
        rw [ho] at hx
        cases hx
      · obtain ⟨es, x, hes⟩ := ih ⟨j, hj, hbroken⟩
        rw [hes]
        exact ⟨e :: es, x, rfl⟩

/-! ## What is written of entries -/

theorem ofLabel?_label (k : Kind) : Kind.ofLabel? (Text.bytes k.label) = some k := by
  cases k <;> decide

theorem plain_label (k : Kind) : Plain (Text.bytes k.label) := by
  cases k <;> decide

theorem dash_not_mem_label (k : Kind) : 45 ∉ Text.bytes k.label := by
  cases k <;> decide

namespace Section.Writes

variable {en : Entry}

/-- No line of the body has a dash. -/
theorem dash_not_mem (h : s.Writes en) {l : Line} (hl : l ∈ s.body) : 45 ∉ l.text := by
  intro hdash
  have hcontent : 45 ∈ s.content := List.mem_flatMap.2 ⟨l, hl, hdash⟩
  have hkept : 45 ∈ Base64.unblanked s.content := List.mem_filter.2 ⟨hcontent, rfl⟩
  rw [h.content] at hkept
  exact Base64.not_mem_encode rfl (by decide) _ hkept

theorem framed (h : s.Writes en) : s.Framed where
  label := h.label ▸ plain_label en.kind
  dashes hlast := by
    have hdrop : 45 ∈ s.label.reverse.dropWhile (· == 32) := List.mem_of_head? hlast
    have hdash : 45 ∈ s.label := List.mem_reverse.1 ((List.dropWhile_suffix _).subset hdrop)
    rw [h.label] at hdash
    exact dash_not_mem_label _ hdash
  body l hl := by
    refine ⟨h.body l hl, fun hopen => ?_, fun hclose => ?_⟩
    · exact h.dash_not_mem hl (hopen.subset (by decide))
    · refine h.dash_not_mem hl (hclose.subset ?_)
      rw [closing, List.append_assoc]
      exact List.mem_append_left _ (by decide)

/-- **A section comes to the entry that is written in it.** -/
theorem outcome (h : s.Writes en) : s.outcome = some (.ok en) := by
  rw [Section.outcome, outcomeOf, h.label, ofLabel?_label, Base64.decode_of_unblanked h.content]
  rfl

theorem not_broken (h : s.Writes en) : ¬ (Item.block s).Broken := by
  rintro ⟨x, hx⟩
  rw [show (Item.block s).outcome = s.outcome from rfl, h.outcome] at hx
  cases hx

theorem entry (h : s.Writes en) : (Item.block s).entry = some en := by
  rw [Item.entry, show (Item.block s).outcome = s.outcome from rfl, h.outcome]
  rfl

end Section.Writes

end Switchboard.Pem
