import Mathlib.Data.List.TakeWhile
import Switchboard.Proofs.Tls.Sextets
import Switchboard.Tls.Pem

/-!
# Files in lines

A file is read line by line, and a line opens a section, closes one, or belongs to what it stands in.
It does not matter how lines end, nor whether the last one is ended.

    lines [] (l.bytes ++ rest) = l.pieces ++ lines [] rest
    Spells file text → entries file = entries text
-/

namespace Switchboard.Pem

/-! ## Specification -/

/-- How a line ends. -/
inductive Eol where
  | lf
  | cr
  | crlf
  deriving DecidableEq, Repr

def Eol.bytes : Eol → Bytes
  | lf => [10]
  | cr => [13]
  | crlf => [13, 10]

/-- No line ends inside. -/
def Plain (text : Bytes) : Prop := ∀ b ∈ text, b ≠ 10 ∧ b ≠ 13

instance (text : Bytes) : Decidable (Plain text) := List.decidableBAll (fun b => b ≠ 10 ∧ b ≠ 13) text

structure Line where
  text : Bytes
  eol : Eol

def Line.bytes (l : Line) : Bytes := l.text ++ l.eol.bytes

/-- The file is this text, of which the last line need not be ended. -/
def Spells (file text : Bytes) : Prop := file = text ∨ ∃ e : Eol, file ++ e.bytes = text

/-- What a section of this label and this body comes to: nothing under an unknown label. -/
def outcomeOf (label body : Bytes) : Option (Except Error Entry) :=
  (Kind.ofLabel? label).map fun k =>
    match Base64.decode body with
    | .ok der => .ok ⟨k, der⟩
    | .error e => .error (.badBody e)

/-- The results that follow on an outcome: after an error there are none. -/
def follow : Option (Except Error Entry) → List (Except Error Entry) → List (Except Error Entry)
  | none, more => more
  | some (.ok e), more => .ok e :: more
  | some (.error e), _ => [.error e]

/-! ## Lines -/

variable {label text body rest : Bytes} {e : UInt8} {more : List Bytes}

/-- The bytes that end a line. -/
def IsEnd (e : UInt8) : Prop := e = 10 ∨ e = 13

/-- A line as it is read: one that ends with two bytes is followed by an empty one. -/
def Line.pieces (l : Line) : List Bytes :=
  match l.eol with
  | .lf => [l.text ++ [10]]
  | .cr => [l.text ++ [13]]
  | .crlf => [l.text ++ [13], [10]]

theorem lines_plain (line : Bytes) (ht : Plain text) (he : IsEnd e) (rest : Bytes) :
    lines line (text ++ e :: rest) = (line.reverse ++ text ++ [e]) :: lines [] rest := by
  induction text generalizing line with
  | nil =>
    have hend : (e = 10 || e = 13) = true := by simpa [IsEnd] using he
    rw [List.nil_append, lines, if_pos hend, List.reverse_cons, List.append_nil]
  | cons b text ih =>
    obtain ⟨hb, htext⟩ := List.forall_mem_cons.1 ht
    have hinside : ¬ (b = 10 || b = 13) = true := by simpa using hb
    rw [List.cons_append, lines, if_neg hinside, ih _ htext, List.reverse_cons, List.append_assoc,
      List.append_assoc, List.append_assoc, List.singleton_append, List.cons_append]

theorem plain_nil : Plain [] := nofun

theorem lines_line {l : Line} (h : Plain l.text) (rest : Bytes) :
    lines [] (l.bytes ++ rest) = l.pieces ++ lines [] rest := by
  obtain ⟨text, eol⟩ := l
  have first : ∀ {e : UInt8} (rest : Bytes), IsEnd e →
      lines [] (text ++ e :: rest) = (text ++ [e]) :: lines [] rest :=
    fun rest he => lines_plain [] h he rest
  cases eol with
  | lf =>
    rw [Line.bytes, Eol.bytes, List.append_assoc, List.singleton_append, first _ (.inl rfl)]
    rfl
  | cr =>
    rw [Line.bytes, Eol.bytes, List.append_assoc, List.singleton_append, first _ (.inr rfl)]
    rfl
  | crlf =>
    rw [Line.bytes, Eol.bytes, List.append_assoc, List.cons_append, List.singleton_append,
      first _ (.inr rfl)]
    exact congrArg _ (lines_plain [] plain_nil (.inl rfl) rest)

/-- The text does not stop where a line does. -/
def Unended (p : Bytes) : Prop := ∀ front e, IsEnd e → p ≠ front ++ [e]

/-- Such a text is at the front of a line whether the line is ended or not. -/
theorem prefix_ended {p : Bytes} (hp : Unended p) (he : IsEnd e) :
    p <+: text ++ [e] ↔ p <+: text := by
  rw [List.prefix_concat_iff]
  exact or_iff_right (hp text e he)

theorem not_prefix_end {p : Bytes} (hp : Unended p) (hne : p ≠ []) (he : IsEnd e) : ¬ p <+: [e] := by
  rw [← List.nil_append [e], prefix_ended hp he, List.prefix_nil]
  exact hne

theorem unended_concat {p : Bytes} {b : UInt8} (h : ¬ IsEnd b) : Unended (p ++ [b]) := by
  rintro front e he heq
  obtain ⟨-, hlast⟩ := List.append_inj' heq rfl
  exact h (List.singleton_inj.1 hlast ▸ he)

theorem unended_opening : Unended opening :=
  unended_concat (p := Text.bytes "-----BEGIN") (b := 32) (by unfold IsEnd; decide)

theorem unended_closing (label : Bytes) : Unended (closing label) := by
  have hdashes : closing label = (Text.bytes "-----END " ++ label ++ Text.bytes "----") ++ [45] := by
    have h : Text.bytes "-----" = Text.bytes "----" ++ [45] := by decide
    rw [closing, h, List.append_assoc _ _ [45]]
  rw [hdashes]
  exact unended_concat (by unfold IsEnd; decide)

theorem plain_opening : Plain opening := by decide

theorem plain_closing (h : Plain label) : Plain (closing label) := by
  have hends : Plain (Text.bytes "-----END ") ∧ Plain (Text.bytes "-----") := by decide
  intro b hb
  rw [closing, List.mem_append, List.mem_append] at hb
  rcases hb with (hb | hb) | hb
  · exact hends.1 b hb
  · exact h b hb
  · exact hends.2 b hb

/-- What is at the front of no line is at the front of none of its pieces. -/
theorem not_prefix_piece {p : Bytes} (hp : Unended p) (hne : p ≠ []) {l : Line} (h : ¬ p <+: l.text) :
    ∀ t ∈ l.pieces, ¬ p <+: t := by
  have ended : ∀ {e : UInt8}, IsEnd e → ¬ p <+: l.text ++ [e] := fun he => mt (prefix_ended hp he).1 h
  unfold Line.pieces
  cases l.eol with
  | lf => exact List.forall_mem_singleton.2 (ended (.inl rfl))
  | cr => exact List.forall_mem_singleton.2 (ended (.inr rfl))
  | crlf =>
    exact List.forall_mem_cons.2
      ⟨ended (.inr rfl), List.forall_mem_singleton.2 (not_prefix_end hp hne (.inl rfl))⟩

theorem flatten_pieces (l : Line) : l.pieces.flatten = l.bytes := by
  obtain ⟨text, eol⟩ := l
  cases eol <;> simp [Line.pieces, Line.bytes, Eol.bytes]

theorem closing_ne_nil (label : Bytes) : closing label ≠ [] := by
  intro h
  rw [closing, List.append_eq_nil_iff, List.append_eq_nil_iff] at h
  exact absurd h.1.1 (by decide)

/-- A line that closes a section opens none. -/
theorem not_opening_closing (label rest : Bytes) : ¬ opening <+: closing label ++ rest := by
  have hopening : opening = Text.bytes "-----" ++ Text.bytes "BEGIN " := by decide
  have hclosing : closing label ++ rest =
      Text.bytes "-----" ++ (Text.bytes "END " ++ (label ++ Text.bytes "-----" ++ rest)) := by
    have h : Text.bytes "-----END " = Text.bytes "-----" ++ Text.bytes "END " := by decide
    simp only [closing, h, List.append_assoc]
  rw [hopening, hclosing, List.prefix_append_right_inj]
  intro h
  exact absurd (List.cons_prefix_cons.1 h).1 (by decide)

/-! ## Labels -/

/-- Spaces at the end of a label are passed over in search of its dashes. -/
theorem trailer_stop (count : Nat) (front : Bytes) {r r' : Bytes} {c : UInt8}
    (h : r.dropWhile (· == 32) = c :: r') (hdash : c ≠ 45) (hend : ¬ IsEnd c) :
    trailer count front r = (count, front) := by
  induction r with
  | nil => cases h
  | cons b r ih =>
    rw [List.dropWhile_cons] at h
    by_cases hb : b = 32
    · subst hb
      rw [trailer, if_neg (by decide), if_pos (by decide)]
      exact ih h
    · rw [if_neg (by simpa using hb)] at h
      cases h
      have hother : ¬ (c = 10 || c = 13 || c = 32) = true := by
        simpa [hb, IsEnd] using hend
      rw [trailer, if_neg hdash, if_neg hother]

/-- In front of the first dash that is counted, what is held back is of no account. -/
theorem trailer_front (count : Nat) (front front' r : Bytes) :
    (trailer count front' r).1 = (trailer count front r).1 ∧ ((trailer count front r).1 = count ∨
      (trailer count front' r).2 = (trailer count front r).2) := by
  induction r with
  | nil => exact ⟨rfl, .inl rfl⟩
  | cons b r ih =>
    simp only [trailer]
    split
    · exact ⟨rfl, .inr rfl⟩
    · split
      · exact ih
      · exact ⟨rfl, .inl rfl⟩

theorem labelOf?_ended (he : IsEnd e) : labelOf? (text ++ [e]) = labelOf? text := by
  have hskip : (e = 10 || e = 13 || e = 32) = true := by
    rcases he with rfl | rfl <;> rfl
  have hdash : ¬ e = 45 := by
    rcases he with rfl | rfl <;> decide
  have hfirst : trailer 0 (e :: text.reverse) (e :: text.reverse) =
      trailer 0 (e :: text.reverse) text.reverse := by rw [trailer, if_neg hdash, if_pos hskip]
  obtain ⟨hcount, hfront⟩ := trailer_front 0 text.reverse (e :: text.reverse) text.reverse
  unfold labelOf?
  rw [List.reverse_append, List.reverse_singleton, List.singleton_append, hfirst]
  generalize trailer 0 (e :: text.reverse) text.reverse = x at hcount hfront ⊢
  generalize trailer 0 text.reverse text.reverse = y at hcount hfront ⊢
  obtain ⟨count, front'⟩ := x
  obtain ⟨_, front⟩ := y
  obtain rfl : count = _ := hcount
  dsimp only
  split
  · next hfive =>
    rcases hfront with hzero | hsame
    · exact absurd (hfive.symm.trans hzero) (by decide)
    · rw [show front' = front from hsame]
  · rfl

/-! ## Lines that are read -/

theorem isPrefixOf_eq_false {p : Bytes} (h : ¬ p <+: text) : ¬ p.isPrefixOf text = true :=
  mt List.isPrefixOf_iff_prefix.1 h

/-- Lines that open nothing are passed over outside sections. -/
theorem entriesFrom_outside {ts : List Bytes} (h : ∀ t ∈ ts, ¬ opening <+: t) (body : Bytes)
    (more : List Bytes) : entriesFrom none body (ts ++ more) = entriesFrom none body more := by
  induction ts with
  | nil => rfl
  | cons t ts ih =>
    obtain ⟨ht, hts⟩ := List.forall_mem_cons.1 h
    rw [List.cons_append, entriesFrom, if_neg (isPrefixOf_eq_false ht)]
    exact ih hts

/-- Lines that open nothing and do not close the section belong to its body. -/
theorem entriesFrom_inside {ts : List Bytes}
    (h : ∀ t ∈ ts, ¬ opening <+: t ∧ ¬ closing label <+: t) (body : Bytes) (more : List Bytes) :
    entriesFrom (some label) body (ts ++ more) =
      entriesFrom (some label) (body ++ ts.flatten) more := by
  induction ts generalizing body with
  | nil => rw [List.nil_append, List.flatten_nil, List.append_nil]
  | cons t ts ih =>
    obtain ⟨⟨hopen, hclose⟩, hts⟩ := List.forall_mem_cons.1 h
    rw [List.cons_append, entriesFrom, if_neg (isPrefixOf_eq_false hopen),
      if_neg (isPrefixOf_eq_false hclose), ih hts, List.flatten_cons, List.append_assoc]

theorem entriesFrom_opens {t : Bytes} (hopen : opening <+: t) (hlabel : labelOf? t = some label)
    (inside : Option Bytes) (body : Bytes) (more : List Bytes) :
    entriesFrom inside body (t :: more) = entriesFrom (some label) body more := by
  cases inside <;> rw [entriesFrom, if_pos (List.isPrefixOf_iff_prefix.2 hopen), hlabel]

theorem entriesFrom_closes {t : Bytes} (hopen : ¬ opening <+: t) (hclose : closing label <+: t)
    (body : Bytes) (more : List Bytes) :
    entriesFrom (some label) body (t :: more) =
      follow (outcomeOf label body) (entriesFrom none [] more) := by
  rw [entriesFrom, if_neg (isPrefixOf_eq_false hopen),
    if_pos (List.isPrefixOf_iff_prefix.2 hclose), outcomeOf]
  cases Kind.ofLabel? label with
  | none => rfl
  | some k =>
    rw [Option.map_some]
    cases Base64.decode body <;> rfl

/-! ## The last line -/

/-- Without its last byte, a file of ended lines has the same lines, but for the end of the last
one. -/
theorem lines_ended (line file : Bytes) (he : IsEnd e) : ∃ front last,
    lines line (file ++ [e]) = front ++ [last ++ [e]] ∧
      lines line file = front ++ if last = [] then [] else [last] := by
  have hend : (e = 10 || e = 13) = true := by simpa [IsEnd] using he
  induction file generalizing line with
  | nil =>
    refine ⟨[], line.reverse, ?_, ?_⟩
    · rw [List.nil_append, lines, if_pos hend, List.reverse_cons]
      rfl
    · cases line with
      | nil => rfl
      | cons b line => simp [lines]
  | cons b file ih =>
    rw [List.cons_append, lines, lines]
    split
    · obtain ⟨front, last, hended, hlast⟩ := ih []
      exact ⟨_ :: front, last, congrArg _ hended, congrArg _ hlast⟩
    · exact ih (b :: line)

theorem mem_follow {o : Option (Except Error Entry)} (ho : ∀ x, o ≠ some (.error x))
    {r : Except Error Entry} {rs : List (Except Error Entry)} (h : r ∈ rs) : r ∈ follow o rs := by
  match o, ho with
  | none, _ => exact h
  | some (.ok _), _ => exact List.mem_cons_of_mem _ h
  | some (.error x), ho => exact absurd rfl (ho x)

/-- How the last line ends is of no account, unless it is one that should open a section. -/
theorem entriesFrom_last (he : IsEnd e) {inside : Option Bytes} {last : Bytes}
    (h : ∀ line, .error (.badStart line) ∉ entriesFrom inside body [last ++ [e]]) :
    entriesFrom inside body [last] = entriesFrom inside body [last ++ [e]] := by
  by_cases hopen : opening <+: last
  · have hended := (prefix_ended unended_opening he).2 hopen
    cases hlabel : labelOf? last with
    | some l =>
      rw [entriesFrom_opens hopen hlabel,
        entriesFrom_opens hended ((labelOf?_ended he).trans hlabel)]
    | none =>
      refine absurd ?_ (h (last ++ [e]))
      cases inside <;>
        rw [entriesFrom, if_pos (List.isPrefixOf_iff_prefix.2 hended), labelOf?_ended he, hlabel] <;>
        exact List.mem_cons_self
  · have hended := mt (prefix_ended unended_opening he).1 hopen
    cases inside with
    | none =>
      have hlast := entriesFrom_outside (List.forall_mem_singleton.2 hopen) body []
      have hnext := entriesFrom_outside (List.forall_mem_singleton.2 hended) body []
      exact hlast.trans hnext.symm
    | some label =>
      by_cases hclose : closing label <+: last
      · rw [entriesFrom_closes hopen hclose,
          entriesFrom_closes hended ((prefix_ended (unended_closing label) he).2 hclose)]
      · have hlate := mt (prefix_ended (unended_closing label) he).1 hclose
        have hlast := entriesFrom_inside (List.forall_mem_singleton.2 ⟨hopen, hclose⟩) body []
        have hnext := entriesFrom_inside (List.forall_mem_singleton.2 ⟨hended, hlate⟩) body []
        exact hlast.trans hnext.symm

/-- An empty line at the end is of no account. -/
theorem entriesFrom_empty (inside : Option Bytes) (body : Bytes) :
    entriesFrom inside body [] = entriesFrom inside body [[]] := by
  have hopen : ¬ opening <+: [] := by decide
  cases inside with
  | none => exact (entriesFrom_outside (List.forall_mem_singleton.2 hopen) body []).symm
  | some label =>
    have hclose : ¬ closing label <+: [] := fun h => closing_ne_nil label (List.prefix_nil.1 h)
    exact (entriesFrom_inside (List.forall_mem_singleton.2 ⟨hopen, hclose⟩) body []).symm

theorem entriesFrom_unended (he : IsEnd e) {front : List Bytes} {inside : Option Bytes}
    {last : Bytes}
    (h : ∀ line, .error (.badStart line) ∉ entriesFrom inside body (front ++ [last ++ [e]])) :
    entriesFrom inside body (front ++ if last = [] then [] else [last]) =
      entriesFrom inside body (front ++ [last ++ [e]]) := by
  induction front generalizing inside body with
  | nil =>
    rw [List.nil_append, List.nil_append] at *
    rw [← entriesFrom_last he h]
    split
    · next hempty => rw [hempty, entriesFrom_empty]
    · rfl
  | cons line front ih =>
    rw [List.cons_append] at h ⊢
    rw [List.cons_append]
    by_cases hopen : opening <+: line
    · cases hlabel : labelOf? line with
      | some l =>
        rw [entriesFrom_opens hopen hlabel] at h ⊢
        rw [entriesFrom_opens hopen hlabel, ih h]
      | none =>
        cases inside <;>
          rw [entriesFrom, entriesFrom, if_pos (List.isPrefixOf_iff_prefix.2 hopen), hlabel] <;>
          exact (if_pos (List.isPrefixOf_iff_prefix.2 hopen)).symm
    · cases inside with
      | none =>
        have hskip : ∀ more, entriesFrom none body (line :: more) = entriesFrom none body more :=
          entriesFrom_outside (List.forall_mem_singleton.2 hopen) body
        rw [hskip] at h ⊢
        rw [hskip, ih h]
      | some label =>
        by_cases hclose : closing label <+: line
        · rw [entriesFrom_closes hopen hclose] at h ⊢
          rw [entriesFrom_closes hopen hclose]
          by_cases ho : ∃ x, outcomeOf label body = some (.error x)
          · obtain ⟨x, hx⟩ := ho
            rw [hx]
            rfl
          · rw [ih fun l hl => h l (mem_follow (fun x hx => ho ⟨x, hx⟩) hl)]
        · have hinside : ∀ more, entriesFrom (some label) body (line :: more) =
              entriesFrom (some label) (body ++ [line].flatten) more :=
            entriesFrom_inside (List.forall_mem_singleton.2 ⟨hopen, hclose⟩) body
          rw [hinside] at h ⊢
          rw [hinside, ih h]

/-- **The end of the last line may be missing.** -/
theorem entries_of_spells {file : Bytes} (hs : Spells file text)
    (h : ∀ line, .error (.badStart line) ∉ entries text) : entries file = entries text := by
  have short : ∀ {file : Bytes} {e : UInt8}, IsEnd e →
      (∀ line, .error (.badStart line) ∉ entries (file ++ [e])) →
      entries file = entries (file ++ [e]) := by
    intro file e he h
    obtain ⟨front, last, hended, hlast⟩ := lines_ended [] file he
    unfold entries at h ⊢
    rw [hended] at h ⊢
    rw [hlast]
    exact entriesFrom_unended he h
  obtain rfl | ⟨eol, rfl⟩ := hs
  · rfl
  · cases eol with
    | lf => exact short (.inl rfl) h
    | cr => exact short (.inr rfl) h
    | crlf =>
      have hsplit : file ++ Eol.crlf.bytes = (file ++ [13]) ++ [10] := by simp [Eol.bytes]
      rw [hsplit] at h ⊢
      have hfirst := short (.inl rfl) h
      rw [← hfirst] at h ⊢
      exact short (.inr rfl) h

end Switchboard.Pem
