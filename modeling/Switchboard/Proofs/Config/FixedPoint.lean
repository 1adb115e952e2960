import Switchboard.Command.Run
import Switchboard.Proofs.Config.Precedence
import Switchboard.Proofs.Config.Sections

/-!
# Settings that are printed

What is printed of settings is read as the same settings, and given as the document of the
environment it decides all of them, whatever lies below it.  So it is printed again as it is.

    codec.parse (printed c) = ok ⟨c, []⟩
    s has printed c, and no overrides → (load s).1 = c
-/

namespace Switchboard.Config

open Json

/-! ## The text -/

/-- What is printed of settings, with blanks behind it. -/
def printed (c : Config) (tail : String) : String := pretty (toValue c) ++ tail

theorem orNull_printable (depth : Nat) (o : Option String) : (orNull o).Printable depth := by
  cases o with
  | none => exact .null
  | some s => exact .string s

theorem word_printable (depth : Nat) (n : UInt64) : (word n).Printable depth := .number n.toNat_lt

theorem relay_printable (depth : Nat) (c : RelaySettings) : (relayValue c).Printable (depth + 1) := by
  refine .object (unquoted_cons (by decide)) ?_
  simp only [List.forall_mem_cons]
  exact ⟨word_printable _ _, .string _, word_printable _ _, word_printable _ _, word_printable _ _,
    word_printable _ _, word_printable _ _, fun _ hm => absurd hm List.not_mem_nil⟩

theorem log_printable (depth : Nat) (c : LogSettings) : (logValue c).Printable (depth + 1) := by
  refine .object (unquoted_cons (by decide)) ?_
  simp only [List.forall_mem_cons]
  exact ⟨.string _, .string _, .string _, orNull_printable _ _, .bool _, .string _,
    fun _ hm => absurd hm List.not_mem_nil⟩

theorem tls_printable (depth : Nat) (c : TlsSettings) : (tlsValue c).Printable (depth + 1) := by
  refine .object (unquoted_cons (by decide)) ?_
  simp only [List.forall_mem_cons]
  exact ⟨orNull_printable _ _, orNull_printable _ _, fun _ hm => absurd hm List.not_mem_nil⟩

theorem printable_toValue (c : Config) : (toValue c).Printable maxDepth := by
  have single : ∀ {depth : Nat} {name : String} {v : Value}, name ≠ rawName → v.Printable depth →
      Value.Printable (depth + 1) (.object [(name, v)]) :=
    fun hname h => .object (unquoted_cons hname) fun m hm => List.mem_singleton.1 hm ▸ h
  have hport : c.port.toNat < Bounds.word64 := Nat.lt_trans c.port.toNat_lt (by decide)
  refine .object (unquoted_cons (by decide)) ?_
  simp only [List.forall_mem_cons]
  exact ⟨.string _, .number hport, relay_printable _ _, log_printable _ _,
    single (by decide) (tls_printable _ _), single (by decide) (orNull_printable _ _),
    fun _ hm => absurd hm List.not_mem_nil⟩

variable {c : Config} {tail : String}

theorem document_printed (c : Config) (h : Gap (Text.bytes tail)) :
    document (Text.bytes (printed c tail)) = .ok (toValue c).sorted := by
  rw [printed, Text.bytes_append]
  exact document_pretty (printable_toValue c) h

theorem tidy_toValue (c : Config) : (toValue c).sorted.Tidy :=
  tidy_document (document_pretty (printable_toValue c) gap_nil)

/-- What is written of an object begins with a brace. -/
theorem pretty_not_blank (m : String × Value) (ms : Members) (tail : String) :
    Text.isAllBlank (pretty (.object (m :: ms)) ++ tail) = false := by
  have hbrace : ∃ rest, (pretty (.object (m :: ms)) ++ tail).toList = '\x7b' :: rest := by
    rw [pretty, indented, String.toList_append, String.toList_append, String.toList_append,
      String.toList_append]
    exact ⟨_, rfl⟩
  obtain ⟨rest, hrest⟩ := hbrace
  rw [Text.isAllBlank, hrest]
  rfl

/-- **What is printed is read as the same settings**, with nothing to note. -/
theorem parse_printed (c : Config) (h : Gap (Text.bytes tail)) :
    codec.parse (Text.bytes (printed c tail)) = .ok ⟨c, []⟩ := by
  refine wholly_eq_ok_iff.2 ⟨Text.bytes tail, ?_, h⟩
  rw [printed, Text.bytes_append]
  exact (codec_restores c).read (by decide) gap_nil (ends_of_gap h)

/-! ## What lies below -/

theorem tidy_foldl_overlay {docs : List Value} {v : Value} (hv : v.Tidy)
    (h : ∀ w ∈ docs, w.Tidy) : (docs.foldl Value.overlay v).Tidy := by
  induction docs generalizing v with
  | nil => exact hv
  | cons w docs ih =>
    exact ih (hv.overlay (h w List.mem_cons_self)) fun u hu => h u (List.mem_cons_of_mem w hu)

/-- The document of the environment lies over all others. -/
theorem merged_of_inline {s : Sources} {v : Value} (h : s.document? .inline = some v)
    (hnone : ∀ var ∈ s.env, overridePath var.1 = []) :
    ∃ below : Value, below.Tidy ∧ (merged s).1 = below.overlay v := by
  let others : List Place := [.beside, .here, .named, .input]
  have hsplit : s.documents = others.filterMap s.document? ++ [v] := by
    have hlast : [Place.inline].filterMap s.document? = [v] := by
      rw [List.filterMap_cons, h]
      rfl
    show (others ++ [Place.inline]).filterMap s.document? = _
    rw [List.filterMap_append, hlast]
  have hoverrides : overrides s.env = [] :=
    List.filter_eq_nil_iff.2 fun var hvar hd => of_decide_eq_true hd (hnone var hvar)
  have htidy : ∀ w ∈ others.filterMap s.document?, w.Tidy := by
    intro w hw
    refine tidy_of_mem_documents (s := s) ?_
    rw [hsplit]
    exact List.mem_append_left _ hw
  refine ⟨_, tidy_foldl_overlay (tidy_toValue {}) htidy, ?_⟩
  rw [merged_eq, applyOverrides_eq, hoverrides, hsplit, List.foldl_append]
  rfl

theorem ofDocument_of_ofValue {v : Value} (h : codec.ofValue v = .ok ⟨c, []⟩) :
    ofDocument v = (c, []) := by
  unfold ofDocument
  simp only [codec, Record.codec] at h
  split at h
  · next d htake =>
    rw [htake, Except.ok.inj h]
    rfl
  · cases h

theorem ofDocument_printed {s : Sources} (hdocument : s.env.get? documentVariable =
    some (printed c tail)) (htail : Gap (Text.bytes tail))
    (hnone : ∀ var ∈ s.env, overridePath var.1 = []) : ofDocument (merged s).1 = (c, []) := by
  have hgiven : s.given .inline = some (.ok (printed c tail)) := by
    rw [Sources.given, hdocument]
    rfl
  have husable : usable (.ok (printed c tail)) = some (toValue c).sorted :=
    usable_eq_some_iff.2 ⟨pretty_not_blank _ _ tail, document_printed c htail⟩
  have hused : s.document? .inline = some (toValue c).sorted := by
    rw [Sources.document?, hgiven, Option.bind_some, husable]
  obtain ⟨below, hbelow, hmerged⟩ := merged_of_inline hused hnone
  rw [hmerged]
  exact ofDocument_of_ofValue ((codec_restores c).ofValue hbelow)

/-- What is noted while the sources are laid over each other is about one of them. -/
def Notice.ofSource : Notice → Prop
  | unreadable _ _ | malformed _ _ => True
  | unusable _ | level _ => False

theorem ofSource_of_value {l : Layer} {n : Notice} (h : l.value = .error n) : n.ofSource := by
  unfold Layer.value at h
  split at h
  · cases h
    trivial
  · split at h
    · cases h
    · split at h <;> cases h
      trivial

theorem notices_merged {s : Sources} {n : Notice} (h : n ∈ (merged s).2) : n.ofSource := by
  have laid : ∀ (ls : List Layer) (acc : Value × List Notice), (∀ n ∈ acc.2, n.ofSource) →
      ∀ n ∈ (ls.foldl lay acc).2, n.ofSource := by
    intro ls
    induction ls with
    | nil => exact fun _ h => h
    | cons l ls ih =>
      intro acc hacc
      refine ih (lay acc l) ?_
      unfold lay
      split
      · exact hacc
      · exact hacc
      · next hvalue =>
        intro n hn
        rcases List.mem_append.1 hn with hn | hn
        · exact hacc n hn
        · rw [List.mem_singleton.1 hn]
          exact ofSource_of_value hvalue
  exact laid (layers s) (defaults, []) (fun _ hn => absurd hn List.not_mem_nil) n h

/-! ## Top theorem -/

/-- **Settings that are printed are a fixed point.**  The text that is printed of any settings, and
any blanks behind it, is read as these settings with nothing to note.  Where it is the document of the
environment, and no override is set, these settings are loaded whatever the other sources are; all
that is noted is about a source, not about the settings; and they are printed as the same text. -/
theorem printed_fixed (c : Config) {tail : String} (htail : Gap (Text.bytes tail)) :
    codec.parse (Text.bytes (printed c tail)) = .ok ⟨c, []⟩ ∧
      ∀ s : Sources, s.env.get? documentVariable = some (printed c tail) →
        (∀ var ∈ s.env, overridePath var.1 = []) →
        (load s).1 = c ∧ (∀ n ∈ (load s).2, n.ofSource) ∧
          ∀ judge m, (Command.run judge ["--print-config"] s m).ending = .exit 0 ∧
            (Command.run judge ["--print-config"] s m).out = printed c "\n" := by
  refine ⟨parse_printed c htail, fun s hdocument hnone => ?_⟩
  have hof := ofDocument_printed hdocument htail hnone
  have hload : load s = (c, (merged s).2) := by
    unfold load
    dsimp only
    rw [hof, List.append_nil]
  refine ⟨by rw [hload], fun n hn => ?_, fun judge m => ?_⟩
  · rw [hload] at hn
    exact notices_merged hn
  · have hparse : Command.parse ["--print-config"] = .ok { print := true } := by rfl
    have hsettings : Command.settings { print := true } s = (c, (merged s).2) := by
      unfold Command.settings
      rw [hload]
      rfl
    unfold Command.run
    rw [hparse]
    dsimp only
    rw [hsettings]
    exact ⟨rfl, rfl⟩

/-- Settings in the environment over a file that has other things in their place, and over a standard
input that is no document. -/
def overlaid : Sources where
  files := .ofList [] [("config.json",
    Text.bytes "\x7b\"relay\":7,\"logging\":\x7b\"level\":[1]\x7d,\"host\":null,\"x\":0\x7d")] []
  env := [(stdinVariable, "yes"),
    (documentVariable, printed { host := "\x22::1\n", port := 1 } "\n")]
  stdin := [255]

theorem printed_fixed_overlaid : (load overlaid).1 = { host := "\x22::1\n", port := 1 } ∧
    ∀ judge m, (Command.run judge ["--print-config"] overlaid m).out =
      printed { host := "\x22::1\n", port := 1 } "\n" := by
  have htail : Gap (Text.bytes "\n") := by
    intro b hb
    rw [List.mem_singleton.1 hb]
    rfl
  have hnone : ∀ var ∈ overlaid.env, overridePath var.1 = [] := by
    intro var hvar
    simp only [overlaid, List.mem_cons, List.not_mem_nil, or_false] at hvar
    rcases hvar with rfl | rfl <;> rfl
  obtain ⟨hload, -, hrun⟩ := (printed_fixed { host := "\x22::1\n", port := 1 } htail).2 overlaid rfl
    hnone
  exact ⟨hload, fun judge m => (hrun judge m).2⟩

end Switchboard.Config
