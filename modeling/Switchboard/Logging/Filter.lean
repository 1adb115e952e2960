import Switchboard.Logging.Record
import Switchboard.Text.Numeral

/-!
# Log filters

Which records are written.  A filter is a list of directives, each a level for the targets that
start in one way; of those that apply to a record the most specific one decides, of equal ones the
last, and where none applies nothing is written.

    enables (ofLevel l) r ↔ r is at least as grave as l
    parse "" = some []
-/

namespace Switchboard.Logging

/-- A threshold for some records; without one nothing passes. -/
structure Directive where
  target : Option String := none
  span : Option String := none
  field : Option (String × Option String) := none
  least : Option Level := some .trace
  deriving DecidableEq, Repr

abbrev Filter := List Directive

namespace Directive

/-! ## Reading -/

/-- The name of a threshold, in any letter case, or its number. -/
def thresholds : List (String × Option Level) :=
  [("off", none), ("error", some .error), ("warn", some .warn), ("info", some .info),
    ("debug", some .debug), ("trace", some .trace)]

def threshold? (s : List Char) : Option (Option Level) :=
  match (Text.natural? s).bind fun n => thresholds[n]? with
  | some (_, l) => some l
  | none => thresholds.lookup (Text.lowerAscii (String.ofList s))

/-- The threshold behind an equals sign; all is written if none is given. -/
def thresholdOr (s : List Char) : Option (Option Level) :=
  if s.isEmpty then some (some .trace) else threshold? s

/-- The first character of a target; beyond ASCII every character may be it. -/
def startsTarget (c : Char) : Bool :=
  c.isAlphanum || c == '-' || c == ':' || c == '_' || 127 < c.toNat

def cut (s : List Char) (start stop : Nat) : String :=
  String.ofList ((s.drop start).take (stop - start))

/-- What may follow a bracket: nothing, or a threshold. -/
def parseTail (s : List Char) (place : Nat) (d : Directive) : List Char → Option Directive
  | [] => some d
  | '=' :: _ => (thresholdOr (s.drop (place + 1))).map fun l => { d with least := l }
  | _ => none

/-- A field in braces: a name, or a name and a value. -/
def fieldOf (s : List Char) : String × Option String :=
  match s.span (· != '=') with
  | (name, '=' :: value) => (String.ofList name, some (String.ofList (value.takeWhile (· != '='))))
  | (name, _) => (String.ofList name, none)

/-- A span and a field in brackets; `start` is where the bracket has been opened. -/
def parseBracket (s : List Char) (start : Nat) (d : Directive) (inner : List Char) :
    Option Directive :=
  let name := inner.takeWhile fun c => c != ']' && c != '\x7b'
  let stop := start + 1 + name.length
  let span := cut s (start + 1) stop
  match inner.drop name.length with
  | ']' :: rest => parseTail s (stop + 1) { d with span := some span } rest
  | '\x7b' :: rest =>
    let field := rest.takeWhile (· != '\x7d')
    let close := stop + 1 + field.length
    match field.isEmpty, rest.drop field.length with
    | false, '\x7d' :: ']' :: rest =>
      let d := { d with
        span := if name.isEmpty then none else some span
        field := some (fieldOf (cut s (stop + 1) close).toList) }
      parseTail s (close + 2) d rest
    | _, _ => none
  | _ => none

/-- One directive.  Its parts are found in the text without the blanks around it, and their places
are then taken in the text as it stands, so blanks in front of a directive shift its parts. -/
def parse (text : String) : Option Directive :=
  let s := text.toList
  match (Text.trim text).toList with
  | [] => none
  | '[' :: inner => parseBracket s 0 {} inner
  | c :: rest =>
    if !startsTarget c then none
    else
      let n := 1 + (rest.takeWhile fun c => c != '=' && c != '[').length
      match (c :: rest).drop n with
      | [] =>
        match threshold? s with
        | some l => some { least := l }
        | none => some { target := some text }
      | '[' :: inner => parseBracket s n { target := some (cut s 0 n) } inner
      | _ => (thresholdOr (s.drop (n + 1))).map fun l => { target := some (cut s 0 n), least := l }

/-! ## Deciding -/

/-- Directives for spans, or for values of fields in spans, are for no record outside of them. -/
def isForRecords (d : Directive) : Bool := d.span.isNone && d.field.all fun f => f.2.isNone

def applies (d : Directive) (r : Record) : Bool :=
  d.isForRecords && d.target.all (fun t => t.toList.isPrefixOf r.target.toList) &&
    d.field.all fun f => r.names.contains f.1

def weight (d : Directive) : Nat × Nat :=
  (match d.target with
    | some t => t.utf8ByteSize + 1
    | none => 0,
   if d.field.isSome then 1 else 0)

/-- Does the first directive come after the second?  A directive that is not more specific than
another gives way only to a greater field name. -/
def yields (d e : Directive) : Bool :=
  let (t, f) := d.weight
  let (t', f') := e.weight
  if t ≠ t' then t < t'
  else if f ≠ f' then f < f'
  else (d.field.map (·.1)).getD "" < (e.field.map (·.1)).getD ""

def passes (d : Directive) (r : Record) : Bool :=
  match d.least with
  | some l => l.rank ≤ r.level.rank
  | none => false

end Directive

namespace Filter

/-- The directives of a text, separated by commas; all of them must be well formed. -/
def parse (text : String) : Option Filter :=
  if text = "" then some [] else (text.splitOn ",").mapM Directive.parse

def ofLevel (l : Level) : Filter := [{ least := some l }]

/-- The filter of a level that is set, else of a text that is given and well formed, else of the
level for information. -/
def choose (level : Option Level) (text : Option String) : Filter :=
  match level with
  | some l => ofLevel l
  | none => (text.bind parse).getD (ofLevel .info)

/-- The directive that decides on a record. -/
def decisive? (f : Filter) (r : Record) : Option Directive :=
  (f.filter (·.applies r)).foldl
    (fun best d =>
      match best with
      | some b => if d.yields b then some b else some d
      | none => some d) none

def enables (f : Filter) (r : Record) : Bool := (f.decisive? r).any (·.passes r)

/-! ## Lemmas -/

theorem enables_ofLevel (l : Level) (r : Record) :
    enables (ofLevel l) r = decide (l.rank ≤ r.level.rank) := by
  simp [enables, decisive?, ofLevel, Directive.applies, Directive.isForRecords, Directive.passes]

end Filter

end Switchboard.Logging
