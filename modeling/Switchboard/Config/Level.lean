import Switchboard.Text.Blank
import Switchboard.Text.Lowercase

/-!
# Log levels

Five levels, from the chattiest to the gravest, read from their names in any letter case between
blanks; two of them have a second name.

    ofText (blanks ++ l.name ++ blanks) = ok l
-/

namespace Switchboard

inductive Level where
  | trace
  | debug
  | info
  | warn
  | error
  deriving DecidableEq, Repr

namespace Level

/-- A text that names no level, trimmed and in lower case. -/
structure Unknown where
  text : String
  deriving DecidableEq, Repr

/-! ## Algorithm -/

def name : Level → String
  | trace => "trace"
  | debug => "debug"
  | info => "info"
  | warn => "warn"
  | error => "error"

/-- Higher levels are graver. -/
def rank : Level → Nat
  | trace => 0
  | debug => 1
  | info => 2
  | warn => 3
  | error => 4

/-- Every name of every level. -/
def names : List (String × Level) :=
  [("trace", trace), ("debug", debug), ("info", info), ("warn", warn), ("warning", warn),
    ("error", error), ("err", error)]

def ofText (s : String) : Except Unknown Level :=
  let lowered := Text.lower (Text.trim s)
  match names.find? (·.1 == lowered) with
  | some (_, l) => .ok l
  | none => .error ⟨lowered⟩

def Unknown.message (u : Unknown) : String :=
  "invalid log level '" ++ u.text ++ "', expected one of: trace, debug, info, warn, error"

/-! ## Lemmas -/

theorem ofText_name (l : Level) : ofText l.name = .ok l := by
  cases l <;> rfl

end Level

end Switchboard
