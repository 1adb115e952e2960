import Switchboard.Config.Level
import Switchboard.Json.Print
import Switchboard.Text.Quoted

/-!
# Log records

One thing that happened, and the lines it is written as: a JSON object, or a text, which may have
colours.

    plainLine: <stamp> <level, five wide> <target>: <message> <name>=<value> …
-/

namespace Switchboard.Logging

inductive Value where
  | integer (n : Int)
  | text (s : String)
  | shown (s : String)
  deriving DecidableEq, Repr

structure Record where
  level : Level
  target : String
  message : String
  fields : List (String × Value)
  deriving DecidableEq, Repr

/-! ## Parts -/

/-- The message counts as a field. -/
def Record.names (r : Record) : List String := "message" :: r.fields.map (·.1)

def levelTitle (l : Level) : String := l.name.map Char.toUpper

/-- A text at the right end of a space of the given width. -/
def padLeft (width : Nat) (s : String) : String :=
  String.ofList (List.replicate (width - s.length) ' ') ++ s

def Value.json : Value → Json.Value
  | integer n => .number (.integer n)
  | text s | shown s => .string s

def Value.plain : Value → String
  | integer n => toString n
  | text s => Text.quoted s
  | shown s => s

/-! ## Lines -/

def jsonLine (stamp : String) (r : Record) : String :=
  Json.compact (.object [
    ("timestamp", .string stamp),
    ("level", .string (levelTitle r.level)),
    ("fields", .object (("message", .string r.message) :: r.fields.map fun (n, v) => (n, v.json))),
    ("target", .string r.target)])

/-- A way to set off a piece of a line. -/
abbrev Style := String → String

/-- The styles that a text line uses: for what is beside the matter, for names, for each level. -/
structure Palette where
  dim : Style
  name : Style
  level : Level → Style

def textLine (p : Palette) (stamp : String) (r : Record) : String :=
  let fields := r.fields.map fun (n, v) => " " ++ p.name n ++ p.dim "=" ++ v.plain
  p.dim stamp ++ " " ++ p.level r.level (padLeft 5 (levelTitle r.level)) ++ " " ++
    p.dim r.target ++ p.dim ":" ++ " " ++ r.message ++ String.join fields

def plain : Palette := ⟨id, id, fun _ => id⟩

/-- Text between the sequences of a terminal that switch a style on and all styles off. -/
def styled (code : Nat) (s : String) : String := "\x1b[" ++ toString code ++ "m" ++ s ++ "\x1b[0m"

def colour : Level → Nat
  | .trace => 35
  | .debug => 34
  | .info => 32
  | .warn => 33
  | .error => 31

def coloured : Palette := ⟨styled 2, styled 3, fun l => styled (colour l)⟩

def plainLine (stamp : String) (r : Record) : String := textLine plain stamp r

def colouredLine (stamp : String) (r : Record) : String := textLine coloured stamp r

end Switchboard.Logging
