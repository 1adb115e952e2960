import Switchboard.Config.Document
import Switchboard.Files
import Switchboard.Json.Tree

/-!
# Layers of settings

Documents from several sources are laid over the compiled-in settings, and single fields over the
result.  A source that cannot be used is noted and changes nothing; but a variable that is no text
is a crash, whatever its name.

    load s = the settings of (layers s laid over defaults, then the overrides of s.env)
    b.texts? = some s.env → loadFrom s b = loaded (load s)
-/

namespace Switchboard.Config

/-- Environment variables in the order in which they were first set. -/
abbrev Env := List (String × String)

namespace Env

def get? (env : Env) (name : String) : Option String := env.lookup name

/-- Sets a variable; one that is set already keeps its place. -/
def set (env : Env) (name value : String) : Env :=
  if (env.get? name).isSome then env.map fun v => if v.1 = name then (name, value) else v
  else env ++ [(name, value)]

end Env

/-- Variables as they stand, names and values as bytes, in the order in which they were first set. -/
abbrev Block := List (Bytes × Bytes)

namespace Block

/-- A variable as a name and a value; an equals sign at the start belongs to the name. -/
def entry? (s : Bytes) : Option (Bytes × Bytes) :=
  match s with
  | [] => none
  | b :: rest =>
    match rest.span (· != 61) with
    | (name, 61 :: value) => some (b :: name, value)
    | _ => none

/-- Variables that stand one behind the other, each with a zero byte at its end. -/
def ofBytes (b : Bytes) : Block := (b.splitOn 0).filterMap entry?

/-- What one variable holds, if that is a text. -/
def get? (b : Block) (name : String) : Option String := (b.lookup (Text.bytes name)).bind Text.text?

/-- A variable as texts, if it is none but texts. -/
def textOf? (v : Bytes × Bytes) : Option (String × String) :=
  (Text.text? v.1).bind fun name => (Text.text? v.2).map fun value => (name, value)

/-- All variables as texts; nothing if one of them is no text. -/
def texts? (b : Block) : Option Env := b.mapM textOf?

end Block

/-- Where a document comes from. -/
inductive Source where
  | file (path : String)
  | stdin
  | environment (name : String)
  deriving DecidableEq, Repr

/-- How a source that cannot be read is called. -/
def Source.name : Source → String
  | file path => path
  | stdin => "stdin"
  | environment name => name

/-- How a source that is no document is called. -/
def Source.label : Source → String
  | file path => "file " ++ path
  | s => s.name

/-- Something that was passed over, and why. -/
inductive Notice where
  | unreadable (source : Source) (e : FileError)
  | malformed (source : Source) (p : Json.Problem)
  | unusable (p : Json.Problem)
  | level (n : LevelNotice)
  deriving Repr

def Notice.message : Notice → String
  | unreadable source e => "Failed to read config from " ++ source.name ++ ": " ++ e.message
  | malformed source p => "Failed to parse config from " ++ source.label ++ ": " ++ p.message
  | unusable p => "Failed to deserialize config; using defaults: " ++ p.message
  | level n => n.message

/-- All that settings can come from; `beside` is the file next to the program, with its path. -/
structure Sources where
  beside : Option (String × Bytes) := none
  files : Files := {}
  env : Env := []
  stdin : Bytes := []

structure Layer where
  source : Source
  content : Except FileError String

/-! ## Layers -/

def pathVariable : String := "SIGNAL_RELAY_CONFIG_PATH"

def stdinVariable : String := "SIGNAL_RELAY_CONFIG_STDIN"

def documentVariable : String := "SIGNAL_RELAY_CONFIG_JSON"

/-- The variables that are looked up by name, as far as they are texts. -/
def Block.named (b : Block) : Env :=
  [pathVariable, stdinVariable, documentVariable].filterMap fun name =>
    (b.get? name).map fun value => (name, value)

def decoded (b : Bytes) : Except FileError String :=
  match Text.text? b with
  | some s => .ok s
  | none => .error .notText

/-- A file that is named and there. -/
def fileLayer (fs : Files) (path : String) : List Layer :=
  if path ≠ "" && fs.exists? path then [⟨.file path, fs.readText path⟩] else []

def isTruthy (s : String) : Bool :=
  ["1", "true", "yes"].contains (Text.lowerAscii (Text.trim s))

/-- Is there a document on the standard input? -/
def readsStdin (env : Env) : Bool := (env.get? stdinVariable).any isTruthy

/-- The paths of documents that are looked for. -/
def documentPaths (env : Env) : List String := "config.json" :: (env.get? pathVariable).toList

/-- The sources that are there, the lowest first. -/
def layers (s : Sources) : List Layer :=
  (match s.beside with
    | some (path, b) => [⟨.file path, decoded b⟩]
    | none => []) ++
  (documentPaths s.env).flatMap (fileLayer s.files) ++
  (if readsStdin s.env then [⟨.stdin, decoded s.stdin⟩] else []) ++
  (match s.env.get? documentVariable with
    | some text => [⟨.environment documentVariable, .ok text⟩]
    | none => [])

/-- The value that a layer holds; none if it is blank. -/
def Layer.value (l : Layer) : Except Notice (Option Json.Value) :=
  match l.content with
  | .error e => .error (.unreadable l.source e)
  | .ok text =>
    if Text.isAllBlank text then .ok none
    else
      match Json.document (Text.bytes text) with
      | .ok v => .ok (some v)
      | .error p => .error (.malformed l.source p)

/-- Lays one layer over the document so far. -/
def lay (acc : Json.Value × List Notice) (l : Layer) : Json.Value × List Notice :=
  match l.value with
  | .ok none => acc
  | .ok (some v) => (acc.1.overlay v, acc.2)
  | .error n => (acc.1, acc.2 ++ [n])

def defaults : Json.Value := (toValue {}).sorted

/-! ## Overrides -/

def overrideStart : List Char := "SIGNAL_RELAY__".toList

/-- The pieces between double underscores. -/
def splitDouble : List Char → List Char → List String
  | piece, [] => [String.ofList piece.reverse]
  | piece, '_' :: '_' :: rest => String.ofList piece.reverse :: splitDouble [] rest
  | piece, c :: rest => splitDouble (c :: piece) rest

/-- The path of the field that a variable sets; none for any other variable. -/
def overridePath (name : String) : List String :=
  if overrideStart.isPrefixOf name.toList then
    ((splitDouble [] (name.toList.drop overrideStart.length)).filter (· ≠ "")).map Text.lowerAscii
  else []

/-- A text as a value: what it is as a document, else itself. -/
def scalar (raw : String) : Json.Value :=
  if raw = "" then .string ""
  else
    match Json.document (Text.bytes raw) with
    | .ok v => v
    | .error _ => .string raw

def applyOverride (v : Json.Value) (var : String × String) : Json.Value :=
  match overridePath var.1 with
  | [] => v
  | path => v.place path (scalar (Text.trim var.2))

def applyOverrides (v : Json.Value) (env : Env) : Json.Value := env.foldl applyOverride v

/-! ## Loading -/

/-- All sources in one document, with what was passed over. -/
def merged (s : Sources) : Json.Value × List Notice :=
  let (v, notices) := (layers s).foldl lay (defaults, [])
  (applyOverrides v s.env, notices)

/-- The settings of a document; the compiled-in ones if it does not describe any. -/
def ofDocument (v : Json.Value) : Config × List Notice :=
  match record.take ⟨{}, []⟩ v with
  | (d, none) => (d.settings, d.notices.map .level)
  | (d, some cause) => ({}, d.notices.map .level ++ [.unusable ⟨cause, none⟩])

def load (s : Sources) : Config × List Notice :=
  let (v, notices) := merged s
  let (c, more) := ofDocument v
  (c, notices ++ more)

/-- How the loading of settings ends. -/
inductive Loading where
  | loaded (c : Config) (notices : List Notice)
  | crashed (notices : List Notice)

/-- Loads with the variables as they stand.  The documents are taken first; then all variables are
looked through for overrides, and that is a crash if one of them is no text. -/
def loadFrom (s : Sources) (b : Block) : Loading :=
  match b.texts? with
  | some env =>
    let (c, notices) := load { s with env := env }
    .loaded c notices
  | none => .crashed ((layers { s with env := b.named }).foldl lay (defaults, [])).2

end Switchboard.Config
