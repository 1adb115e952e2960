import Switchboard.Config.Settings
import Switchboard.Text.Numeral

/-!
# Options

What may stand on the command line: switches, and settings with a value, each at most once.  There
are no other arguments.

    parse [] = ok {}
    parse args = ok o → o does not both check and print
-/

namespace Switchboard.Command

structure Options where
  validate : Bool := false
  print : Bool := false
  verbose : Bool := false
  host : Option String := none
  port : Option UInt16 := none
  certFile : Option String := none
  keyFile : Option String := none
  wwwPath : Option String := none
  deriving DecidableEq, Repr

/-- Why nothing is done with the options. -/
inductive Stop where
  | help
  | version
  | misuse
  deriving DecidableEq, Repr

inductive Switch where
  | validate
  | print
  | verbose
  | help
  | version
  deriving DecidableEq, Repr

inductive Setting where
  | host
  | port
  | certFile
  | keyFile
  | wwwPath
  deriving DecidableEq, Repr

inductive Kind where
  | switch (s : Switch)
  | setting (s : Setting) (value : String)
  deriving DecidableEq, Repr

/-- An option, how it is written, and what it is for. -/
structure Row where
  kind : Kind
  short : Option Char
  long : String
  about : String
  deriving Repr

def rows : List Row := [
  ⟨.switch .validate, some 'c', "validate-config",
    "Validate configuration and exit without starting the relay"⟩,
  ⟨.switch .print, none, "print-config",
    "Print the loaded configuration to stdout (as JSON) and exit"⟩,
  ⟨.setting .host "HOST", none, "host", "Address to listen on"⟩,
  ⟨.setting .port "PORT", some 'p', "port", "Port to listen on"⟩,
  ⟨.setting .certFile "CERT_FILE", none, "cert-file", "PEM certificate chain"⟩,
  ⟨.setting .keyFile "KEY_FILE", none, "key-file", "PEM private key"⟩,
  ⟨.setting .wwwPath "WWW_PATH", none, "www-path", "Directory served for non-relay paths"⟩,
  ⟨.switch .verbose, some 'v', "verbose", "Log at debug level"⟩,
  ⟨.switch .help, some 'h', "help", "Print help"⟩,
  ⟨.switch .version, some 'V', "version", "Print version"⟩]

/-! ## Texts -/

def programName : String := "signal-relay"

def versionText : String := programName ++ " 0.1.0\n"

/-- An option as it is written, with the name of its value. -/
def Row.left (r : Row) : String :=
  (match r.short with
    | some c => "  -" ++ String.singleton c ++ ", --"
    | none => "      --") ++ r.long ++
  (match r.kind with
    | .setting _ value => " <" ++ value ++ ">"
    | .switch _ => "")

def Row.text (width : Nat) (r : Row) : String :=
  r.left ++ String.ofList (List.replicate (width - r.left.length) ' ') ++ "  " ++ r.about ++ "\n"

def usage : String := "Usage: " ++ programName ++ " [OPTIONS]\n"

def helpText : String :=
  "A TLS WebSocket relay that forwards signaling envelopes between peers\n\n" ++ usage ++
    "\nOptions:\n" ++
    String.join (rows.map (Row.text ((rows.map fun r => r.left.length).max?.getD 0)))

/-! ## Reading -/

def long? (name : String) : Option Kind := (rows.find? (·.long == name)).map (·.kind)

def short? (c : Char) : Option Kind := (rows.find? (·.short == some c)).map (·.kind)

/-- Sets a switch that is not set yet; two of them end the reading. -/
def Options.turnOn (o : Options) : Switch → Except Stop Options
  | .validate => if o.validate then .error .misuse else .ok { o with validate := true }
  | .print => if o.print then .error .misuse else .ok { o with print := true }
  | .verbose => if o.verbose then .error .misuse else .ok { o with verbose := true }
  | .help => .error .help
  | .version => .error .version

def port? (s : String) : Option UInt16 :=
  match Text.integer? s.toList with
  | some (.ofNat n) => if n < 65536 then some n.toUInt16 else none
  | _ => none

/-- The value of a setting that has none yet. -/
def once {α : Type} (old new : Option α) : Except Stop (Option α) :=
  match old, new with
  | none, some a => .ok (some a)
  | _, _ => .error .misuse

def Options.assign (o : Options) (s : Setting) (value : String) : Except Stop Options :=
  match s with
  | .host => (once o.host (some value)).map fun v => { o with host := v }
  | .port => (once o.port (port? value)).map fun v => { o with port := v }
  | .certFile => (once o.certFile (some value)).map fun v => { o with certFile := v }
  | .keyFile => (once o.keyFile (some value)).map fun v => { o with keyFile := v }
  | .wwwPath => (once o.wwwPath (some value)).map fun v => { o with wwwPath := v }

/-- May an argument be the value of the setting before it? -/
def isPlain (arg : String) : Bool := arg == "-" || arg.toList.head? != some '-'

/-- What one argument comes to: the options with it, or with a setting whose value is to follow. -/
inductive Reading where
  | done (o : Options)
  | waiting (o : Options) (s : Setting)

def readLong (o : Options) (body : List Char) : Except Stop Reading :=
  let name := body.takeWhile (· != '=')
  match long? (String.ofList name), body.drop name.length with
  | some (.switch s), [] => (o.turnOn s).map .done
  | some (.setting s _), [] => .ok (.waiting o s)
  | some (.setting s _), _ :: value => (o.assign s (String.ofList value)).map .done
  | _, _ => .error .misuse

/-- Switches in one argument; the first setting among them takes the rest of it. -/
def readShorts (o : Options) : List Char → Except Stop Reading
  | [] => .ok (.done o)
  | c :: rest =>
    match short? c with
    | none => .error .misuse
    | some (.switch s) =>
      match o.turnOn s with
      | .error e => .error e
      | .ok o => readShorts o rest
    | some (.setting s _) =>
      match rest with
      | [] => .ok (.waiting o s)
      | '=' :: value => (o.assign s (String.ofList value)).map .done
      | value => (o.assign s (String.ofList value)).map .done

def readOne (o : Options) (arg : String) : Except Stop Reading :=
  match arg.toList with
  | '-' :: '-' :: body => readLong o body
  | '-' :: c :: rest => readShorts o (c :: rest)
  | _ => .error .misuse

def readAll (o : Options) : List String → Except Stop Options
  | [] => .ok o
  | arg :: args =>
    if arg = "--" then if args.isEmpty then .ok o else .error .misuse
    else
      match readOne o arg with
      | .error e => .error e
      | .ok (.done o) => readAll o args
      | .ok (.waiting o s) =>
        match args with
        | [] => .error .misuse
        | value :: args =>
          if isPlain value then
            match o.assign s value with
            | .error e => .error e
            | .ok o => readAll o args
          else .error .misuse

/-- The options of a command line; to check and to print are not for one run. -/
def parse (args : List String) : Except Stop Options :=
  match readAll {} args with
  | .error e => .error e
  | .ok o => if o.validate && o.print then .error .misuse else .ok o

/-! ## Lemmas -/

theorem parse_nil : parse [] = .ok {} := rfl

theorem not_both_of_parse {args : List String} {o : Options} (h : parse args = .ok o) :
    (o.validate && o.print) = false := by
  unfold parse at h
  split at h
  · cases h
  · split at h
    · cases h
    · next ho => cases h; simpa using ho

end Switchboard.Command
