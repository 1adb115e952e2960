import Switchboard.Address
import Switchboard.Command.Options
import Switchboard.Config.Check
import Switchboard.Logging.Output
import Switchboard.Tls.Material

/-!
# Runs of the program

From the command line to the end of a run, or to the point where the relay begins to listen: the
settings are loaded, options laid over them, and then they are printed, checked, or started with.

    run judge args s m = the outcome with the first thing that is wrong, in the order of the start
    runFrom judge args s b m = the same with the variables of `b`, or a crash
-/

namespace Switchboard.Command

inductive Ending where
  | exit (code : Nat)
  | listening
  deriving DecidableEq, Repr

/-- What a run prints, the files after it, and how it ends. -/
structure Outcome where
  ending : Ending
  out : String := ""
  err : String := ""
  files : Files

/-! ## Settings -/

/-- Options stand above all other sources. -/
def Options.applyTo (o : Options) (c : Config) : Config :=
  { c with
    host := o.host.getD c.host
    port := o.port.getD c.port
    tls := ⟨o.certFile <|> c.tls.certificatePath, o.keyFile <|> c.tls.privateKeyPath⟩
    wwwPath := o.wwwPath <|> c.wwwPath
    logging := if o.verbose then { c.logging with level := some .debug } else c.logging }

/-- The settings of a run, and what was passed over on the way to them. -/
def settings (o : Options) (s : Config.Sources) : Config × List Config.Notice :=
  let (c, notices) := Config.load s
  (o.applyTo c, notices)

/-- The paths that a run with these settings looks at. -/
def pathsOf (m : Logging.Moment) (c : Config) : List String :=
  let name := Logging.fileName m (.ofText c.logging.rotation) c.logging.filename
  let given := c.tls.certificatePath.toList ++ c.tls.privateKeyPath.toList ++ c.wwwPath.toList
  given ++ given.map Text.trim ++ [c.logging.dir, Path.join c.logging.dir name]

/-! ## Texts -/

def summary (c : Config) : String :=
  Logging.linesText [
    "Configuration validation passed",
    "",
    "Configuration summary:",
    "  Listen: " ++ c.host ++ ":" ++ toString c.port,
    "  Status interval: " ++ toString c.relay.statusInterval ++ "s",
    "  Duplicate policy: " ++ c.relay.duplicatePolicy.title,
    "  Max message size: " ++ toString c.relay.maxMessageSize,
    "  Static assets: " ++ c.wwwPath.getD "disabled"]

/-- A cause, behind its number if there are several; its further lines stand below the first. -/
def causeText (number : Option Nat) (cause : String) : String :=
  let (first, next) := match number with
    | some n => (Logging.padLeft 5 (toString n) ++ ": ", "       ")
    | none => ("    ", "    ")
  first ++ ("\n" ++ next).intercalate (cause.splitOn "\n")

/-- An error with what lies behind it. -/
def errorText (message : String) (causes : List String) : String :=
  let listed := match causes with
    | [c] => [causeText none c]
    | cs => cs.zipIdx.map fun (c, n) => causeText (some n) c
  "Error: " ++ message ++ "\n" ++
    (if causes.isEmpty then "" else "\nCaused by:\n" ++ Logging.linesText listed)

/-- What is logged once the relay listens. -/
def listeningRecord (c : Config) (a : Address) : Logging.Record where
  level := .info
  target := "signal_relay"
  message :=
    "Relay listening over TLS - WebSocket: /websocket/\x7bpeer_id\x7d, Metrics: /metrics"
  fields := [("addr", .shown (a.withPort c.port)), ("www_path", .text (c.wwwPath.getD "-"))]

/-! ## Runs -/

/-- A run that ends with an error. -/
def failure (files : Files) (err : String) : Outcome := ⟨.exit 1, "", err, files⟩

/-- A check of settings. -/
def validate (fs : Files) (c : Config) : Outcome :=
  match Config.check fs c with
  | .ok () => ⟨.exit 0, summary c, "", fs⟩
  | .error e => failure fs ("Configuration validation failed:\n" ++ e.message ++ "\n")

/-- Everything up to listening, behind the log. -/
def listen (judge : Tls.Verdict) (log : Logging.Log) (m : Logging.Moment) (fs : Files)
    (c : Config) : Outcome :=
  match Address.parse c.host with
  | none =>
    failure fs (errorText ("invalid listen host '" ++ c.host ++ "'") ["invalid IP address syntax"])
  | some a =>
    match Tls.prepare judge fs c.tls with
    | .error e =>
      failure fs (errorText "failed to initialize TLS configuration" (e.message :: e.cause.toList))
    | .ok _ =>
      let (out, fs) := log.emit m fs [listeningRecord c a]
      ⟨.listening, out, "", fs⟩

/-- A start of the relay. -/
def start (judge : Tls.Verdict) (env : Config.Env) (m : Logging.Moment) (fs : Files) (c : Config) :
    Outcome :=
  match Config.check fs c with
  | .error e => failure fs (errorText e.message [])
  | .ok () =>
    match Logging.start c.logging env m fs with
    | .error e => ⟨.exit 101, "", "Failed to open log file: " ++ e.message ++ "\n", fs⟩
    | .ok started =>
      let o := listen judge started.log m started.files c
      { o with err := Logging.linesText (started.obstacle.map (·.message)).toList ++ o.err }

def run (judge : Tls.Verdict) (args : List String) (s : Config.Sources) (m : Logging.Moment) :
    Outcome :=
  match parse args with
  | .error .help => ⟨.exit 0, helpText, "", s.files⟩
  | .error .version => ⟨.exit 0, versionText, "", s.files⟩
  | .error .misuse => ⟨.exit 2, "", usage, s.files⟩
  | .ok o =>
    let (c, notices) := settings o s
    let r :=
      if o.print then ⟨.exit 0, Json.pretty (Config.toValue c) ++ "\n", "", s.files⟩
      else if o.validate then validate s.files c
      else start judge s.env m s.files c
    { r with err := Logging.linesText (notices.map Config.Notice.message) ++ r.err }

/-- A run with the variables as they stand, in place of those of `s`. -/
def runFrom (judge : Tls.Verdict) (args : List String) (s : Config.Sources) (b : Config.Block)
    (m : Logging.Moment) : Outcome :=
  match parse args, Config.loadFrom s b with
  | .ok _, .crashed notices =>
    ⟨.exit 101, "", Logging.linesText (notices.map Config.Notice.message), s.files⟩
  | _, _ => run judge args { s with env := (b.texts?).getD [] } m

end Switchboard.Command
