import Switchboard.Config.Settings
import Switchboard.Json.Decode
import Switchboard.Json.Print

/-!
# Settings as documents

Reading and writing settings as JSON.  Every section may lack any member; a level that is none is
noted and left out, and costs nothing else.

    config.parse (bytes (pretty (toValue c))) = ok ⟨c, []⟩
-/

namespace Switchboard.Config

/-- A level that was left out. -/
inductive LevelNotice where
  | unknown (level : Level.Unknown)
  | noText (v : Json.Value)
  deriving Repr

def LevelNotice.message : LevelNotice → String
  | unknown u => u.message ++ "; using default level"
  | noText v => "Ignoring non-string log level " ++ Json.compact v

/-- Settings as read so far, with what was left out. -/
structure Draft (α : Type) where
  settings : α
  notices : List LevelNotice
  deriving Repr

/-! ## Reading -/

def policies : Json.Choices DuplicatePolicy :=
  [("reject_new", .rejectNew), ("evict_existing", .evictExisting)]

def formats : Json.Choices LogFormat := [("json", .json), ("text", .text)]

def relayRecord : Json.Record RelaySettings where
  title := "RelayConfig"
  fields := [
    .of "status_interval_secs" Json.word64 fun n c => { c with statusInterval := n },
    .of "duplicate_policy" (Json.choice policies) fun p c => { c with duplicatePolicy := p },
    .of "max_message_size" Json.size64 fun n c => { c with maxMessageSize := n },
    .of "outbound_queue_capacity" Json.size64 fun n c => { c with queueCapacity := n },
    .of "ping_interval_secs" Json.word64 fun n c => { c with pingInterval := n },
    .of "ping_timeout_secs" Json.word64 fun n c => { c with pingTimeout := n },
    .of "shutdown_grace_secs" Json.word64 fun n c => { c with shutdownGrace := n }]
  required := false

def relayCodec : Json.Codec RelaySettings := relayRecord.codec {}

/-- The section on logs, its level still a value. -/
structure RawLog where
  settings : LogSettings := {}
  level : Option Json.Value := none

def RawLog.update (f : LogSettings → LogSettings) (r : RawLog) : RawLog :=
  { r with settings := f r.settings }

def logRecord : Json.Record RawLog where
  title := "Raw"
  fields := [
    .of "dir" Json.text fun s => RawLog.update fun c => { c with dir := s },
    .of "filename" Json.text fun s => RawLog.update fun c => { c with filename := s },
    .of "rotation" Json.text fun s => RawLog.update fun c => { c with rotation := s },
    .of "level" (Json.optional Json.anything) fun v r => { r with level := v },
    .of "enable_file_logging" Json.boolean fun b => RawLog.update fun c => { c with toFile := b },
    .of "format" (Json.choice formats) fun f => RawLog.update fun c => { c with format := f }]
  required := false

/-- The level that a value means, or the notice that it means none. -/
def levelOf : Option Json.Value → Except LevelNotice (Option Level)
  | none | some .null => .ok none
  | some (.string s) =>
    match Level.ofText s with
    | .ok l => .ok (some l)
    | .error u => .error (.unknown u)
  | some v => .error (.noText v)

def RawLog.finish (r : RawLog) : Draft LogSettings :=
  match levelOf r.level with
  | .ok l => ⟨{ r.settings with level := l }, []⟩
  | .error n => ⟨r.settings, [n]⟩

def logCodec : Json.Codec (Draft LogSettings) := (logRecord.codec {}).map RawLog.finish

def tlsRecord : Json.Record TlsSettings where
  title := "TlsServerConfig"
  fields := [
    .of "certificate_path" (Json.optional Json.text) fun p c => { c with certificatePath := p },
    .of "private_key_path" (Json.optional Json.text) fun p c => { c with privateKeyPath := p }]
  required := false

def securityRecord : Json.Record TlsSettings where
  title := "SecurityConfig"
  fields := [.of "tls" (tlsRecord.codec {}) fun t _ => t]
  required := false

def assetsRecord : Json.Record (Option String) where
  title := "AssetsConfig"
  fields := [.of "www_path" (Json.optional Json.text) fun p _ => p]
  required := false

def Draft.update (f : Config → Config) (d : Draft Config) : Draft Config :=
  { d with settings := f d.settings }

def record : Json.Record (Draft Config) where
  title := "Config"
  fields := [
    .of "host" Json.text fun s => Draft.update fun c => { c with host := s },
    .of "port" Json.word16 fun n => Draft.update fun c => { c with port := n },
    .of "relay" relayCodec fun r => Draft.update fun c => { c with relay := r },
    .of "logging" logCodec fun l d =>
      ⟨{ d.settings with logging := l.settings }, d.notices ++ l.notices⟩,
    .of "security" (securityRecord.codec {}) fun t => Draft.update fun c => { c with tls := t },
    .of "assets" (assetsRecord.codec none) fun p => Draft.update fun c => { c with wwwPath := p }]
  required := false

/-- Settings as a whole. -/
def codec : Json.Codec (Draft Config) := record.codec ⟨{}, []⟩

/-- A level that stands by itself, as a text. -/
def parseLevel (s : Bytes) : Except Json.Problem Level :=
  match Json.text.read Json.maxDepth s with
  | .error f => .error (f.inText s)
  | .ok (t, rest) =>
    match Level.ofText t with
    | .error u => .error ⟨.refused u.message, none⟩
    | .ok l =>
      match Json.scanEnd rest with
      | .error f => .error (f.inText s)
      | .ok () => .ok l

/-! ## Writing -/

def word (n : UInt64) : Json.Value := .number (.integer n.toNat)

def orNull : Option String → Json.Value
  | some s => .string s
  | none => .null

def policyName : DuplicatePolicy → String
  | .rejectNew => "reject_new"
  | .evictExisting => "evict_existing"

def formatName : LogFormat → String
  | .json => "json"
  | .text => "text"

def relayValue (r : RelaySettings) : Json.Value := .object [
  ("status_interval_secs", word r.statusInterval),
  ("duplicate_policy", .string (policyName r.duplicatePolicy)),
  ("max_message_size", word r.maxMessageSize),
  ("outbound_queue_capacity", word r.queueCapacity),
  ("ping_interval_secs", word r.pingInterval),
  ("ping_timeout_secs", word r.pingTimeout),
  ("shutdown_grace_secs", word r.shutdownGrace)]

def logValue (l : LogSettings) : Json.Value := .object [
  ("dir", .string l.dir),
  ("filename", .string l.filename),
  ("rotation", .string l.rotation),
  ("level", orNull (l.level.map Level.name)),
  ("enable_file_logging", .bool l.toFile),
  ("format", .string (formatName l.format))]

def tlsValue (t : TlsSettings) : Json.Value := .object [
  ("certificate_path", orNull t.certificatePath),
  ("private_key_path", orNull t.privateKeyPath)]

/-- The settings as a value, section by section. -/
def toValue (c : Config) : Json.Value := .object [
  ("host", .string c.host),
  ("port", .number (.integer c.port.toNat)),
  ("relay", relayValue c.relay),
  ("logging", logValue c.logging),
  ("security", .object [("tls", tlsValue c.tls)]),
  ("assets", .object [("www_path", orNull c.wwwPath)])]

end Switchboard.Config
