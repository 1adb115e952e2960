import Switchboard.Config.Settings
import Switchboard.Files

/-!
# Settings that can be served with

Connections are encrypted or there are none, so certificate and key must be there; intervals,
capacities and sizes must not be zero.

    check fs c = ok () → c's certificate and key are files, and no interval of c is zero
-/

namespace Switchboard.Config

/-- The first thing that is wrong with settings. -/
inductive Complaint where
  | unset (field : String)
  | noCertificate (path : String)
  | noKey (path : String)
  | noStatusInterval
  | noQueue
  | noPing
  | noMessageSize
  | noAssets (path : String)
  deriving DecidableEq, Repr

def Complaint.message : Complaint → String
  | unset field => field ++ " must be provided; the relay only serves TLS"
  | noCertificate path => "TLS certificate file not found at " ++ path
  | noKey path => "TLS private key file not found at " ++ path
  | noStatusInterval => "relay.status_interval_secs must be at least 1"
  | noQueue => "relay.outbound_queue_capacity must be at least 1"
  | noPing => "relay.ping_interval_secs and relay.ping_timeout_secs must be at least 1"
  | noMessageSize => "relay.max_message_size must be greater than 0"
  | noAssets path => "assets.www_path '" ++ path ++ "' is not a directory"

/-! ## Algorithm -/

/-- A path that is set and says something, without the blanks around it. -/
def requiredPath (value : Option String) : Option String :=
  (value.map Text.trim).filter (· ≠ "")

def checkFile (fs : Files) (field : String) (value : Option String)
    (absent : String → Complaint) : Except Complaint Unit :=
  match requiredPath value with
  | none => .error (.unset field)
  | some path => if fs.isFile path then .ok () else .error (absent path)

def checkRelay (r : RelaySettings) : Except Complaint Unit :=
  if r.statusInterval = 0 then .error .noStatusInterval
  else if r.queueCapacity = 0 then .error .noQueue
  else if r.pingInterval = 0 || r.pingTimeout = 0 then .error .noPing
  else if r.maxMessageSize = 0 then .error .noMessageSize
  else .ok ()

def checkAssets (fs : Files) : Option String → Except Complaint Unit
  | none => .ok ()
  | some path => if fs.isDir path then .ok () else .error (.noAssets path)

/-- Looks at everything in order and stops at the first complaint. -/
def check (fs : Files) (c : Config) : Except Complaint Unit := do
  checkFile fs "security.tls.certificate_path" c.tls.certificatePath .noCertificate
  checkFile fs "security.tls.private_key_path" c.tls.privateKeyPath .noKey
  checkRelay c.relay
  checkAssets fs c.wwwPath

end Switchboard.Config
