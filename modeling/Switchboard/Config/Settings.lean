import Switchboard.Config.Level

/-!
# Settings

What an operator decides, section by section, with the values that hold where nothing is said.

    ({} : Config) = the settings without any source
-/

namespace Switchboard

/-- What happens when a peer connects under an identifier that is taken. -/
inductive DuplicatePolicy where
  | rejectNew
  | evictExisting
  deriving DecidableEq, Repr

def DuplicatePolicy.title : DuplicatePolicy → String
  | rejectNew => "RejectNew"
  | evictExisting => "EvictExisting"

inductive LogFormat where
  | json
  | text
  deriving DecidableEq, Repr

/-- Durations are whole seconds, sizes bytes or frames. -/
structure RelaySettings where
  statusInterval : UInt64 := 2
  duplicatePolicy : DuplicatePolicy := .rejectNew
  maxMessageSize : UInt64 := 65536
  queueCapacity : UInt64 := 64
  pingInterval : UInt64 := 20
  pingTimeout : UInt64 := 20
  shutdownGrace : UInt64 := 5
  deriving DecidableEq, Repr

structure LogSettings where
  dir : String := "logs"
  filename : String := "signal-relay.log"
  rotation : String := "daily"
  level : Option Level := none
  toFile : Bool := true
  format : LogFormat := .json
  deriving DecidableEq, Repr

structure TlsSettings where
  certificatePath : Option String := none
  privateKeyPath : Option String := none
  deriving DecidableEq, Repr

structure Config where
  host : String := "0.0.0.0"
  port : UInt16 := 8443
  relay : RelaySettings := {}
  logging : LogSettings := {}
  tls : TlsSettings := {}
  wwwPath : Option String := none
  deriving DecidableEq, Repr

end Switchboard
