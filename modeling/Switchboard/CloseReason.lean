import Switchboard.Envelope

/-!
# Why connections end

Each end has a short label and a wording; ends that the relay brings about are told to the client
in a close frame that carries the label.

    r.closeFrame = none ↔ the client left or cannot be reached
-/

namespace Switchboard

/-- An identifier that somebody else is connected under. -/
structure Taken where
  peer : PeerId
  deriving DecidableEq, Repr

def Taken.message (t : Taken) : String := "peer " ++ toString t.peer ++ " is already connected"

inductive CloseReason where
  | clientClosed
  | disconnected
  | transport (detail : String)
  | violation (v : Violation)
  | rejected (t : Taken)
  | superseded
  | outboundFailed
  | timeout
  deriving DecidableEq, Repr

namespace CloseReason

/-! ## Algorithm -/

def label : CloseReason → String
  | clientClosed => "client_closed"
  | disconnected => "disconnected"
  | transport _ => "transport_error"
  | violation v => v.kind
  | rejected _ => "duplicate_peer"
  | superseded => "superseded"
  | outboundFailed => "outbound_failed"
  | timeout => "keepalive_timeout"

def isViolation : CloseReason → Bool
  | violation _ => true
  | _ => false

/-- Codes of close frames: a broken protocol, a broken policy, a failure on this side. -/
def protocolCode : UInt16 := 1002

def policyCode : UInt16 := 1008

def failureCode : UInt16 := 1011

def code : CloseReason → Option UInt16
  | clientClosed | disconnected | transport _ => none
  | violation (.identityMismatch ..) => some policyCode
  | violation _ => some protocolCode
  | rejected _ | superseded => some policyCode
  | outboundFailed | timeout => some failureCode

/-- The frame that tells the client, if it can be told. -/
def closeFrame (r : CloseReason) : Option CloseFrame := r.code.map fun c => ⟨c, r.label⟩

def message : CloseReason → String
  | transport detail => "transport error: " ++ detail
  | violation v => "protocol violation: " ++ v.message
  | rejected t => "rejected: " ++ t.message
  | r => r.label

/-! ## Lemmas -/

theorem closeFrame_reason {r : CloseReason} {f : CloseFrame} (h : r.closeFrame = some f) :
    f.reason = r.label := by
  simp only [closeFrame, Option.map_eq_some_iff] at h
  obtain ⟨c, _, rfl⟩ := h
  rfl

end CloseReason

end Switchboard
