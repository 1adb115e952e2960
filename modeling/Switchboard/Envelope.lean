import Switchboard.Frame
import Switchboard.Json.Decode

/-!
# Envelopes

The header of a data frame: who sends it, and to whom.  What the frame says beyond that is passed
over unread.

    ofFrame (.text s) = ofFrame (.binary (bytes s))
    e.verify bound = ok () ↔ e.sender = bound
-/

namespace Switchboard

structure Envelope where
  sender : PeerId
  recipient : PeerId
  deriving DecidableEq, Repr

/-- The kinds of frame that never carry an envelope. -/
inductive ControlKind where
  | ping
  | pong
  | close
  deriving DecidableEq, Repr

/-- What a client must not send. -/
inductive Violation where
  | malformed (problem : Json.Problem)
  | identityMismatch (bound claimed : PeerId)
  | unsupportedFrame (kind : ControlKind)
  deriving DecidableEq, Repr

def ControlKind.name : ControlKind → String
  | ping => "ping"
  | pong => "pong"
  | close => "close"

namespace Violation

/-- The short name under which a violation is counted and reported. -/
def kind : Violation → String
  | malformed _ => "decode"
  | identityMismatch .. => "identity_mismatch"
  | unsupportedFrame _ => "unsupported_frame"

def message : Violation → String
  | malformed p => "malformed routing envelope: " ++ p.message
  | identityMismatch bound claimed =>
    "envelope claims sender " ++ toString claimed ++ " but the connection is bound to " ++
      toString bound
  | unsupportedFrame k => "unsupported " ++ k.name ++ " frame"

end Violation

namespace Envelope

/-! ## Algorithm -/

/-- The part of the envelope that only has to be there. -/
def payloadField : Json.Field Envelope where
  name := "message"
  read _ e s := (Json.skipValue s).map fun rest => (e, rest)
  ofValue e _ := .ok e

def record : Json.Record Envelope where
  title := "RoutingEnvelope"
  fields := [
    .of "userId" Json.signed64 fun id e => { e with sender := id },
    .of "toUserId" Json.signed64 fun id e => { e with recipient := id },
    payloadField]
  required := true

def codec : Json.Codec Envelope := record.codec ⟨0, 0⟩

def ofBytes (b : Bytes) : Except Violation Envelope :=
  match codec.parse b with
  | .ok e => .ok e
  | .error p => .error (.malformed p)

/-- The envelope of a data frame. -/
def ofFrame : Frame → Except Violation Envelope
  | .text s => ofBytes (Text.bytes s)
  | .binary b => ofBytes b
  | .ping _ => .error (.unsupportedFrame .ping)
  | .pong _ => .error (.unsupportedFrame .pong)
  | .close _ => .error (.unsupportedFrame .close)

/-- A peer sends in its own name only. -/
def verify (e : Envelope) (bound : PeerId) : Except Violation Unit :=
  if e.sender = bound then .ok () else .error (.identityMismatch bound e.sender)

/-! ## Lemmas -/

theorem ofFrame_text_eq_binary (s : String) :
    ofFrame (.text s) = ofFrame (.binary (Text.bytes s)) := rfl

theorem verify_eq_ok_iff (e : Envelope) (bound : PeerId) :
    e.verify bound = .ok () ↔ e.sender = bound := by
  unfold verify
  split <;> simp_all

end Envelope

end Switchboard
