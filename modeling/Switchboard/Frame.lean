import Switchboard.Text.Utf8

/-!
# Frames

What travels on a connection, whole: data as text or octets, probes and their answers, and the
frame that ends the conversation.

    wireSize f = header bytes + payload bytes
-/

namespace Switchboard

/-- Peers are named by integers, 64-bit ones as far as clients can say. -/
abbrev PeerId := Int

/-- Why a conversation ends: a code and a text. -/
structure CloseFrame where
  code : UInt16
  reason : String
  deriving DecidableEq, Repr

inductive Frame where
  | text (s : String)
  | binary (b : Bytes)
  | ping (b : Bytes)
  | pong (b : Bytes)
  | close (c : Option CloseFrame)
  deriving DecidableEq, Repr

namespace Frame

/-! ## Algorithm -/

/-- Data frames are routed; the others concern one connection alone. -/
def isData : Frame → Bool
  | text _ | binary _ => true
  | _ => false

def isControl (f : Frame) : Bool := !f.isData

def payloadSize : Frame → Nat
  | text s => s.utf8ByteSize
  | binary b | ping b | pong b => b.length
  | close none => 0
  | close (some c) => 2 + c.reason.utf8ByteSize

/-- Bytes in front of the payload: its length takes none, two or eight of them beyond two. -/
def headerSize (payload : Nat) : Nat :=
  if payload < 126 then 2 else if payload < 65536 then 4 else 10

def wireSize (f : Frame) : Nat := headerSize f.payloadSize + f.payloadSize

end Frame

end Switchboard
