/-!
# UTF-8

Texts as bytes and back.  The strict reading fails on any byte that no text has; the lenient one
puts U+FFFD for each longest piece that begins no character.

    text? (bytes s) = some s
    text? b = some s → bytes s = b
-/

namespace Switchboard

/-- Raw octets. -/
abbrev Bytes := List UInt8

namespace Text

/-! ## Algorithm -/

def bytes (s : String) : Bytes := s.toByteArray.data.toList

/-- The text whose bytes these are, if there is one. -/
def text? (b : Bytes) : Option String := String.fromUTF8? ⟨b.toArray⟩

/-- A character of which some bytes are still to come: their number, the range of the next one,
and the bits read so far. -/
structure Begun where
  left : Nat
  low : UInt8
  high : UInt8
  bits : Nat

/-- What the first byte of a character opens; `none` for a byte that opens nothing. -/
def lead (b : UInt8) : Option Begun :=
  if 0xC2 ≤ b && b ≤ 0xDF then some ⟨1, 0x80, 0xBF, b.toNat - 0xC0⟩
  else if b == 0xE0 then some ⟨2, 0xA0, 0xBF, 0⟩
  else if b == 0xED then some ⟨2, 0x80, 0x9F, 13⟩
  else if 0xE1 ≤ b && b ≤ 0xEF then some ⟨2, 0x80, 0xBF, b.toNat - 0xE0⟩
  else if b == 0xF0 then some ⟨3, 0x90, 0xBF, 0⟩
  else if 0xF1 ≤ b && b ≤ 0xF3 then some ⟨3, 0x80, 0xBF, b.toNat - 0xF0⟩
  else if b == 0xF4 then some ⟨3, 0x80, 0x8F, 4⟩
  else none

def replacement : Char := Char.ofNat 0xFFFD

/-- A byte outside any begun character: the characters it completes, and what it begins. -/
def fresh (b : UInt8) : List Char × Option Begun :=
  if b < 0x80 then ([Char.ofNat b.toNat], none)
  else
    match lead b with
    | some g => ([], some g)
    | none => ([replacement], none)

def feed (g : Begun) (b : UInt8) : List Char × Option Begun :=
  if g.low ≤ b && b ≤ g.high then
    let bits := g.bits * 64 + (b.toNat - 0x80)
    if g.left ≤ 1 then ([Char.ofNat bits], none) else ([], some ⟨g.left - 1, 0x80, 0xBF, bits⟩)
  else
    let (out, begun) := fresh b
    (replacement :: out, begun)

def lenientChars : Option Begun → Bytes → List Char
  | none, [] => []
  | some _, [] => [replacement]
  | none, b :: rest => (fresh b).1 ++ lenientChars (fresh b).2 rest
  | some g, b :: rest => (feed g b).1 ++ lenientChars (feed g b).2 rest

/-- The text of the bytes, with U+FFFD for what is no text. -/
def lenient (b : Bytes) : String := String.ofList (lenientChars none b)

/-- Bytes up to the first that no text goes on with; `whole` of them are read and belong to whole
characters, `part` more to a begun one. -/
def validFrom (whole part : Nat) : Option Begun → Bytes → Nat
  | none, [] => whole
  | some _, [] => whole
  | none, b :: rest =>
    if b < 0x80 then validFrom (whole + 1) 0 none rest
    else
      match lead b with
      | some g => validFrom whole 1 (some g) rest
      | none => whole
  | some g, b :: rest =>
    if g.low ≤ b && b ≤ g.high then
      if g.left ≤ 1 then validFrom (whole + part + 1) 0 none rest
      else validFrom whole (part + 1) (some ⟨g.left - 1, 0x80, 0xBF, 0⟩) rest
    else whole

/-- The length of the longest start of the bytes that is a text. -/
def validLength (b : Bytes) : Nat := validFrom 0 0 none b

/-! ## Lemmas -/

theorem bytes_append (s t : String) : bytes (s ++ t) = bytes s ++ bytes t := by simp [bytes]

theorem text?_bytes (s : String) : text? (bytes s) = some s := by
  simp [text?, bytes, String.fromUTF8?, s.isValidUTF8, String.fromUTF8]

theorem bytes_of_text? {b : Bytes} {s : String} (h : text? b = some s) : bytes s = b := by
  unfold text? String.fromUTF8? at h
  split at h
  · cases h; simp [bytes, String.fromUTF8]
  · simp at h

end Text

end Switchboard
