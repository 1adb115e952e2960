import Switchboard.Text.Utf8

/-!
# Percent escapes

A percent sign with two hexadecimal digits stands for a byte; any other percent sign for itself.

    unescape ("%41" ++ rest) = 0x41 :: unescape rest
-/

namespace Switchboard.Text

/-! ## Algorithm -/

def hexDigit? (b : UInt8) : Option Nat :=
  if 48 ≤ b && b ≤ 57 then some (b.toNat - 48)
  else if 97 ≤ b && b ≤ 102 then some (b.toNat - 87)
  else if 65 ≤ b && b ≤ 70 then some (b.toNat - 55)
  else none

def unescape : Bytes → Bytes
  | 37 :: a :: b :: rest =>
    match hexDigit? a, hexDigit? b with
    | some x, some y => (16 * x + y).toUInt8 :: unescape rest
    | _, _ => 37 :: unescape (a :: b :: rest)
  | b :: rest => b :: unescape rest
  | [] => []

end Switchboard.Text
