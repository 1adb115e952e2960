import Switchboard.Text.Utf8

/-!
# Base64

Six bits a character, taken eight characters at a time.  Blanks count for nothing, the padding of
the last block may be left out, and bits beyond the last whole octet are dropped.

    decode (encode b) = ok b
-/

namespace Switchboard.Base64

/-- What is wrong with a text. -/
inductive Error where
  | character (b : UInt8)
  | paddingInside
  | paddingAtEnd
  deriving DecidableEq, Repr

def Error.message : Error → String
  | character b => "InvalidCharacter(" ++ toString b.toNat ++ ")"
  | paddingInside => "PrematurePadding"
  | paddingAtEnd => "InvalidTrailingPadding"

/-! ## Algorithm -/

def isBlank (b : UInt8) : Bool := (9 ≤ b && b ≤ 13) || b == 32

def pad : UInt8 := 61

def sextet? (b : UInt8) : Option Nat :=
  if 65 ≤ b && b ≤ 90 then some (b.toNat - 65)
  else if 97 ≤ b && b ≤ 122 then some (b.toNat - 71)
  else if 48 ≤ b && b ≤ 57 then some (b.toNat + 4)
  else if b == 43 then some 62
  else if b == 47 then some 63
  else none

/-- Octets of sextets; what is left of the last one is dropped. -/
def octets : List Nat → Bytes
  | a :: b :: c :: d :: rest =>
    (a * 4 + b / 16).toUInt8 :: (b % 16 * 16 + c / 4).toUInt8 :: (c % 4 * 64 + d).toUInt8 ::
      octets rest
  | [a, b, c] => [(a * 4 + b / 16).toUInt8, (b % 16 * 16 + c / 4).toUInt8]
  | [a, b] => [(a * 4 + b / 16).toUInt8]
  | _ => []

/-- The values of a block in front of its padding. -/
def dataOf (block : List (Option Nat)) : List Nat := (block.takeWhile (·.isSome)).filterMap id

def isPad (item : Option Nat) : Bool := item.isNone

/-- The last block: padding only at its end, and of the length that fits. -/
def finish (block : List (Option Nat)) : Except Error Bytes :=
  let data := dataOf block
  let pads := block.length - data.length
  if (block.drop data.length).any (·.isSome) then .error .paddingInside
  else if pads = 0 then
    if data.length % 4 = 1 then .error .paddingAtEnd else .ok (octets data)
  else if pads ≤ 2 && block.length % 4 = 0 then .ok (octets data)
  else .error .paddingAtEnd

/-- Decodes block by block; `block` is what came of the current one. -/
def decodeFrom (block : List (Option Nat)) : Bytes → Except Error Bytes
  | [] => finish block
  | b :: rest =>
    if isBlank b then decodeFrom block rest
    else
      let item := sextet? b
      if item.isNone && b ≠ pad then .error (.character b)
      else if block.length < 8 then decodeFrom (block ++ [item]) rest
      else if block.any isPad then .error .paddingInside
      else (decodeFrom [item] rest).map (octets (dataOf block) ++ ·)

def decode (text : Bytes) : Except Error Bytes := decodeFrom [] text

/-! ## Writing -/

def letter (n : Nat) : UInt8 :=
  if n < 26 then (n + 65).toUInt8
  else if n < 52 then (n + 71).toUInt8
  else if n < 62 then (n - 4).toUInt8
  else if n = 62 then 43
  else 47

/-- The text of octets, padded. -/
def encode : Bytes → Bytes
  | a :: b :: c :: rest =>
    letter (a.toNat / 4) :: letter (a.toNat % 4 * 16 + b.toNat / 16) ::
      letter (b.toNat % 16 * 4 + c.toNat / 64) :: letter (c.toNat % 64) :: encode rest
  | [a, b] =>
    [letter (a.toNat / 4), letter (a.toNat % 4 * 16 + b.toNat / 16), letter (b.toNat % 16 * 4),
      pad]
  | [a] => [letter (a.toNat / 4), letter (a.toNat % 4 * 16), pad, pad]
  | [] => []

/-! ## Lemmas -/

theorem sextet?_letter (n : Nat) (h : n < 64) : sextet? (letter n) = some n := by
  revert n
  decide +kernel

end Switchboard.Base64
