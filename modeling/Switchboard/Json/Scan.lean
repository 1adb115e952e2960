import Switchboard.Bounds
import Switchboard.Json.Fault
import Switchboard.Text.Percent

/-!
# Tokens of a document

Each scanner takes the text from its first byte and gives what it read with the rest.  Blanks are
passed by `skipBlank` alone, so a scanner that needs none passes none.

    scanWord w (w ++ rest) = ok rest
    scanString s = ok (t, rest) → s is t escaped, a quote, and rest
-/

namespace Switchboard.Json

/-- What was read, and the rest. -/
abbrev Scan (α : Type) := Except Fault (α × Bytes)

/-! ## Blanks and words -/

def isBlank (b : UInt8) : Bool := b == 32 || b == 10 || b == 9 || b == 13

def skipBlank (s : Bytes) : Bytes := s.dropWhile isBlank

/-- Reads the given bytes and nothing else. -/
def scanWord : Bytes → Bytes → Except Fault Bytes
  | [], s => .ok s
  | _ :: _, [] => .error (.here .endInValue [])
  | w :: ws, b :: rest => if b = w then scanWord ws rest else .error (.here .wordExpected rest)

/-- The bytes of `ull`, `rue` and `alse`, behind the letter that tells them apart. -/
def nullTail : Bytes := [117, 108, 108]

def trueTail : Bytes := [114, 117, 101]

def falseTail : Bytes := [97, 108, 115, 101]

/-! ## Numbers -/

def isDigit (b : UInt8) : Bool := 48 ≤ b && b ≤ 57

def digitValue (b : UInt8) : Nat := b.toNat - 48

def takeDigits (s : Bytes) : Bytes := s.takeWhile isDigit

def dropDigits (s : Bytes) : Bytes := s.dropWhile isDigit

/-- Appends digits to a numeral as long as it stays below `bound`; the digits left over. -/
def absorb (bound : Nat) : Nat → Bytes → Nat × Bytes
  | n, [] => (n, [])
  | n, d :: ds =>
    if n * 10 + digitValue d < bound then absorb bound (n * 10 + digitValue d) ds
    else (n, d :: ds)

/-- Exponents beyond it are as good as infinite. -/
def exponentBound : Nat := 2147483648

def powerOfTen (k : Nat) : Double := (Double.ofNat? (Nat.pow 10 k)).getD (.zero false)

/-- Divides by `10 ^ 308` until the exponent is one of a double. -/
def scaleDown : Nat → Double → Int → Option Double
  | 0, f, _ => some { f with mantissa := 0, exponent := Double.leastExponent }
  | fuel + 1, f, e =>
    if e.natAbs ≤ 308 then
      if 0 ≤ e then f.mul? (powerOfTen e.natAbs) else f.div? (powerOfTen e.natAbs)
    else if f.isZero then some f
    else if 0 ≤ e then none
    else (f.div? (powerOfTen 308)).bind fun f => scaleDown fuel f (e + 308)

/-- The double `± n · 10 ^ e`, computed with one rounding for `n` and one for each scaling. -/
def doubleOf (negative : Bool) (n : Nat) (e : Int) (rest : Bytes) : Scan Number :=
  match (Double.ofNat? n).bind fun f => scaleDown 4 f e with
  | some f => .ok (.double { f with negative := negative }, rest)
  | none => .error (.here .outOfRange rest)

/-- The exponent behind its letter, for the digits `n` scaled by `10 ^ start`. -/
def scanExponent (negative : Bool) (n : Nat) (start : Int) (s : Bytes) : Scan Number :=
  let (down, s) := match s with
    | 43 :: r => (false, r)
    | 45 :: r => (true, r)
    | _ => (false, s)
  match s with
  | [] => .error (.here .endInValue [])
  | d :: rest =>
    if isDigit d then
      let (e, left) := absorb exponentBound 0 (takeDigits (d :: rest))
      let after := dropDigits rest
      if left.isEmpty then doubleOf negative n (if down then start - e else start + e) after
      else if n ≠ 0 && !down then .error (.here .outOfRange (left.tail ++ after))
      else .ok (.double (.zero negative), after)
    else .error (.here .badNumber rest)

/-- The fraction behind its point; digits that do not fit the numeral are dropped. -/
def scanFraction (negative : Bool) (n : Nat) (start : Int) (s : Bytes) : Scan Number :=
  let ds := takeDigits s
  let after := dropDigits s
  if ds.isEmpty then
    .error (.ahead (if after.isEmpty then .endInValue else .badNumber) after)
  else
    let (m, left) := absorb Bounds.word64 n ds
    let e : Int := start - (ds.length - left.length : Nat)
    match after with
    | 101 :: r => scanExponent negative m e r
    | 69 :: r => scanExponent negative m e r
    | _ => doubleOf negative m e after

/-- The numeral of an integer: a double if it is minus zero or below the least integer. -/
def integerOf (negative : Bool) (n : Nat) : Number :=
  if !negative then .integer n
  else if n = 0 || Bounds.half64 < n then
    .double (((Double.ofNat? n).getD (.zero false)).neg)
  else .integer (-n)

/-- What follows the digits of the integer part, `left` of which did not fit. -/
def scanTail (negative : Bool) (n left : Nat) (s : Bytes) : Scan Number :=
  match s with
  | 46 :: r => scanFraction negative n left r
  | 101 :: r => scanExponent negative n left r
  | 69 :: r => scanExponent negative n left r
  | _ => if left = 0 then .ok (integerOf negative n, s) else doubleOf negative n left s

/-- A number behind its sign. -/
def scanUnsigned (negative : Bool) : Bytes → Scan Number
  | [] => .error (.here .endInValue [])
  | b :: rest =>
    if b = 48 then
      if (takeDigits rest).isEmpty then scanTail negative 0 0 rest
      else .error (.ahead .badNumber rest)
    else if isDigit b then
      let (n, left) := absorb Bounds.word64 0 (takeDigits (b :: rest))
      scanTail negative n left.length (dropDigits rest)
    else .error (.here .badNumber rest)

/-- A number, with its sign. -/
def scanNumber : Bytes → Scan Number
  | 45 :: rest => scanUnsigned true rest
  | s => scanUnsigned false s

/-! ## Strings -/

/-- The value of four hexadecimal digits. -/
def hexFour (a b c d : UInt8) : Option Nat :=
  match Text.hexDigit? a, Text.hexDigit? b, Text.hexDigit? c, Text.hexDigit? d with
  | some w, some x, some y, some z => some (((w * 16 + x) * 16 + y) * 16 + z)
  | _, _, _, _ => none

def scanHexFour : Bytes → Scan Nat
  | a :: b :: c :: d :: rest =>
    match hexFour a b c d with
    | some n => .ok (n, rest)
    | none => .error (.here .badEscape rest)
  | _ => .error (.here .endInString [])

def isHighSurrogate (n : Nat) : Bool := 0xD800 ≤ n && n ≤ 0xDBFF

def isLowSurrogate (n : Nat) : Bool := 0xDC00 ≤ n && n ≤ 0xDFFF

/-- The second half of a character beyond the first plane. -/
def scanLowHalf (high : Nat) : Bytes → Scan Char
  | [] => .error (.here .endInString [])
  | b :: s =>
    if b ≠ 92 then .error (.here .surrogateCut s)
    else
      match s with
      | [] => .error (.here .endInString [])
      | u :: s' =>
        if u ≠ 117 then .error (.here .surrogateCut s')
        else
          match scanHexFour s' with
          | .error f => .error f
          | .ok (low, rest) =>
            if isLowSurrogate low then
              .ok (Char.ofNat ((high - 0xD800) * 0x400 + (low - 0xDC00) + 0x10000), rest)
            else .error (.here .loneSurrogate rest)

/-- A character given by its number, behind `\u`. -/
def scanPoint (s : Bytes) : Scan Char :=
  match scanHexFour s with
  | .error f => .error f
  | .ok (n, rest) =>
    if isLowSurrogate n then .error (.here .loneSurrogate rest)
    else if isHighSurrogate n then scanLowHalf n rest
    else .ok (Char.ofNat n, rest)

/-- The character that a one-letter escape stands for. -/
def letterEscape (b : UInt8) : Option Char :=
  if b = 34 then some '"'
  else if b = 92 then some '\\'
  else if b = 47 then some '/'
  else if b = 98 then some '\x08'
  else if b = 102 then some '\x0c'
  else if b = 110 then some '\n'
  else if b = 114 then some '\r'
  else if b = 116 then some '\t'
  else none

/-- An escape behind its backslash. -/
def scanEscape : Bytes → Scan Char
  | [] => .error (.here .endInString [])
  | b :: rest =>
    if b = 117 then scanPoint rest
    else
      match letterEscape b with
      | some c => .ok (c, rest)
      | none => .error (.here .badEscape rest)

/-- Stands for itself in a string. -/
def isPlain (b : UInt8) : Bool := b ≠ 34 && b ≠ 92 && 32 ≤ b

/-- A string piece by piece, `done` being read already; a piece must be a text. -/
def stringPieces : Nat → String → Bytes → Scan String
  | 0, _, s => .error (.here .endInString s)
  | fuel + 1, done, s =>
    let piece := s.takeWhile isPlain
    match s.dropWhile isPlain with
    | [] => .error (.here .endInString [])
    | b :: rest =>
      if b < 32 then .error (.here .controlCharacter rest)
      else
        match Text.text? piece with
        | none => .error (.here .badText (s.drop (Text.validLength piece + 1)))
        | some t =>
          if b = 34 then .ok (done ++ t, rest)
          else
            match scanEscape rest with
            | .error f => .error f
            | .ok (c, rest') => stringPieces fuel ((done ++ t).push c) rest'

/-- A string behind its opening quote. -/
def scanString (s : Bytes) : Scan String := stringPieces (s.length + 1) "" s

/-! ## Lemmas -/

theorem scanWord_append (w rest : Bytes) : scanWord w (w ++ rest) = .ok rest := by
  induction w with
  | nil => cases rest <;> rfl
  | cons b w ih => simp [scanWord, ih]

theorem takeDigits_append_dropDigits (s : Bytes) : takeDigits s ++ dropDigits s = s :=
  List.takeWhile_append_dropWhile

end Switchboard.Json
