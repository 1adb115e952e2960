import Switchboard.Json.Scan

/-!
# Passing over a value

A value that nobody asks for is checked for its shape alone: no limit on depth, none on the size
of numbers, surrogates need no partner, and the bytes of strings need not be text.

    skip .value open s = what is left behind a value and the brackets `open`
-/

namespace Switchboard.Json

/-! ## Strings and numbers -/

/-- An escape behind its backslash. -/
def skipEscape : Bytes → Except Fault Bytes
  | [] => .error (.here .endInString [])
  | b :: rest =>
    if b = 117 then
      match scanHexFour rest with
      | .error f => .error f
      | .ok (_, rest') => .ok rest'
    else if (letterEscape b).isSome then .ok rest
    else .error (.here .badEscape rest)

def skipStringAux : Nat → Bytes → Except Fault Bytes
  | 0, s => .error (.here .endInString s)
  | _ + 1, [] => .error (.here .endInString [])
  | fuel + 1, b :: rest =>
    if b = 34 then .ok rest
    else if b = 92 then
      match skipEscape rest with
      | .error f => .error f
      | .ok rest' => skipStringAux fuel rest'
    else if b < 32 then .error (.here .controlCharacter (b :: rest))
    else skipStringAux fuel rest

/-- A string behind its opening quote. -/
def skipString (s : Bytes) : Except Fault Bytes := skipStringAux (s.length + 1) s

def skipExponent (s : Bytes) : Except Fault Bytes :=
  let s := match s with
    | 43 :: r => r
    | 45 :: r => r
    | _ => s
  match s with
  | [] => .error (.here .badNumber [])
  | d :: rest => if isDigit d then .ok (dropDigits rest) else .error (.here .badNumber rest)

def skipFraction (s : Bytes) : Except Fault Bytes :=
  if (takeDigits s).isEmpty then .error (.ahead .badNumber s)
  else
    match dropDigits s with
    | 101 :: r => skipExponent r
    | 69 :: r => skipExponent r
    | after => .ok after

def skipNumberTail : Bytes → Except Fault Bytes
  | 46 :: r => skipFraction r
  | 101 :: r => skipExponent r
  | 69 :: r => skipExponent r
  | s => .ok s

/-- A number behind its sign. -/
def skipUnsigned : Bytes → Except Fault Bytes
  | [] => .error (.here .badNumber [])
  | b :: rest =>
    if b = 48 then
      if (takeDigits rest).isEmpty then skipNumberTail rest else .error (.ahead .badNumber rest)
    else if isDigit b then skipNumberTail (dropDigits rest)
    else .error (.here .badNumber rest)

/-- A value that is neither a list nor an object. -/
def skipScalar (b : UInt8) (rest : Bytes) : Except Fault Bytes :=
  if b = 110 then scanWord nullTail rest
  else if b = 116 then scanWord trueTail rest
  else if b = 102 then scanWord falseTail rest
  else if b = 45 then skipUnsigned rest
  else if isDigit b then skipUnsigned (b :: rest)
  else if b = 34 then skipString rest
  else .error (.ahead .valueExpected (b :: rest))

/-! ## Values -/

inductive Bracket where
  | list
  | object
  deriving DecidableEq, Repr

namespace Bracket

def close : Bracket → UInt8
  | list => 93
  | object => 125

/-- The text ended inside. -/
def unclosed : Bracket → Cause
  | list => .endInList
  | object => .endInObject

/-- Something else stands where a comma or the closing bracket belongs. -/
def continuation : Bracket → Cause
  | list => .listContinuation
  | object => .objectContinuation

end Bracket

/-- What the text goes on with: a value; a member, in an object; or what follows a value. -/
inductive Expect where
  | value
  | member
  | next
  deriving DecidableEq, Repr

/-- What the inside of a bracket is made of. -/
def Bracket.inside : Bracket → Expect
  | list => .value
  | object => .member

/-- The name of a member and its colon. -/
def skipName (s : Bytes) : Except Fault Bytes :=
  match skipBlank s with
  | [] => .error (.ahead .endInObject [])
  | b :: rest =>
    if b = 34 then
      match skipString rest with
      | .error f => .error f
      | .ok rest' =>
        match skipBlank rest' with
        | [] => .error (.ahead .endInObject [])
        | c :: rest'' =>
          if c = 58 then .ok rest'' else .error (.ahead .colonExpected (c :: rest''))
    else .error (.ahead .nameExpected (b :: rest))

/-- Passes what is expected and then everything up to the end of the outermost open bracket. -/
def skipAux : Nat → Expect → List Bracket → Bytes → Except Fault Bytes
  | 0, _, _, s => .error (.ahead .endInValue s)
  | fuel + 1, .value, outer, s =>
    match skipBlank s with
    | [] => .error (.ahead .endInValue [])
    | b :: rest =>
      if b = 91 || b = 123 then
        let bracket := if b = 91 then Bracket.list else .object
        match skipBlank rest with
        | [] => .error (.ahead bracket.unclosed [])
        | c :: rest' =>
          if c = bracket.close then skipAux fuel .next outer rest'
          else skipAux fuel bracket.inside (bracket :: outer) (c :: rest')
      else
        match skipScalar b rest with
        | .error f => .error f
        | .ok rest' => skipAux fuel .next outer rest'
  | fuel + 1, .member, outer, s =>
    match skipName s with
    | .error f => .error f
    | .ok rest => skipAux fuel .value outer rest
  | _ + 1, .next, [], s => .ok s
  | fuel + 1, .next, bracket :: outer, s =>
    match skipBlank s with
    | [] => .error (.ahead bracket.unclosed [])
    | b :: rest =>
      if b = 44 then skipAux fuel bracket.inside (bracket :: outer) rest
      else if b = bracket.close then skipAux fuel .next outer rest
      else .error (.ahead bracket.continuation (b :: rest))

/-- Passes one value. -/
def skipValue (s : Bytes) : Except Fault Bytes := skipAux (s.length + 1) .value [] s

/-! ## Lemmas -/

/-- Where blanks are passed first they may as well be missing. -/
theorem skipAux_congr {e : Expect} {o : List Bracket} {s s' : Bytes} (he : e ≠ .next ∨ o ≠ [])
    (h : skipBlank s = skipBlank s') (fuel : Nat) :
    skipAux (fuel + 1) e o s = skipAux (fuel + 1) e o s' := by
  cases e with
  | value => simp only [skipAux, h]
  | member => simp only [skipAux, skipName, h]
  | next =>
    cases o with
    | nil => simp at he
    | cons k o => simp only [skipAux, h]

end Switchboard.Json
