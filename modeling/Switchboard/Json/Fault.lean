import Switchboard.Json.Value
import Switchboard.Text.Quoted
import Switchboard.Text.Utf8

/-!
# What is wrong with a document

A fault is a cause and, while a text is read, the rest of the text at which it was noticed.  Line
and column follow from the length of that rest.

    placeOf text rest = (1 + line feeds before rest, bytes since the last of them)
-/

namespace Switchboard.Json

/-- What stands where something else was expected. -/
inductive Found where
  | null
  | boolean (b : Bool)
  | integer (n : Int)
  | floating (d : Double)
  | text (s : String)
  | sequence
  | map
  deriving DecidableEq, Repr

inductive Cause where
  | endInList | endInObject | endInString | endInValue
  | colonExpected | listContinuation | objectContinuation
  | wordExpected | valueExpected
  | badEscape | badNumber | outOfRange | badText | controlCharacter
  | nameExpected | loneSurrogate | trailingComma | trailingCharacters | surrogateCut | tooDeep
  | wrongType (found : Found) (expected : String)
  | wrongValue (found : Found) (expected : String)
  | wrongLength (count : Nat) (expected : String)
  | missing (field : String)
  | duplicate (field : String)
  | unknownVariant (name : String) (known : List String)
  | refused (reason : String)
  deriving DecidableEq, Repr

/-- A cause and the rest of the text where it was noticed; faults of values have no place. -/
structure Fault where
  cause : Cause
  rest : Option Bytes
  deriving DecidableEq, Repr

/-! ## Algorithm -/

namespace Found

def ofNumber : Number → Found
  | .integer n => .integer n
  | .double d => .floating d

def ofValue : Value → Found
  | .null => .null
  | .bool b => .boolean b
  | .number n => ofNumber n
  | .string s => .text s
  | .array _ => .sequence
  | .object _ => .map

def message : Found → String
  | .null => "null"
  | .boolean b => "boolean `" ++ (if b then "true" else "false") ++ "`"
  | .integer n => "integer `" ++ toString n ++ "`"
  | .floating d => "floating point `" ++ d.text ++ "`"
  | .text s => "string " ++ Text.quoted s
  | .sequence => "sequence"
  | .map => "map"

end Found

/-- Alternatives as a sentence names them. -/
def oneOf : List String → String
  | [a, b] => "`" ++ a ++ "` or `" ++ b ++ "`"
  | names => "one of " ++ ", ".intercalate (names.map fun n => "`" ++ n ++ "`")

namespace Cause

def message : Cause → String
  | endInList => "EOF while parsing a list"
  | endInObject => "EOF while parsing an object"
  | endInString => "EOF while parsing a string"
  | endInValue => "EOF while parsing a value"
  | colonExpected => "expected `:`"
  | listContinuation => "expected `,` or `]`"
  | objectContinuation => "expected `,` or `\x7d`"
  | wordExpected => "expected ident"
  | valueExpected => "expected value"
  | badEscape => "invalid escape"
  | badNumber => "invalid number"
  | outOfRange => "number out of range"
  | badText => "invalid unicode code point"
  | controlCharacter => "control character (\\u0000-\\u001F) found while parsing a string"
  | nameExpected => "key must be a string"
  | loneSurrogate => "lone leading surrogate in hex escape"
  | trailingComma => "trailing comma"
  | trailingCharacters => "trailing characters"
  | surrogateCut => "unexpected end of hex escape"
  | tooDeep => "recursion limit exceeded"
  | wrongType found expected => "invalid type: " ++ found.message ++ ", expected " ++ expected
  | wrongValue found expected => "invalid value: " ++ found.message ++ ", expected " ++ expected
  | wrongLength count expected =>
    "invalid length " ++ toString count ++ ", expected " ++ expected
  | missing field => "missing field `" ++ field ++ "`"
  | duplicate field => "duplicate field `" ++ field ++ "`"
  | unknownVariant name known =>
    "unknown variant `" ++ name ++ "`, expected " ++ oneOf known
  | refused reason => reason

end Cause

/-- Line, from 1, and column, in bytes, behind the part of `text` in front of `rest`. -/
def placeOf (text rest : Bytes) : Nat × Nat :=
  let before := text.take (text.length - rest.length)
  (1 + before.count 10, (before.reverse.takeWhile (· != 10)).length)

namespace Fault

/-- A fault noticed at the byte in front of `rest`. -/
def here (cause : Cause) (rest : Bytes) : Fault := ⟨cause, some rest⟩

/-- A fault noticed at the byte that `rest` starts with, or at the end of the text. -/
def ahead (cause : Cause) (rest : Bytes) : Fault := ⟨cause, some rest.tail⟩

end Fault

/-- A fault as it is reported: a cause and, for texts, line and column. -/
structure Problem where
  cause : Cause
  place : Option (Nat × Nat)
  deriving DecidableEq, Repr

def Fault.inText (text : Bytes) (f : Fault) : Problem := ⟨f.cause, f.rest.map (placeOf text)⟩

def Problem.message (p : Problem) : String :=
  match p.place with
  | none => p.cause.message
  | some (line, column) =>
    p.cause.message ++ " at line " ++ toString line ++ " column " ++ toString column

end Switchboard.Json
