import Switchboard.Json.Skip

/-!
# Reading values

Lists and objects are read member by member; the depth of nesting is bounded, the length of a
list is not.  An object whose first member has one particular name (`rawName`) is none: the text
under that name is read as a document in its stead, and nothing may stand beside it.

    document s = ok v → s is a written form of v between blanks
-/

namespace Switchboard.Json

/-- How many brackets may be open at once. -/
def maxDepth : Nat := 127

/-- The name under which a text stands for the document that it is. -/
def rawName : String := "$serde_json::private::RawValue"

/-- In a list or object: its closing bracket came, or another item follows. -/
inductive Turn where
  | close (rest : Bytes)
  | item (rest : Bytes)

/-! ## Algorithm -/

/-- Looks for the next element of a list, `first` telling that none came before. -/
def nextElement (first : Bool) (s : Bytes) : Except Fault Turn :=
  match skipBlank s with
  | [] => .error (.ahead .endInList [])
  | b :: rest =>
    if b = 93 then .ok (.close rest)
    else if first then .ok (.item (b :: rest))
    else if b = 44 then
      match skipBlank rest with
      | [] => .error (.ahead .endInValue [])
      | c :: rest' =>
        if c = 93 then .error (.ahead .trailingComma (c :: rest')) else .ok (.item (c :: rest'))
    else .error (.ahead .listContinuation (b :: rest))

/-- Looks for the next member of an object; an item starts behind the quote of its name. -/
def nextMember (first : Bool) (s : Bytes) : Except Fault Turn :=
  match skipBlank s with
  | [] => .error (.ahead .endInObject [])
  | b :: rest =>
    if b = 125 then .ok (.close rest)
    else if first then
      if b = 34 then .ok (.item rest) else .error (.ahead .nameExpected (b :: rest))
    else if b = 44 then
      match skipBlank rest with
      | [] => .error (.ahead .endInValue [])
      | c :: rest' =>
        if c = 34 then .ok (.item rest')
        else if c = 125 then .error (.ahead .trailingComma (c :: rest'))
        else .error (.ahead .nameExpected (c :: rest'))
    else .error (.ahead .objectContinuation (b :: rest))

/-- The colon between a name and its value. -/
def scanColon (s : Bytes) : Except Fault Bytes :=
  match skipBlank s with
  | [] => .error (.ahead .endInObject [])
  | b :: rest => if b = 58 then .ok rest else .error (.ahead .colonExpected (b :: rest))

/-- Folds `step` over the elements of a list whose bracket is open. -/
def foldElements {σ : Type} (step : σ → Bytes → Scan σ) : Nat → Bool → σ → Bytes → Scan σ
  | 0, _, _, s => .error (.ahead .endInList s)
  | fuel + 1, first, acc, s =>
    match nextElement first s with
    | .error f => .error f
    | .ok (.close rest) => .ok (acc, rest)
    | .ok (.item rest) =>
      match step acc rest with
      | .error f => .error f
      | .ok (acc', rest') => foldElements step fuel false acc' rest'

/-- Folds `step` over the members of an object whose brace is open; `step` takes the name and reads
from behind it, the colon included. -/
def foldMembers {σ : Type} (step : σ → String → Bytes → Scan σ) :
    Nat → Bool → σ → Bytes → Scan σ
  | 0, _, _, s => .error (.ahead .endInObject s)
  | fuel + 1, first, acc, s =>
    match nextMember first s with
    | .error f => .error f
    | .ok (.close rest) => .ok (acc, rest)
    | .ok (.item rest) =>
      match scanString rest with
      | .error f => .error f
      | .ok (name, rest') =>
        match step acc name rest' with
        | .error f => .error f
        | .ok (acc', rest'') => foldMembers step fuel false acc' rest''

/-- A value that is neither a list nor an object, from its first byte. -/
def scanScalar (b : UInt8) (rest : Bytes) : Scan Value :=
  if b = 110 then (scanWord nullTail rest).map fun r => (.null, r)
  else if b = 116 then (scanWord trueTail rest).map fun r => (.bool true, r)
  else if b = 102 then (scanWord falseTail rest).map fun r => (.bool false, r)
  else if b = 45 || isDigit b then
    (scanNumber (b :: rest)).map fun (n, r) => (.number n, r)
  else if b = 34 then (scanString rest).map fun (t, r) => (.string t, r)
  else .error (.ahead .valueExpected (b :: rest))

/-- The fault of a text that goes on with something else than `expected`. -/
def otherwise (expected : String) (s : Bytes) : Fault :=
  match s with
  | [] => .ahead .endInValue []
  | b :: rest =>
    if b = 91 then .here (.wrongType .sequence expected) s
    else if b = 123 then .here (.wrongType .map expected) s
    else
      match scanScalar b rest with
      | .error f => f
      | .ok (v, rest') => .here (.wrongType (.ofValue v) expected) rest'

/-- The brace behind the last member of an object. -/
def scanObjectEnd (s : Bytes) : Except Fault Bytes :=
  match skipBlank s with
  | [] => .error (.ahead .endInObject [])
  | b :: rest =>
    if b = 125 then .ok rest
    else if b = 44 then .error (.ahead .trailingComma (b :: rest))
    else .error (.ahead .trailingCharacters (b :: rest))

/-- What stands behind `rawName`, if that is the first name in an object whose brace is open. -/
def pastRawName? (s : Bytes) : Option Bytes :=
  match nextMember true s with
  | .ok (.item rest) =>
    match scanString rest with
    | .ok (name, rest') => if name = rawName then some rest' else none
    | .error _ => none
  | _ => none

/-- The value that a text stands for, from behind `rawName` to the brace; `inner` reads the text.
A fault of that text keeps the place that it has there. -/
def readRaw (inner : Bytes → Except Problem Value) (s : Bytes) : Scan Value :=
  match scanColon s with
  | .error f => .error f
  | .ok s' =>
    match skipBlank s' with
    | [] => .error (.ahead .endInValue [])
    | b :: rest =>
      if b = 34 then
        match scanString rest with
        | .error f => .error f
        | .ok (t, rest') =>
          match inner (Text.bytes t) with
          | .error p => .error ⟨.refused p.message, none⟩
          | .ok v => (scanObjectEnd rest').map fun r => (v, r)
      else .error (otherwise "raw value" (b :: rest))

/-- A value inside at most `depth` more brackets; `inner` reads the texts that stand for values. -/
def readValue (inner : Bytes → Except Problem Value) : Nat → Bytes → Scan Value
  | depth, s =>
    match skipBlank s with
    | [] => .error (.ahead .endInValue [])
    | b :: rest =>
      if b = 91 || b = 123 then
        match depth with
        | 0 => .error (.ahead .tooDeep (b :: rest))
        | depth + 1 =>
          if b = 91 then
            (foldElements
              (fun acc r => (readValue inner depth r).map fun (v, r') => (v :: acc, r'))
              (rest.length + 1) true [] rest).map fun (vs, r) => (.array vs.reverse, r)
          else
            match pastRawName? rest with
            | some r => readRaw inner r
            | none =>
              (foldMembers
                (fun acc name r =>
                  match scanColon r with
                  | .error f => .error f
                  | .ok r' =>
                    (readValue inner depth r').map fun (v, r'') => (Members.insert acc name v, r''))
                (rest.length + 1) true ([] : Members) rest).map fun (ms, r) => (.object ms, r)
      else scanScalar b rest

/-- Blanks up to the end of the text. -/
def scanEnd (s : Bytes) : Except Fault Unit :=
  match skipBlank s with
  | [] => .ok ()
  | b :: rest => .error (.ahead .trailingCharacters (b :: rest))

/-- Reads the whole text with `read`. -/
def wholly {α : Type} (read : Bytes → Scan α) (s : Bytes) : Except Problem α :=
  match read s with
  | .error f => .error (f.inText s)
  | .ok (a, rest) =>
    match scanEnd rest with
    | .error f => .error (f.inText s)
    | .ok () => .ok a

/-- The value that a text is, where texts stand for values inside each other at most `nested - 1`
times. -/
def documentWithin : Nat → Bytes → Except Problem Value
  | 0, _ => .error ⟨.endInValue, none⟩
  | nested + 1, s => wholly (readValue (documentWithin nested) maxDepth) s

/-- The value that a text is.  A text inside another is shorter than that, so they do not go deeper
than the text is long. -/
def document (s : Bytes) : Except Problem Value := documentWithin (s.length + 1) s

end Switchboard.Json
