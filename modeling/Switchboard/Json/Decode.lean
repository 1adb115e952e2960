import Switchboard.Json.Read

/-!
# Typed readings

A codec reads one kind of thing, from a text or from a value at hand.  A record is read field by
field, from an object by name or from a list by place, into a state that each field updates.

    record fields: unknown names are skipped, a name twice is a fault,
    and each required name must come once
-/

namespace Switchboard.Json

/-- A way to read an `α`; the first argument of `read` is the depth left for brackets. -/
structure Codec (α : Type) where
  read : Nat → Bytes → Scan α
  ofValue : Value → Except Cause α

/-! ## Scalars -/

/-- An integer within bounds. -/
def intOf (expected : String) (low high : Int) : Number → Except Cause Int
  | .integer n =>
    if low ≤ n && n ≤ high then .ok n else .error (.wrongValue (.integer n) expected)
  | .double d => .error (.wrongType (.floating d) expected)

/-- Integers from `low` to `high`, called `expected` in faults. -/
def integer (expected : String) (low high : Int) : Codec Int where
  read _ s :=
    match skipBlank s with
    | b :: rest =>
      if b = 45 || isDigit b then
        match scanNumber (b :: rest) with
        | .error f => .error f
        | .ok (n, rest') =>
          match intOf expected low high n with
          | .ok i => .ok (i, rest')
          | .error c => .error (.here c rest')
      else .error (otherwise expected (b :: rest))
    | [] => .error (.ahead .endInValue [])
  ofValue
    | .number n => intOf expected low high n
    | v => .error (.wrongType (.ofValue v) expected)

def Codec.map {α β : Type} (f : α → β) (c : Codec α) : Codec β where
  read depth s := (c.read depth s).map fun (a, r) => (f a, r)
  ofValue v := (c.ofValue v).map f

def word16 : Codec UInt16 := (integer "u16" 0 (Bounds.word16 - 1)).map fun i => i.toNat.toUInt16

def word64 : Codec UInt64 := (integer "u64" 0 (Bounds.word64 - 1)).map fun i => i.toNat.toUInt64

/-- A count of things held in memory. -/
def size64 : Codec UInt64 := (integer "usize" 0 (Bounds.word64 - 1)).map fun i => i.toNat.toUInt64

def signed64 : Codec Int := integer "i64" (-Bounds.half64) (Bounds.half64 - 1)

def text : Codec String where
  read _ s :=
    match skipBlank s with
    | b :: rest =>
      if b = 34 then scanString rest else .error (otherwise "a string" (b :: rest))
    | [] => .error (.ahead .endInValue [])
  ofValue
    | .string t => .ok t
    | v => .error (.wrongType (.ofValue v) "a string")

def boolean : Codec Bool where
  read _ s :=
    match skipBlank s with
    | b :: rest =>
      if b = 116 then (scanWord trueTail rest).map fun r => (true, r)
      else if b = 102 then (scanWord falseTail rest).map fun r => (false, r)
      else .error (otherwise "a boolean" (b :: rest))
    | [] => .error (.ahead .endInValue [])
  ofValue
    | .bool b => .ok b
    | v => .error (.wrongType (.ofValue v) "a boolean")

/-- The value of the first member, if `rawName` is its name. -/
def rawMember? : Members → Option Value
  | (name, v) :: _ => if name = rawName then some v else none
  | [] => none

/-- What an object of `count` members stands for that has `v` under `rawName`. -/
def standsFor (v : Value) (count : Nat) : Except Cause Value :=
  match v with
  | .string t =>
    match document (Text.bytes t) with
    | .error p => .error (.refused p.message)
    | .ok w =>
      if count = 1 then .ok w else .error (.wrongLength count "fewer elements in map")
  | v => .error (.wrongType (.ofValue v) "raw value")

mutual

/-- A value read over again, as its text would be. -/
def reread : Value → Except Cause Value
  | .array vs => (rereadItems vs).map .array
  | .object ms =>
    match rawMember? ms with
    | some v => standsFor v ms.length
    | none => (rereadMembers ms).map .object
  | v => .ok v

def rereadItems : List Value → Except Cause (List Value)
  | [] => .ok []
  | v :: vs =>
    match reread v with
    | .error c => .error c
    | .ok w => (rereadItems vs).map fun ws => w :: ws

def rereadMembers : List (String × Value) → Except Cause Members
  | [] => .ok []
  | (name, v) :: ms =>
    match reread v with
    | .error c => .error c
    | .ok w => (rereadMembers ms).map fun ms' => (name, w) :: ms'

end

/-- Any value. -/
def anything : Codec Value where
  read depth s := readValue document depth s
  ofValue := reread

/-- A value or nothing, which is written `null`. -/
def optional {α : Type} (c : Codec α) : Codec (Option α) where
  read depth s :=
    match skipBlank s with
    | b :: rest =>
      if b = 110 then (scanWord nullTail rest).map fun r => (none, r)
      else (c.read depth (b :: rest)).map fun (a, r) => (some a, r)
    | [] => .error (.ahead .endInValue [])
  ofValue
    | .null => .ok none
    | v => (c.ofValue v).map some

/-! ## Choices -/

/-- The alternatives of a choice by name. -/
abbrev Choices (α : Type) := List (String × α)

def Choices.find {α : Type} (choices : Choices α) (name : String) : Except Cause α :=
  match choices.find? (·.1 == name) with
  | some (_, a) => .ok a
  | none => .error (.unknownVariant name (choices.map (·.1)))

/-- The name of a choice, behind the blanks in front of it. -/
def readChoiceName {α : Type} (choices : Choices α) (s : Bytes) : Scan α :=
  match skipBlank s with
  | [] => .error (.ahead .endInValue [])
  | b :: rest =>
    if b = 34 then
      match scanString rest with
      | .error f => .error f
      | .ok (name, rest') =>
        match choices.find name with
        | .ok a => .ok (a, rest')
        | .error c => .error (.here c rest')
    else .error (otherwise "variant identifier" (b :: rest))

/-- The `null` that may stand behind the name of a choice. -/
def readUnit (s : Bytes) : Scan Unit :=
  match skipBlank s with
  | [] => .error (.ahead .endInValue [])
  | b :: rest =>
    if b = 110 then (scanWord nullTail rest).map fun r => ((), r)
    else .error (otherwise "unit" (b :: rest))

/-- One of several names, written as a string or as an object of that name and `null`. -/
def choice {α : Type} (choices : Choices α) : Codec α where
  read depth s :=
    match skipBlank s with
    | [] => .error (.ahead .endInValue [])
    | b :: rest =>
      if b = 123 then
        if depth = 0 then .error (.ahead .tooDeep (b :: rest))
        else
          match readChoiceName choices rest with
          | .error f => .error f
          | .ok (a, rest) =>
            match scanColon rest with
            | .error f => .error f
            | .ok rest =>
              match readUnit rest with
              | .error f => .error f
              | .ok (_, rest) =>
                match skipBlank rest with
                | [] => .error (.here .endInObject [])
                | c :: rest' =>
                  if c = 125 then .ok (a, rest') else .error (.here .valueExpected (c :: rest'))
      else if b = 34 then readChoiceName choices (b :: rest)
      else .error (.ahead .valueExpected (b :: rest))
  ofValue
    | .string name => choices.find name
    | .object [(name, v)] =>
      match choices.find name with
      | .error c => .error c
      | .ok a =>
        match v with
        | .null => .ok a
        | w => .error (.wrongType (.ofValue w) "unit")
    | .object _ => .error (.wrongValue .map "map with a single key")
    | v => .error (.wrongType (.ofValue v) "string or map")

/-! ## Records -/

/-- A named part of a record, read into the state `σ` of the record as read so far. -/
structure Field (σ : Type) where
  name : String
  read : Nat → σ → Bytes → Scan σ
  ofValue : σ → Value → Except Cause σ

/-- The field read by `c` and stored by `set`. -/
def Field.of {σ α : Type} (name : String) (c : Codec α) (set : α → σ → σ) : Field σ where
  name := name
  read depth acc s := (c.read depth s).map fun (a, r) => (set a acc, r)
  ofValue acc v := (c.ofValue v).map fun a => set a acc

/-- A record by its fields in order; if they are required, none may be missing. -/
structure Record (σ : Type) where
  title : String
  fields : List (Field σ)
  required : Bool

/-- A record as read so far, with the names that came. -/
structure Filled (σ : Type) where
  seen : List String
  state : σ

namespace Record

variable {σ : Type}

def expecting (r : Record σ) : String := "struct " ++ r.title

/-- The first required field whose name did not come. -/
def absent (r : Record σ) (seen : List String) : Option String :=
  if r.required then (r.fields.find? fun f => !seen.contains f.name).map (·.name) else none

def tooShort (r : Record σ) (count : Nat) : Cause :=
  .wrongLength count
    (r.expecting ++ " with " ++ toString r.fields.length ++ " elements")

/-- The rest behind the brace, if the object ends here. -/
def pastBrace (s : Bytes) : Bytes :=
  match skipBlank s with
  | 125 :: rest => rest
  | rest => rest

/-- Takes one member, from behind its name. -/
def readMember (r : Record σ) (depth : Nat) (acc : Filled σ) (name : String) (s : Bytes) :
    Scan (Filled σ) :=
  match r.fields.find? (·.name == name) with
  | some f =>
    if acc.seen.contains name then .error (.here (.duplicate name) (pastBrace s))
    else
      match scanColon s with
      | .error e => .error e
      | .ok rest =>
        (f.read depth acc.state rest).map fun (st, rest') => (⟨name :: acc.seen, st⟩, rest')
  | none =>
    match scanColon s with
    | .error e => .error e
    | .ok rest => (skipValue rest).map fun rest' => (acc, rest')

/-- The bracket behind the last field of a list. -/
def scanListEnd (s : Bytes) : Except Fault Bytes :=
  match skipBlank s with
  | [] => .error (.ahead .endInList [])
  | b :: rest =>
    if b = 93 then .ok rest
    else if b = 44 then
      match skipBlank rest with
      | 93 :: rest' => .error (.ahead .trailingComma (93 :: rest'))
      | rest' => .error (.ahead .trailingCharacters rest')
    else .error (.ahead .trailingCharacters (b :: rest))

/-- Takes the fields that a list holds in order, `count` of which came before. -/
def readPlaces (r : Record σ) (depth : Nat) : List (Field σ) → Nat → σ → Bytes → Scan σ
  | [], _, acc, s => (scanListEnd s).map fun rest => (acc, rest)
  | f :: fs, count, acc, s =>
    match nextElement (count == 0) s with
    | .error e => .error e
    | .ok (.close rest) =>
      if r.required then .error (.here (r.tooShort count) rest) else .ok (acc, rest)
    | .ok (.item rest) =>
      match f.read depth acc rest with
      | .error e => .error e
      | .ok (acc', rest') => readPlaces r depth fs (count + 1) acc' rest'

/-- The record behind its opening brace. -/
def readMembers (r : Record σ) (depth : Nat) (start : σ) (s : Bytes) : Scan σ :=
  match foldMembers (r.readMember depth) (s.length + 1) true ⟨[], start⟩ s with
  | .error e => .error e
  | .ok (filled, rest) =>
    match r.absent filled.seen with
    | some name => .error (.here (.missing name) rest)
    | none => .ok (filled.state, rest)

/-- Reads a record, starting from the state `start`. -/
def read (r : Record σ) (start : σ) (depth : Nat) (s : Bytes) : Scan σ :=
  match skipBlank s with
  | [] => .error (.ahead .endInValue [])
  | b :: rest =>
    if b = 91 || b = 123 then
      match depth with
      | 0 => .error (.ahead .tooDeep (b :: rest))
      | depth + 1 =>
        if b = 91 then r.readPlaces depth r.fields 0 start rest
        else r.readMembers depth start rest
    else .error (otherwise r.expecting (b :: rest))

/-- Takes the members of an object up to the first that is at fault. -/
def takeMembers (r : Record σ) : Members → σ → σ × Option Cause
  | [], acc => (acc, none)
  | (name, v) :: rest, acc =>
    match r.fields.find? (·.name == name) with
    | none => r.takeMembers rest acc
    | some f =>
      match f.ofValue acc v with
      | .ok acc' => r.takeMembers rest acc'
      | .error c => (acc, some c)

/-- Takes the fields from a list of `total` items, up to the first that is at fault. -/
def takePlaces (r : Record σ) (total : Nat) : List (Field σ) → List Value → σ → σ × Option Cause
  | [], [], acc => (acc, none)
  | [], _ :: _, acc => (acc, some (.wrongLength total "fewer elements in array"))
  | fs, [], acc =>
    (acc, if r.required then some (r.tooShort (r.fields.length - fs.length)) else none)
  | f :: fs, v :: vs, acc =>
    match f.ofValue acc v with
    | .ok acc' => r.takePlaces total fs vs acc'
    | .error c => (acc, some c)

/-- The state after the fields of a value, and the fault that ended the reading. -/
def take (r : Record σ) (start : σ) : Value → σ × Option Cause
  | .object ms =>
    match r.takeMembers ms start with
    | (st, some c) => (st, some c)
    | (st, none) => (st, (r.absent (ms.map (·.1))).map .missing)
  | .array vs => r.takePlaces vs.length r.fields vs start
  | v => (start, some (.wrongType (.ofValue v) r.expecting))

/-- The record as a codec. -/
def codec (r : Record σ) (start : σ) : Codec σ where
  read depth s := r.read start depth s
  ofValue v :=
    match r.take start v with
    | (st, none) => .ok st
    | (_, some c) => .error c

end Record

/-- Reads a whole text. -/
def Codec.parse {α : Type} (c : Codec α) (s : Bytes) : Except Problem α :=
  wholly (c.read maxDepth) s

end Switchboard.Json
