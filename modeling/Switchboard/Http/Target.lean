import Switchboard.Http.Answer

/-!
# Request lines

A method is a token.  A target is a path with a query, an absolute address, or an authority alone;
of all these only the path counts here.

    pathOf "/a?b#c" = some "/a",  pathOf "http://host" = some "/",  pathOf "host" = some ""
-/

namespace Switchboard.Http

/-! ## Algorithm -/

def isLetterOrDigit (b : UInt8) : Bool :=
  (48 ≤ b && b ≤ 57) || (65 ≤ b && b ≤ 90) || (97 ≤ b && b ≤ 122)

/-- Characters of tokens: letters, digits, and ! # $ % & ' * + - . ^ _ ` | ~ -/
def isTokenByte (b : UInt8) : Bool :=
  isLetterOrDigit b ||
    [33, 35, 36, 37, 38, 39, 42, 43, 45, 46, 94, 95, 96, 124, 126].contains b

def isToken (s : Bytes) : Bool := !s.isEmpty && s.all isTokenByte

/-- Bytes that a path may hold as they are. -/
def isPathByte (b : UInt8) : Bool :=
  b == 0x21 || b == 0x22 || (0x24 ≤ b && b ≤ 0x3B) || b == 0x3D || (0x40 ≤ b && b ≤ 0x5F) ||
    0x61 ≤ b

def isQueryByte (b : UInt8) : Bool :=
  b == 0x21 || (0x24 ≤ b && b ≤ 0x3B) || b == 0x3D || 0x3F ≤ b

/-- A query up to its fragment. -/
def queryOk : Bytes → Bool
  | [] => true
  | b :: rest => if b = 35 then true else isQueryByte b && queryOk rest

/-- The path in front of query and fragment. -/
def splitPath : Bytes → Option Bytes
  | [] => some []
  | b :: rest =>
    if b = 63 then if queryOk rest then some [] else none
    else if b = 35 then some []
    else if isPathByte b then (splitPath rest).map (b :: ·)
    else none

/-- Bytes of an authority: letters, digits, and ! $ & ' ( ) * + , - . : ; = @ [ ] _ ~ -/
def isAuthorityByte (b : UInt8) : Bool :=
  isLetterOrDigit b ||
    [33, 36, 38, 39, 40, 41, 42, 43, 44, 45, 46, 58, 59, 61, 64, 91, 93, 95, 126].contains b

/-- What an authority has shown so far. -/
structure Seen where
  colons : Nat := 0
  opened : Bool := false
  closed : Bool := false
  percent : Bool := false
  atLast : Bool := false

def Seen.next (s : Seen) (b : UInt8) : Option Seen :=
  if b = 58 then
    if 8 ≤ s.colons then none else some { s with colons := s.colons + 1, atLast := false }
  else if b = 91 then
    if s.percent || s.opened then none else some { s with opened := true, atLast := false }
  else if b = 93 then
    if !s.opened || s.closed then none
    else some { s with closed := true, colons := 0, percent := false, atLast := false }
  else if b = 64 then some { s with colons := 0, percent := false, atLast := true }
  else if b = 37 then some { s with percent := true, atLast := false }
  else if isAuthorityByte b then some { s with atLast := false }
  else none

def Seen.complete (s : Seen) : Bool :=
  s.opened == s.closed && s.colons ≤ 1 && !s.atLast && !s.percent

def endsAuthority (b : UInt8) : Bool := b == 47 || b == 63 || b == 35

/-- The rest behind a well-formed authority, which may be empty. -/
def dropAuthority (s : Bytes) : Option Bytes :=
  let authority := s.takeWhile fun b => !endsAuthority b
  match authority.foldlM Seen.next ({} : Seen) with
  | some seen => if seen.complete then some (s.dropWhile fun b => !endsAuthority b) else none
  | none => none

def isSchemeByte (b : UInt8) : Bool :=
  isLetterOrDigit b || b == 43 || b == 45 || b == 46 || b == 126

/-- Either no scheme, or the rest behind a scheme and its slashes; schemes longer than 64 bytes are
refused. -/
def dropScheme (s : Bytes) : Option (Option Bytes) :=
  let scheme := s.takeWhile isSchemeByte
  match s.dropWhile isSchemeByte with
  | 58 :: 47 :: 47 :: rest => if 64 < scheme.length then none else some (some rest)
  | _ => some none

/-- The path of a request target; none for a target that is not well formed. -/
def pathBytes (s : Bytes) : Option Bytes :=
  if 65534 < s.length || s.isEmpty then none
  else if s = [42] then some s
  else if s.head? = some 47 then splitPath s
  else
    match dropScheme s with
    | none => none
    | some none => if dropAuthority s = some [] then some [] else none
    | some (some rest) =>
      match dropAuthority rest with
      | none => none
      | some after =>
        if after.length = rest.length then none
        else (splitPath after).map fun p => if p.isEmpty then [47] else p

def pathOf (target : String) : Option String :=
  (pathBytes (Text.bytes target)).map Text.lenient

/-- The request that a method and a target make up; none if either is not well formed. -/
def Request.of? (method target : String) (headers : List (String × String)) : Option Request :=
  if isToken (Text.bytes method) then (pathOf target).map fun path => ⟨method, path, headers⟩
  else none

end Switchboard.Http
