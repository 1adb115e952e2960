import Switchboard.Text.Numeral

/-!
# Addresses

Addresses of hosts as numbers in their two notations: four decimal octets, or eight hexadecimal
groups, of which one run of zeros may be left out and the last two may be four octets.

    parse "::1" = some (v6 [0, 0, 0, 0, 0, 0, 0, 1])
    text (v6 [0, 0, 0, 0, 0, 0, 0, 1]) = "::1"
-/

namespace Switchboard

inductive Address where
  | v4 (octets : List Nat)
  | v6 (groups : List Nat)
  deriving DecidableEq, Repr

namespace Address

/-! ## Reading -/

def hexDigit? (c : Char) : Option Nat :=
  if Text.isDigit c then some (c.toNat - 48)
  else if 'a' ≤ c && c ≤ 'f' then some (c.toNat - 87)
  else if 'A' ≤ c && c ≤ 'F' then some (c.toNat - 55)
  else none

/-- Does a zero stand in front of another digit? -/
def hasIdleZero : List Char → Bool
  | '0' :: _ :: _ => true
  | _ => false

/-- An octet: up to three digits, no zero in front of another digit, and not above 255. -/
def readOctet (s : List Char) : Option (Nat × List Char) :=
  let ds := s.takeWhile Text.isDigit
  if ds.isEmpty || 3 < ds.length || hasIdleZero ds ||
    255 < Text.digitsValue ds then none
  else some (Text.digitsValue ds, s.drop ds.length)

/-- A group: up to four hexadecimal digits. -/
def readGroup (s : List Char) : Option (Nat × List Char) :=
  let ds := s.takeWhile fun c => (hexDigit? c).isSome
  if ds.isEmpty || 4 < ds.length then none
  else some ((ds.filterMap hexDigit?).foldl (fun n d => n * 16 + d) 0, s.drop ds.length)

/-- Behind a point. -/
def readNext (s : List Char) : Option (Nat × List Char) :=
  match s with
  | '.' :: rest => readOctet rest
  | _ => none

def readOctets (s : List Char) : Option (List Nat × List Char) := do
  let (a, s) ← readOctet s
  let (b, s) ← readNext s
  let (c, s) ← readNext s
  let (d, s) ← readNext s
  return ([a, b, c, d], s)

/-- What stands behind a colon; the first group needs none. -/
def behindColon (first : Bool) (s : List Char) : Option (List Char) :=
  match first, s with
  | true, s => some s
  | false, ':' :: rest => some rest
  | false, _ => none

/-- At most `most` groups with colons between them, whether they end in octets, and the rest. -/
def readGroups : (most : Nat) → (first : Bool) → List Char → List Nat × Bool × List Char
  | 0, _, s => ([], false, s)
  | left + 1, first, s =>
    match behindColon first s with
    | none => ([], false, s)
    | some body =>
      match if left = 0 then none else readOctets body with
      | some ([a, b, c, d], rest) => ([a * 256 + b, c * 256 + d], true, rest)
      | _ =>
        match readGroup body with
        | some (g, rest) =>
          let (gs, octets, rest) := readGroups left false rest
          (g :: gs, octets, rest)
        | none => ([], false, s)

/-- Eight groups, or less than eight around two colons. -/
def readAllGroups (s : List Char) : Option (List Nat × List Char) :=
  let (front, octets, rest) := readGroups 8 true s
  if front.length = 8 then some (front, rest)
  else if octets then none
  else
    match rest with
    | ':' :: ':' :: rest =>
      let (back, _, rest) := readGroups (7 - front.length) true rest
      some (front ++ List.replicate (8 - front.length - back.length) 0 ++ back, rest)
    | _ => none

def parse (s : String) : Option Address :=
  match readOctets s.toList with
  | some (octets, rest) => if rest.isEmpty then some (v4 octets) else none
  | none =>
    match readAllGroups s.toList with
    | some (groups, []) => some (v6 groups)
    | _ => none

/-! ## Writing -/

def octetsText (octets : List Nat) : String := ".".intercalate (octets.map toString)

def groupsText (groups : List Nat) : String :=
  ":".intercalate (groups.map fun g => String.ofList (Nat.toDigits 16 g))

/-- How many zeros stand in front. -/
def zeros (groups : List Nat) : Nat := (groups.takeWhile (· == 0)).length

/-- Where the longest run of zeros is, and how long it is; the first of equal ones. -/
def longestZeros : List Nat → Nat × Nat
  | [] => (0, 0)
  | g :: gs =>
    let (start, length) := longestZeros gs
    if length ≤ zeros (g :: gs) && 0 < zeros (g :: gs) then (0, zeros (g :: gs))
    else (start + 1, length)

/-- Groups with their longest run of zeros left out, if it is not just one. -/
def shortGroups (groups : List Nat) : String :=
  let (start, length) := longestZeros groups
  if 1 < length then
    groupsText (groups.take start) ++ "::" ++ groupsText (groups.drop (start + length))
  else groupsText groups

def text : Address → String
  | v4 octets => octetsText octets
  | v6 [0, 0, 0, 0, 0, 0xFFFF, a, b] =>
    "::ffff:" ++ octetsText [a / 256, a % 256, b / 256, b % 256]
  | v6 groups => shortGroups groups

/-- An address and a port of it. -/
def withPort (a : Address) (port : UInt16) : String :=
  match a with
  | v4 _ => a.text ++ ":" ++ toString port
  | v6 _ => "[" ++ a.text ++ "]:" ++ toString port

/-! ## Lemmas -/

theorem parse_loopback : parse "::1" = some (v6 [0, 0, 0, 0, 0, 0, 0, 1]) := by cbv

theorem text_loopback : text (v6 [0, 0, 0, 0, 0, 0, 0, 1]) = "::1" := by cbv

end Address

end Switchboard
