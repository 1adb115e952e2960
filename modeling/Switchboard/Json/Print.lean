import Switchboard.Json.Value

/-!
# Writing values

Two layouts: compact, with nothing between the tokens, and indented, with one member or element a
line.  Members are written in the order they have.

    compact (.array [1, 2]) = "[1,2]"
-/

namespace Switchboard.Json

/-! ## Algorithm -/

/-- Two lower-case hexadecimal digits. -/
def hexTwo (n : Nat) : List Char := [Nat.digitChar (n / 16), Nat.digitChar (n % 16)]

/-- A character as it stands in a string. -/
def escapeChar (c : Char) : List Char :=
  if c = '"' then ['\\', '"']
  else if c = '\\' then ['\\', '\\']
  else if c = '\n' then ['\\', 'n']
  else if c = '\r' then ['\\', 'r']
  else if c = '\t' then ['\\', 't']
  else if c = '\x08' then ['\\', 'b']
  else if c = '\x0c' then ['\\', 'f']
  else if c.toNat < 32 then ['\\', 'u', '0', '0'] ++ hexTwo c.toNat
  else [c]

def quote (s : String) : String :=
  String.ofList ('"' :: s.toList.flatMap escapeChar ++ ['"'])

def Number.text : Number → String
  | .integer n => toString n
  | .double d => d.text

mutual

def compact : Value → String
  | .null => "null"
  | .bool b => if b then "true" else "false"
  | .number n => n.text
  | .string s => quote s
  | .array vs => "[" ++ compactItems vs ++ "]"
  | .object ms => "\x7b" ++ compactMembers ms ++ "\x7d"

def compactItems : List Value → String
  | [] => ""
  | [v] => compact v
  | v :: w :: vs => compact v ++ "," ++ compactItems (w :: vs)

def compactMembers : List (String × Value) → String
  | [] => ""
  | [(k, v)] => quote k ++ ":" ++ compact v
  | (k, v) :: m :: ms => quote k ++ ":" ++ compact v ++ "," ++ compactMembers (m :: ms)

end

/-- A new line at the given level. -/
def newLine (level : Nat) : String := String.ofList ('\n' :: List.replicate (2 * level) ' ')

mutual

def indented (level : Nat) : Value → String
  | .array (v :: vs) => "[" ++ indentedItems (level + 1) (v :: vs) ++ newLine level ++ "]"
  | .object (m :: ms) =>
    "\x7b" ++ indentedMembers (level + 1) (m :: ms) ++ newLine level ++ "\x7d"
  | .array [] => "[]"
  | .object [] => "\x7b\x7d"
  | .null => "null"
  | .bool b => if b then "true" else "false"
  | .number n => n.text
  | .string s => quote s

def indentedItems (level : Nat) : List Value → String
  | [] => ""
  | [v] => newLine level ++ indented level v
  | v :: w :: vs => newLine level ++ indented level v ++ "," ++ indentedItems level (w :: vs)

def indentedMembers (level : Nat) : List (String × Value) → String
  | [] => ""
  | [(k, v)] => newLine level ++ quote k ++ ": " ++ indented level v
  | (k, v) :: m :: ms =>
    newLine level ++ quote k ++ ": " ++ indented level v ++ "," ++ indentedMembers level (m :: ms)

end

/-- The value over several lines. -/
def pretty (v : Value) : String := indented 0 v

end Switchboard.Json
