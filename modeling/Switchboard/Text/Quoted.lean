import Switchboard.Text.Hidden

/-!
# Quoted text

A text in double quotes, in which quotes, backslashes and characters without a shape of their own
are written as escapes.

    quoted s = '"' :: quoteChars s ++ ['"']
-/

namespace Switchboard.Text

/-! ## Algorithm -/

def hexText (n : Nat) : List Char := Nat.toDigits 16 n

/-- One character as it stands in quotes. -/
def quoteChar (c : Char) : List Char :=
  if c = '\x00' then ['\\', '0']
  else if c = '\t' then ['\\', 't']
  else if c = '\r' then ['\\', 'r']
  else if c = '\n' then ['\\', 'n']
  else if c = '\\' then ['\\', '\\']
  else if c = '"' then ['\\', '"']
  else if isHidden c then ['\\', 'u', '\x7b'] ++ hexText c.toNat ++ ['\x7d']
  else [c]

def quoteChars (s : List Char) : List Char := s.flatMap quoteChar

/-- The text in quotes, every character in its escaped form. -/
def quoted (s : String) : String := String.ofList ('"' :: quoteChars s.toList ++ ['"'])

/-! ## Lemmas -/

theorem quoteChars_nil : quoteChars [] = [] := rfl

theorem quoteChars_append (s t : List Char) :
    quoteChars (s ++ t) = quoteChars s ++ quoteChars t := by
  simp [quoteChars]

end Switchboard.Text
