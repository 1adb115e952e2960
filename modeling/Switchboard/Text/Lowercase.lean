import Switchboard.Text.CaseTable

/-!
# Lower case

Full lower-casing.  Two letters are not mapped one to one by themselves: İ becomes i with a dot
above, and Σ becomes ς at the end of a word, σ elsewhere.

    lowerChars [] s = concatenation of lowerAt over the places of s
-/

namespace Switchboard.Text

/-! ## Algorithm -/

/-- The letter that a run maps `c` to; letters outside all runs stay. -/
def lowerSimple (c : Char) : Char :=
  match lowerRuns.find? (·.holds c.toNat) with
  | some r => Char.ofNat (c.toNat + r.shift).toNat
  | none => c

/-- Does a cased letter come first, apart from ignorable characters? -/
def reachesCased (s : List Char) : Bool :=
  match s.dropWhile isCaseIgnorable with
  | c :: _ => isCased c
  | [] => false

/-- `before` is the text in front of `c`, nearest character first. -/
def lowerAt (before : List Char) (c : Char) (after : List Char) : List Char :=
  if c.toNat = 0x130 then ['i', Char.ofNat 0x307]
  else if c.toNat = 0x3A3 then
    [Char.ofNat (if reachesCased before && !reachesCased after then 0x3C2 else 0x3C3)]
  else [lowerSimple c]

def lowerChars (before : List Char) : List Char → List Char
  | [] => []
  | c :: after => lowerAt before c after ++ lowerChars (c :: before) after

def lower (s : String) : String := String.ofList (lowerChars [] s.toList)

/-- Lower case of A to Z alone. -/
def lowerAscii (s : String) : String := String.ofList (s.toList.map Char.toLower)

end Switchboard.Text
