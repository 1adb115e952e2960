/-!
# Lines of a text

Lines end at a line feed, with or without a carriage return before it; the end of the text ends a
last line only if something stands in it.

    lineList "a\r\nb\n" = ["a", "b"]
-/

namespace Switchboard.Text

/-! ## Algorithm -/

/-- The line without the carriage return at its end; `line` is held back to front. -/
def closeLine : List Char → String
  | '\r' :: line => String.ofList line.reverse
  | line => String.ofList line.reverse

def splitLines : List Char → List Char → List String
  | [], [] => []
  | line, [] => [String.ofList line.reverse]
  | line, '\n' :: rest => closeLine line :: splitLines [] rest
  | line, c :: rest => splitLines (c :: line) rest

def lineList (s : String) : List String := splitLines [] s.toList

end Switchboard.Text
