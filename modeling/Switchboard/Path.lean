import Switchboard.Text.Lowercase

/-!
# Paths

Texts with slashes, taken apart: a path starts at the top or not, may begin with a dot, and has
names and steps upward; repeated slashes and inner dots stand for nothing.

    components "a//b/./c/" = [a, b, c]
    join root p = p      for p that starts at the top
-/

namespace Switchboard.Path

inductive Component where
  | top
  | here
  | up
  | name (s : String)
  deriving DecidableEq, Repr

/-! ## Algorithm -/

/-- The pieces between slashes. -/
def pieces : List Char → List Char → List String
  | piece, [] => [String.ofList piece.reverse]
  | piece, '/' :: rest => String.ofList piece.reverse :: pieces [] rest
  | piece, c :: rest => pieces (c :: piece) rest

def segments (path : String) : List String := pieces [] path.toList

def isAbsolute (path : String) : Bool := path.toList.head? == some '/'

/-- What a piece behind the first stands for. -/
def component? (piece : String) : Option Component :=
  if piece = "" || piece = "." then none
  else if piece = ".." then some .up
  else some (.name piece)

def components (path : String) : List Component :=
  match segments path with
  | "." :: rest => .here :: rest.filterMap component?
  | "" :: rest =>
    (if isAbsolute path then [.top] else []) ++ rest.filterMap component?
  | first => first.filterMap component?

/-- The last name, if the path ends in one. -/
def fileName? (path : String) : Option String :=
  match (components path).getLast? with
  | some (.name s) => some s
  | _ => none

/-- What stands behind the last dot of a name, if there is something in front of it. -/
def extensionOf (name : List Char) : Option String :=
  match name.reverse.span (· != '.') with
  | (after, '.' :: _ :: _) => some (String.ofList after.reverse)
  | _ => none

def extension? (path : String) : Option String :=
  (fileName? path).bind fun s => extensionOf s.toList

/-- The second path seen from the first. -/
def join (root path : String) : String :=
  if isAbsolute path || root = "" then path
  else if root.toList.getLast? == some '/' then root ++ path
  else root ++ "/" ++ path

def Component.text : Component → String
  | top => ""
  | here => "."
  | up => ".."
  | name s => s

/-- The path that components make up. -/
def ofComponents : List Component → String
  | [.top] => "/"
  | cs => "/".intercalate (cs.map Component.text)

/-- The path from the top along names. -/
def ofNames (names : List String) : String := "/" ++ "/".intercalate names

/-- The paths that lead to a path, the nearest first; the empty one is left out. -/
def parents (path : String) : List String :=
  let cs := components path
  ((List.range cs.length).reverse.filter (· ≠ 0)).map fun k => ofComponents (cs.take k)

end Switchboard.Path
