import Switchboard.Event
import Switchboard.Files
import Switchboard.Http.Answer

/-!
# Assets

Files below one root, served to whoever asks: only known kinds of file, and only by paths that go
straight down.

    resolve? p = none ↔ p steps up somewhere, or starts with a dot of its own
    (serve fs root r).1.status = 200 → the body is a file below root of a known kind
-/

namespace Switchboard.Assets

/-! ## Algorithm -/

/-- The kinds of file that are served, by extension. -/
def kinds : List (String × String) :=
  [("html", "text/html"), ("js", "application/javascript"), ("png", "image/png"),
    ("jpg", "image/jpeg"), ("jpeg", "image/jpeg"), ("gif", "image/gif"), ("css", "text/css"),
    ("xml", "text/xml")]

def typeOf? (path : String) : Option String :=
  (Path.extension? path).bind fun ext => kinds.lookup (Text.lowerAscii ext)

def index : String := "index.html"

/-- The relative path that is asked for; directories stand for their index. -/
def relative (path : String) : String :=
  let trimmed := path.toList.dropWhile (· == '/')
  if trimmed.isEmpty || trimmed.getLast? == some '/' then String.ofList trimmed ++ index
  else String.ofList trimmed

def isName : Path.Component → Bool
  | .name _ => true
  | _ => false

/-- The path below the root, unless it could leave the root. -/
def resolve? (path : String) : Option String :=
  if (Path.components (relative path)).all isName then some (relative path) else none

/-- Answers a request, and what is reported of it. -/
def serve (fs : Files) (root : String) (r : Http.Request) : Http.Answer × List Event :=
  if r.method ≠ "GET" && r.method ≠ "HEAD" then (.empty 405, [])
  else
    match resolve? r.path with
    | none => (.empty 404, [⟨.debug, "rejected asset path", [("path", r.path)]⟩])
    | some below =>
      match typeOf? below with
      | none => (.empty 404, [])
      | some type =>
        match fs.read (Path.join root below) with
        | .ok body => ((Http.Answer.full 200 type body).forMethod r.method, [])
        | .error e =>
          (.empty 404, [⟨.error, "failed to read asset",
            [("path", Path.join root below), Event.failure e.message]⟩])

end Switchboard.Assets
