import Switchboard.Path
import Switchboard.Text.Utf8

/-!
# Files

A tree of files, what finding and reading a path there comes to, and what making directories and
writing does to it.  Paths that do not start at the top start at home.

    fs.read p = ok b ↔ p leads to a file that holds b
-/

namespace Switchboard

/-- Files and directories by the names that lead to them from the top; each name on the way is a
directory. -/
structure Files where
  home : List String := []
  files : List (List String × Bytes) := []
  dirs : List (List String) := []

inductive FileError where
  | notFound
  | notDirectory
  | isDirectory
  | alreadyExists
  | nameTooLong
  | zeroByte
  | notText
  deriving DecidableEq, Repr

def FileError.message : FileError → String
  | notFound => "No such file or directory (os error 2)"
  | notDirectory => "Not a directory (os error 20)"
  | isDirectory => "Is a directory (os error 21)"
  | alreadyExists => "File exists (os error 17)"
  | nameTooLong => "File name too long (os error 36)"
  | zeroByte => "file name contained an unexpected NUL byte"
  | notText => "stream did not contain valid UTF-8"

namespace Files

/-- Where a path has led: some names down from the top, to a file there or to a directory. -/
inductive Spot where
  | dir (names : List String)
  | file (names : List String) (content : Bytes)
  deriving DecidableEq, Repr

/-! ## Finding -/

/-- The names that a path stands for, seen from `home`. -/
def namesOf (home : List String) (path : String) : List String :=
  (Path.segments path).foldl
    (fun names piece =>
      if piece = "" || piece = "." then names
      else if piece = ".." then names.dropLast
      else names ++ [piece])
    (if Path.isAbsolute path then [] else home)

/-- Files and directories by their paths. -/
def ofList (home : List String) (files : List (String × Bytes)) (dirs : List String) : Files :=
  { home := home
    files := files.map fun (p, b) => (namesOf home p, b)
    dirs := dirs.map (namesOf home) }

/-- The files of a tree that the other does not have, or has with another content. -/
def changes (old new : Files) : List (List String × Bytes) :=
  new.files.filter fun f => !old.files.contains f

def isDirAt (fs : Files) (names : List String) : Bool :=
  names.isPrefixOf fs.home || fs.files.any (fun f => names.isPrefixOf f.1 && f.1 ≠ names) ||
    fs.dirs.any (names.isPrefixOf ·)

/-- What stands under the given names. -/
def spotAt (fs : Files) (names : List String) : Except FileError Spot :=
  match fs.files.find? (·.1 == names) with
  | some f => .ok (.file names f.2)
  | none => if fs.isDirAt names then .ok (.dir names) else .error .notFound

/-- Follows one piece of a path; the top is above itself. -/
def follow (fs : Files) (spot : Spot) (piece : String) : Except FileError Spot :=
  match spot with
  | .file .. => .error .notDirectory
  | .dir names =>
    if piece = "" || piece = "." then .ok spot
    else if piece = ".." then .ok (.dir names.dropLast)
    else if 255 < piece.utf8ByteSize then .error .nameTooLong
    else fs.spotAt (names ++ [piece])

def followAll (fs : Files) (spot : Spot) : List String → Except FileError Spot
  | [] => .ok spot
  | piece :: rest =>
    match fs.follow spot piece with
    | .error e => .error e
    | .ok next => fs.followAll next rest

def start (fs : Files) (path : String) : Spot := .dir (if Path.isAbsolute path then [] else fs.home)

/-- A path that no system takes. -/
def pathFault? (path : String) : Option FileError :=
  if path.toList.contains '\x00' then some .zeroByte
  else if path = "" then some .notFound
  else if 4096 ≤ path.utf8ByteSize then some .nameTooLong
  else none

/-- Where a path leads. -/
def find (fs : Files) (path : String) : Except FileError Spot :=
  match pathFault? path with
  | some e => .error e
  | none => fs.followAll (fs.start path) (Path.segments path)

def exists? (fs : Files) (path : String) : Bool := (fs.find path).isOk

def isFile (fs : Files) (path : String) : Bool :=
  match fs.find path with
  | .ok (.file ..) => true
  | _ => false

def isDir (fs : Files) (path : String) : Bool :=
  match fs.find path with
  | .ok (.dir _) => true
  | _ => false

def read (fs : Files) (path : String) : Except FileError Bytes :=
  match fs.find path with
  | .ok (.file _ b) => .ok b
  | .ok _ => .error .isDirectory
  | .error e => .error e

/-- The content of a file as a text. -/
def readText (fs : Files) (path : String) : Except FileError String :=
  match fs.read path with
  | .error e => .error e
  | .ok b =>
    match Text.text? b with
    | some s => .ok s
    | none => .error .notText

/-! ## Writing -/

/-- The directory that the last piece of a path is looked for in, and that piece; slashes at the
end do not count. -/
def lastPlace (fs : Files) (path : String) : Except FileError (Spot × String) :=
  match pathFault? path with
  | some e => .error e
  | none =>
    match ((Path.segments path).reverse.dropWhile (· == "")) with
    | [] => .ok (fs.start path, ".")
    | last :: before => (fs.followAll (fs.start path) before.reverse).map fun spot => (spot, last)

/-- Makes one directory. -/
def makeDir (fs : Files) (path : String) : Except FileError Files :=
  match fs.lastPlace path with
  | .error e => .error e
  | .ok (spot, last) =>
    match spot, fs.follow spot last with
    | .dir names, .error .notFound => .ok { fs with dirs := fs.dirs ++ [names ++ [last]] }
    | _, .error e => .error e
    | _, .ok _ => .error .alreadyExists

/-- Makes one directory, which may be there. -/
def ensureDir (fs : Files) (path : String) : Except FileError Files :=
  match fs.makeDir path with
  | .error e => if fs.isDir path then .ok fs else .error e
  | r => r

/-- Makes a directory and all that are wanting on the way to it; `above` holds the paths on that
way, the nearest first. -/
def makeDirs (fs : Files) (path : String) (above : List String) : Except FileError Files :=
  match fs.ensureDir path, above with
  | .error .notFound, [] => .error .notFound
  | .error .notFound, next :: rest =>
    match makeDirs fs next rest with
    | .error e => .error e
    | .ok fs' => fs'.ensureDir path
  | r, _ => r

/-- Makes a directory with all that lead to it; nothing is to be made for an empty path. -/
def makeTree (fs : Files) (path : String) : Except FileError Files :=
  if path = "" then .ok fs else fs.makeDirs path (Path.parents path)

/-- Puts bytes behind what a file holds; a file that is not there is made. -/
def append (fs : Files) (path : String) (b : Bytes) : Except FileError Files :=
  if path.toList.getLast? == some '/' then .error .isDirectory
  else
    match fs.lastPlace path with
    | .error e => .error e
    | .ok (spot, last) =>
      match spot, fs.follow spot last with
      | _, .ok (.file names _) =>
        .ok { fs with files := fs.files.map fun f => if f.1 = names then (names, f.2 ++ b) else f }
      | _, .ok (.dir _) => .error .isDirectory
      | .dir names, .error .notFound => .ok { fs with files := fs.files ++ [(names ++ [last], b)] }
      | _, .error e => .error e

/-! ## Lemmas -/

theorem isFile_iff (fs : Files) (path : String) :
    fs.isFile path = true ↔ ∃ b, fs.read path = .ok b := by
  unfold isFile read
  split
  · next h => simp [h]
  · next h =>
    constructor
    · intro hf; simp at hf
    · rintro ⟨b, hb⟩
      split at hb
      · next names c hc => exact absurd hc (h names c)
      · simp at hb
      · simp at hb

end Files

end Switchboard
