import Switchboard.Config.Layers
import Switchboard.Logging.Filter
import Switchboard.Logging.Moment

/-!
# Where logs go

Records go to the terminal and, if that is wanted and possible, also to a file whose name tells the
day or the hour.  A directory that cannot be made costs the file, not the log.

    emit log m fs rs: one line in each place for each record that the filter enables
-/

namespace Switchboard.Logging

/-! ## Files -/

/-- How often a new file is begun. -/
inductive Rotation where
  | hourly
  | daily
  | never
  deriving DecidableEq, Repr

def Rotation.ofText (s : String) : Rotation :=
  match Text.lower s with
  | "hourly" => hourly
  | "never" => never
  | _ => daily

def Moment.period (m : Moment) : Rotation → String
  | .hourly => m.date ++ "-" ++ m.hour
  | _ => m.date

/-- The name of the file for a moment; without a name of its own it is named for the moment. -/
def fileName (m : Moment) (rotation : Rotation) (name : String) : String :=
  if name = "" then m.period rotation
  else
    match rotation with
    | .never => name
    | r => name ++ "." ++ m.period r

/-- Makes sure of a file, with the directories that lead to it. -/
def openFile (fs : Files) (path : String) : Except FileError Files :=
  match fs.append path [] with
  | .ok fs' => .ok fs'
  | .error _ =>
    match fs.makeTree ((Path.parents path).headD "") with
    | .error e => .error e
    | .ok fs' => fs'.append path []

/-! ## Logs -/

/-- A directory for logs that cannot be had. -/
structure NoDirectory where
  dir : String
  cause : FileError
  deriving DecidableEq, Repr

def NoDirectory.message (n : NoDirectory) : String :=
  "Failed to create log directory '" ++ n.dir ++ "' (" ++ n.cause.message ++
    "), continuing with stdout logs"

structure Log where
  filter : Filter
  format : LogFormat
  file : Option String
  deriving Repr

/-- A log that is ready, the files as they are then, and what was in the way. -/
structure Started where
  log : Log
  files : Files
  obstacle : Option NoDirectory := none

def filterVariable : String := "RUST_LOG"

/-- Sets up a log.  A file that cannot be opened in a directory that is there is an error. -/
def start (s : LogSettings) (env : Config.Env) (m : Moment) (fs : Files) :
    Except FileError Started :=
  let log : Log := ⟨Filter.choose s.level (env.get? filterVariable), s.format, none⟩
  if !s.toFile then .ok ⟨log, fs, none⟩
  else
    match fs.makeTree s.dir with
    | .error e => .ok ⟨log, fs, some ⟨s.dir, e⟩⟩
    | .ok fs =>
      let path := Path.join s.dir (fileName m (.ofText s.rotation) s.filename)
      (openFile fs path).map fun fs => ⟨{ log with file := some path }, fs, none⟩

/-- The line for the terminal. -/
def Log.terminalLine (log : Log) (m : Moment) (r : Record) : String :=
  match log.format with
  | .json => jsonLine m.stamp r
  | .text => colouredLine m.stamp r

/-- The line for the file. -/
def Log.fileLine (log : Log) (m : Moment) (r : Record) : String :=
  match log.format with
  | .json => jsonLine m.stamp r
  | .text => plainLine m.stamp r

def linesText (ls : List String) : String := String.join (ls.map (· ++ "\n"))

/-- Writes records: what the terminal gets, and the files after it. -/
def Log.emit (log : Log) (m : Moment) (fs : Files) (rs : List Record) : String × Files :=
  let enabled := rs.filter log.filter.enables
  let shown := linesText (enabled.map (log.terminalLine m))
  match log.file with
  | none => (shown, fs)
  | some path =>
    match fs.append path (Text.bytes (linesText (enabled.map (log.fileLine m)))) with
    | .ok fs' => (shown, fs')
    | .error _ => (shown, fs)

end Switchboard.Logging
