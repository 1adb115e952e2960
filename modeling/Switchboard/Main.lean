import Std.Time.DateTime
import Switchboard.Command.Run
import Switchboard.Tls.Der

/-!
# The program

Fetches what a run goes by and carries out what comes of it.  A run that gets as far as listening
ends there: sockets are for a host that serves the links.
-/

namespace Switchboard.Program

/-- The variables of this process, in their order. -/
def environment : IO Config.Block := do
  try return Config.Block.ofBytes (← IO.FS.readBinFile "/proc/self/environ").toList
  catch _ => return []

/-- The files and directories that stand at the given paths. -/
def snapshot (paths : List String) : IO Files := do
  let here ← IO.currentDir
  let mut files := []
  let mut dirs := []
  for path in paths.filter (· ≠ "") do
    if ← (here / path).isDir then dirs := dirs ++ [path]
    else
      try files := files ++ [(path, (← IO.FS.readBinFile (here / path)).toList)]
      catch _ => pure ()
  return Files.ofList (Files.namesOf [] here.toString) files dirs

/-- The file of settings next to the program. -/
def beside : IO (Option (String × Bytes)) := do
  match (← IO.appPath).parent with
  | none => return none
  | some dir =>
    let path := dir / "config.json"
    try return some (path.toString, (← IO.FS.readBinFile path).toList)
    catch _ => return none

/-- What can be known before the settings are. -/
def sources (b : Config.Block) : IO Config.Sources := do
  let env := (b.texts?).getD b.named
  let stdin ← if Config.readsStdin env then IO.FS.readBinFile "/dev/stdin" else pure .empty
  return {
    beside := ← beside
    files := ← snapshot (Config.documentPaths env)
    env := env
    stdin := stdin.toList }

/-- All that a run looks at. -/
def gather (args : List String) (b : Config.Block) (m : Logging.Moment) : IO Config.Sources := do
  let s ← sources b
  match Command.parse args with
  | .error _ => return s
  | .ok o =>
    let (c, _) := Command.settings o s
    return { s with files := ← snapshot (Config.documentPaths s.env ++ Command.pathsOf m c) }

def now : IO Logging.Moment := do
  let t ← Std.Time.Timestamp.now
  return Logging.Moment.of t.val.second.val.toNat t.val.nano.val.toNat

/-- Writes the files that a run has changed. -/
def keep (old new : Files) : IO Unit := do
  for (names, content) in old.changes new do
    IO.FS.createDirAll (Path.ofNames names.dropLast)
    IO.FS.writeBinFile (Path.ofNames names) ⟨content.toArray⟩

end Switchboard.Program

open Switchboard in
def main (args : List String) : IO UInt32 := do
  let m ← Program.now
  let b ← Program.environment
  let s ← Program.gather args b m
  let o := Command.runFrom Tls.Der.judge args s b m
  Program.keep s.files o.files
  (← IO.getStderr).putStr o.err
  (← IO.getStdout).putStr o.out
  match o.ending with
  | .exit code => return code.toUInt32
  | .listening => return 0
