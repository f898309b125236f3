/-
# The program

The shell around commands: it reads the project into a disk, runs the command on
it, prints what the command says, and writes back what has changed. A command
that is asked something is run again with one more line of input, so that
questions appear before their answers are typed.
-/

import Deadwood.Command
import Deadwood.Screen
import Deadwood.Watch
import Std.Time

namespace Deadwood.Main

/-! ## Reading the project -/

/-- The absolute path to a location. -/
def pathTo (location : Location) : String :=
  "/" ++ "/".intercalate location

/-- The location of an absolute path. -/
def locationOf (path : String) : Location :=
  (Path.mk path).parts.filterMap fun part =>
    match part with
    | .named name => some name
    | _ => none

/-- Adds what stands at a location, without what is below it. Links lead straight
to their ends. -/
def addEntry (disk : Disk) (location : Location) : IO Disk := do
  let path := (← IO.currentDir) / pathTo location
  try
    match (← path.symlinkMetadata).type with
    | .dir => return disk.put location .directory
    | .file => return disk.put location (.file (← IO.FS.readBinFile path))
    | .symlink => return disk.put location (.link (← IO.FS.realPath path).toString)
    | .other => return disk
  catch _ => return disk

/-- Adds everything at and below a location. -/
partial def addTree (disk : Disk) (location : Location) : IO Disk := do
  let disk ← addEntry disk location
  match disk.get? location with
  | some .directory =>
    let path := (← IO.currentDir) / pathTo location
    let entries ← try path.readDir catch _ => pure #[]
    entries.foldlM (fun disk entry => addTree disk (location ++ [entry.fileName])) disk
  | _ => return disk

/-- Adds the directories on the way to a location. -/
def addWay (disk : Disk) (location : Location) : IO Disk :=
  (List.range location.length).foldlM (fun disk n => addEntry disk (location.take (n + 1))) disk

/-- The disk with a project, as seen from the working directory. -/
def loadDisk (path : Path) : IO Disk := do
  let workingDir := locationOf (← IO.currentDir).toString
  let disk ← addWay { workingDir } workingDir
  let disk ← (List.range (workingDir.length + 1)).foldlM (fun disk n =>
    addEntry disk (workingDir.take n ++ [".env"])) disk
  let named := (Path.mk (pathTo workingDir)).join path
  let disk ← addWay disk (locationOf named.text)
  try
    let project := locationOf (← IO.FS.realPath path.text).toString
    addTree (← addWay disk project) project
  catch _ => return disk

/-! ## Writing back -/

/-- Writes what one disk has and another has not. -/
def saveChanges (old new : Disk) : IO Unit :=
  new.entries.forM fun (location, entry) => do
    if old.get? location ≠ some entry then
      match entry with
      | .directory => IO.FS.createDirAll (pathTo location)
      | .file bytes => IO.FS.writeBinFile (pathTo location) bytes
      | .link _ => pure ()

/-! ## Running -/

/-- The time now. -/
def now : IO Stamp := do
  let millis := (← Std.Time.Timestamp.now).toMillisecondsSinceUnixEpoch.val
  return (Stamp.ofMillis? millis).getD ⟨"0", Stamp.isoText 0⟩

/-- The path that a command is about. -/
def pathOf : Command → Path
  | .scan path _ => path
  | .watch path _ _ => path
  | .fix path _ => path
  | .revert path _ => path
  | .dashboard path => path

/-- The variables that settings look at. -/
def knownVariables : IO Variables :=
  [Settings.ignoreVariable, Settings.patchesVariable].filterMapM fun name => do
    return (← IO.getEnv name).map fun value => (name, value)

/-- Runs something that may ask, with more and more input, until it asks no more
or the input ends. What has been printed is not printed again. -/
partial def converse {α : Type} (run : List UInt8 → α × Session) (typed : List UInt8)
    (printed : Nat) : IO (α × Session) := do
  let (result, session) := run typed
  let all := session.console.output
  let output ← IO.getStdout
  match session.console.unanswered with
  | none =>
    output.putStr (String.join (all.drop printed))
    return (result, session)
  | some written =>
    output.putStr (String.join ((all.take written).drop printed))
    output.flush
    let line ← (← IO.getStdin).getLine
    if line.isEmpty then
      output.putStr (String.join (all.drop written))
      return (result, session)
    else converse run (typed ++ line.toUTF8.toList) written

/-- Shows a snapshot, if there is a terminal. -/
def showSnapshot (snapshot : Snapshot) : IO UInt32 := do
  if ← (← IO.getStdout).isTty then
    (Screen.draw 120 40 snapshot).forM fun row => IO.println (Screen.trimmedRow row)
    return 0
  else
    IO.eprintln "Error: TUI error: no terminal"
    return 1

/-- The happenings between two states of a disk. -/
def happenings (old new : Disk) : List (Watch.Happening × Path) :=
  let appeared := new.entries.filterMap fun (location, entry) =>
    match old.get? location with
    | none => some (Watch.Happening.created, Path.mk (pathTo location))
    | some before => if before = entry then none
      else some (Watch.Happening.contentChanged, Path.mk (pathTo location))
  let vanished := old.entries.filterMap fun (location, _) =>
    if (new.get? location).isNone then some (Watch.Happening.removed, Path.mk (pathTo location))
    else none
  appeared ++ vanished

/-- Goes on watching a project. -/
partial def keepWatching (root : Path) (settings : Settings) (policy : Option Fix.Policy)
    (session : Session) (debouncer : Watch.Debouncer) : IO UInt32 := do
  IO.sleep 100
  let moment ← IO.monoMsNow
  let disk ← loadDisk root
  let events := (happenings session.disk disk).flatMap fun (happening, path) =>
    Watch.eventsOf root settings happening [path]
  let debouncer := events.foldl (fun debouncer _ => debouncer.record moment) debouncer
  let session := { session with disk }
  if debouncer.ready moment then
    let scanned ← now
    let fixed ← now
    let ((), after) ← converse (fun typed =>
      ((), { session with console := { input := typed } }.watchPass root settings policy false
        scanned fixed)) [] 0
    saveChanges disk after.disk
    keepWatching root settings policy after debouncer.take.2
  else keepWatching root settings policy session debouncer

/-- Runs a command to its end. -/
def execute (command : Command) : IO UInt32 := do
  let disk ← loadDisk (pathOf command)
  let environment := Command.withFile disk (← knownVariables)
  let setting : Command.Setting := { environment, times := ⟨← now, ← now⟩ }
  let (ending, session) ← converse (fun typed =>
    command.run { disk, console := { input := typed } } setting) [] 0
  saveChanges disk session.disk
  match ending with
  | .failed message =>
    IO.eprintln ("Error: " ++ message)
    return 1
  | .watching root settings policy =>
    keepWatching root settings policy session { window := settings.debounceMillis }
  | .showing snapshot => showSnapshot snapshot
  | other => return other.exitCode.toUInt32

/-- How the program is called. -/
def usage : String :=
  "Usage: deadwatcher [-v] scan PATH [--json]\n" ++
  "       deadwatcher [-v] watch PATH [--dashboard] [--fix POLICY]\n" ++
  "       deadwatcher [-v] fix PATH [--apply-all | --patch-only]\n" ++
  "       deadwatcher [-v] revert PATH TIMESTAMP\n" ++
  "       deadwatcher [-v] dashboard PATH"

end Deadwood.Main

/-- Reads the arguments and runs the command that they stand for. -/
def main (arguments : List String) : IO UInt32 := do
  match Deadwood.Command.parse arguments with
  | .ok command => Deadwood.Main.execute command
  | .error .help =>
    IO.println Deadwood.Main.usage
    return 0
  | .error .usage =>
    IO.eprintln Deadwood.Main.usage
    return 2
