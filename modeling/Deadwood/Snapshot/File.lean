/-
# Kept snapshots

The latest snapshot of a project is kept in a file, for later looks at it.
-/

import Deadwood.Discovery
import Deadwood.Json.Record
import Deadwood.Snapshot

namespace Deadwood.Snapshot

/-- Why a snapshot cannot be kept or looked up. -/
inductive FileError
  | cannotCreate (directory : Path)
  | cannotWrite (path : Path)
  | missing (path : Path)
  | malformed (path : Path)
deriving BEq, DecidableEq, Repr, Inhabited

/-- The text of an error. -/
def FileError.message : FileError → String
  | .cannotCreate directory => "Failed to create " ++ directory.text
  | .cannotWrite path => "Failed to write " ++ path.text
  | .missing path => "No snapshot at " ++ path.text ++ ". Run `deadwatcher scan` first."
  | .malformed path => "Malformed snapshot " ++ path.text

/-- Where the snapshot of a project is kept. -/
def pathIn (root : Path) : Path :=
  root.join ⟨snapshotFile⟩

/-- Makes the directory around a path, if the path names one. -/
def makeAround (disk : Disk) (path : Path) : Option FileError × Disk :=
  match path.parent? with
  | none => (none, disk)
  | some directory =>
    let (error, disk) := disk.makePath directory
    (error.map fun _ => .cannotCreate directory, disk)

/-- Keeps a snapshot. -/
def save (snapshot : Snapshot) (path : Path) (disk : Disk) : Option FileError × Disk :=
  match makeAround disk path with
  | (some error, disk) => (some error, disk)
  | (none, disk) =>
    let (error, disk) := disk.write path snapshot.toJson.toPretty.toUTF8
    (error.map fun _ => .cannotWrite path, disk)

/-- Looks a snapshot up. -/
def load (disk : Disk) (path : Path) : Except FileError Snapshot :=
  match disk.readText? path with
  | none => .error (.missing path)
  | some text =>
    match (Json.ofText? text).bind Snapshot.ofJson? with
    | some snapshot => .ok snapshot
    | none => .error (.malformed path)

end Deadwood.Snapshot
