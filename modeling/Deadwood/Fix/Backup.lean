/-
# Backups

Before a file is written for the first time in a run, it is copied to a backup
beside it. The name of a backup tells the file and the run.
-/

import Deadwood.Disk.Basic
import Deadwood.Stamp
import Deadwood.Text.Numeral

namespace Deadwood.Fix

/-! ## Names of backups -/

/-- The mark between the name of a file and the time of a run. -/
def backupMark : List Char := ".bak.".toList

/-- The name of a file and the digits that make up the name of a backup. Neither
is empty, and the name has no line break. -/
def backupParts? (name : List Char) : Option (List Char × List Char) :=
  let digits := (name.reverse.takeWhile Text.isDecimal).reverse
  let front := (name.reverse.dropWhile Text.isDecimal).reverse
  if digits.isEmpty || !backupMark.isSuffixOf front then none
  else
    let own := front.take (front.length - backupMark.length)
    if own.isEmpty || own.contains '\n' then none else some (own, digits)

/-- A backup on a disk. -/
structure Backup where
  path : Path
  /-- The file that it is a copy of. -/
  source : Path
  /-- The digits at the end of its name. -/
  stamp : String
deriving BEq, DecidableEq, Repr, Inhabited

/-- The backup that a path names. -/
def Backup.ofPath? (path : Path) : Option Backup :=
  path.name?.bind fun name =>
    (backupParts? name.toList).map fun (own, digits) =>
      ⟨path, path.withName (String.ofList own), String.ofList digits⟩

/-! ## Editing -/

/-- Writes the files of one run, each behind a backup. -/
structure Editor where
  stamp : Stamp
  /-- The files that have a backup, and those backups. -/
  backups : List (Path × Path) := []
deriving Repr, Inhabited

namespace Editor

/-- The backup of a file in this run. -/
def backupOf? (editor : Editor) (path : Path) : Option Path :=
  (editor.backups.find? (·.1.isSame path)).map (·.2)

/-- Sees to it that a file has a backup in this run. -/
def ensureBackup (editor : Editor) (disk : Disk) (path : Path) :
    Except DiskError Path × Editor × Disk :=
  match editor.backupOf? path with
  | some backup => (.ok backup, editor, disk)
  | none =>
    let backup := path.backup editor.stamp.millis
    match disk.copy path backup with
    | (none, disk) =>
      (.ok backup, { editor with backups := editor.backups ++ [(path, backup)] }, disk)
    | (some error, disk) => (.error error, editor, disk)

/-- Writes a file that has a backup, or gets one now. -/
def overwrite (editor : Editor) (disk : Disk) (path : Path) (content : String) :
    Option DiskError × Editor × Disk :=
  match editor.ensureBackup disk path with
  | (.error error, editor, disk) => (some error, editor, disk)
  | (.ok _, editor, disk) =>
    let (error, disk) := disk.write path content.toUTF8
    (error, editor, disk)

end Editor

end Deadwood.Fix
