/-
# Reverting

Backups are copied back over the files they were made of: those of one run, or
all of them, newer ones first, so that each file ends as it was at first. The
backups stay.
-/

import Deadwood.Fix.Backup

namespace Deadwood.Revert

open Deadwood.Fix

/-- Directories in which no backups are looked for. -/
def skippedDirs : List String := [".git", "node_modules"]

/-- The backups below a root, in the order of their paths. -/
def findBackups (disk : Disk) (root : Path) : List Backup :=
  (disk.filesBelow root fun _ name => skippedDirs.contains name).filterMap Backup.ofPath?

/-- A number written with digits, as a key for comparing: without leading zeros,
longer is larger. -/
def ageKey (stamp : String) : Nat × String :=
  let digits := String.ofList (stamp.toList.dropWhile (· == '0'))
  (digits.utf8ByteSize, digits)

/-- Whether a stamp is at least as late as another. -/
def isLater (a b : String) : Bool :=
  let (sizeA, digitsA) := ageKey a
  let (sizeB, digitsB) := ageKey b
  sizeB < sizeA || (sizeA == sizeB && digitsB ≤ digitsA)

/-- The word that selects all backups. -/
def allRuns : String := "all"

/-- A file that was put back. -/
structure Restored where
  backup : Path
  restoredTo : Path
deriving BEq, DecidableEq, Repr, Inhabited

/-- What came of reverting. -/
inductive Outcome
  | restored (files : List Restored)
  /-- There was nothing to put back. -/
  | miss (message : String)
deriving BEq, DecidableEq, Repr, Inhabited

/-- The backups of a run, or all with the latest first. -/
def select (stamp : String) (backups : List Backup) : List Backup :=
  if stamp == allRuns then backups.mergeSort fun a b => isLater a.stamp b.stamp
  else backups.filter (·.stamp == stamp)

/-- Copies backups back, one after the other. Those that cannot be copied are
left out. -/
def restore (disk : Disk) : List Backup → List Restored × Disk
  | [] => ([], disk)
  | backup :: others =>
    match disk.copy backup.path backup.source with
    | (none, disk) =>
      let (restored, disk) := restore disk others
      (⟨backup.path, backup.source⟩ :: restored, disk)
    | (some _, disk) => restore disk others

/-- Puts back the files of a run, or of all runs. -/
def run (disk : Disk) (root : Path) (stamp : String) : Outcome × Disk :=
  let backups := findBackups disk root
  let selected := select stamp backups
  if backups.isEmpty then (.miss "No backups found", disk)
  else if selected.isEmpty then (.miss ("No backup found with timestamp " ++ stamp), disk)
  else
    let (restored, disk) := restore disk selected
    (.restored restored, disk)

end Deadwood.Revert
