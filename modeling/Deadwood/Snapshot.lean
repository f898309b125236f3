/-
# Snapshots

The findings of the latest pass, numbered by generation. A slot holds the
current snapshot; publishing replaces it as a whole, and whoever took the one
before keeps it.
-/

import Deadwood.Findings

namespace Deadwood

/-- The findings of a pass. -/
structure Snapshot where
  /-- How many passes there have been; none before the first. -/
  generation : Nat := 0
  /-- The time of the pass in milliseconds; empty before the first. -/
  stamp : String := ""
  findings : Findings := {}
deriving BEq, DecidableEq, Repr, Inhabited

/-- The snapshot that takes the place of another. -/
def Snapshot.next (snapshot : Snapshot) (findings : Findings) (stamp : String) : Snapshot :=
  ⟨snapshot.generation + 1, stamp, findings⟩

/-- A slot with the current snapshot, and a reader that was given it at first. -/
structure SnapshotSlot where
  current : Snapshot := {}
  /-- What the reader sees, if the slot is no longer the one it was given. -/
  left : Option Snapshot := none
deriving BEq, DecidableEq, Repr, Inhabited

namespace SnapshotSlot

/-- Puts new findings in place of the current ones. -/
def publish (slot : SnapshotSlot) (findings : Findings) (stamp : String) : SnapshotSlot :=
  { slot with current := slot.current.next findings stamp }

/-- Begins a new slot with a snapshot. The reader stays with the one it has. -/
def seed (slot : SnapshotSlot) (snapshot : Snapshot) : SnapshotSlot :=
  ⟨snapshot, some (slot.left.getD slot.current)⟩

/-- What the reader sees. -/
def seen (slot : SnapshotSlot) : Snapshot :=
  slot.left.getD slot.current

end SnapshotSlot

end Deadwood
