/-
# Watching

Which changes to files matter, and when a burst of them has settled.
-/

import Deadwood.Discovery

namespace Deadwood.Watch

/-! ## Events -/

/-- What happened to files. -/
inductive Happening
  | created
  | contentChanged
  | metadataChanged
  | renamed
  | changedSomehow
  | removed
  | accessed
  | unknown
deriving BEq, DecidableEq, Repr, Inhabited

/-- What a happening means for an analysis. -/
inductive EventKind
  | add
  | change
  | unlink
deriving BEq, DecidableEq, Repr, Inhabited

/-- The name of a kind of event. -/
def EventKind.text : EventKind → String
  | .add => "add"
  | .change => "change"
  | .unlink => "unlink"

/-- A change to a file that is analysed. -/
structure Event where
  kind : EventKind
  path : Path
deriving BEq, DecidableEq, Repr, Inhabited

/-- What a happening means, if anything. -/
def EventKind.of? : Happening → Option EventKind
  | .created => some .add
  | .contentChanged => some .change
  | .renamed => some .change
  | .changedSomehow => some .change
  | .removed => some .unlink
  | .metadataChanged => none
  | .accessed => none
  | .unknown => none

/-- Whether changes to a path can change an analysis: it names a file of a known
kind, lies in no directory that the tool writes, and none of its parts is
excluded. -/
def admits (root : Path) (settings : Settings) (path : Path) : Bool :=
  (FileKind.ofPath? path).isSome &&
    !(ownDirectories root settings).any (path.startsWith ·) &&
    !((path.relativeTo? root).getD path).parts.any (settings.excludesDir ·.text)

/-- The events that a happening to some paths stands for. -/
def eventsOf (root : Path) (settings : Settings) (happening : Happening) (paths : List Path) :
    List Event :=
  match EventKind.of? happening with
  | none => []
  | some kind => (paths.filter (admits root settings)).map (⟨kind, ·⟩)

/-! ## Bursts -/

/-- Collects events until none has come for a while. Times are in
milliseconds. -/
structure Debouncer where
  window : Nat
  /-- When the last event came, if any is waiting. -/
  lastEvent : Option Nat := none
  /-- How many events are waiting. -/
  coalesced : Nat := 0
deriving BEq, DecidableEq, Repr, Inhabited

namespace Debouncer

/-- Adds an event. -/
def record (debouncer : Debouncer) (now : Nat) : Debouncer :=
  { debouncer with lastEvent := some now, coalesced := debouncer.coalesced + 1 }

/-- Whether events are waiting. -/
def isPending (debouncer : Debouncer) : Bool :=
  debouncer.lastEvent.isSome

/-- Whether the window has passed since the last event. A time before it counts
as that time. -/
def ready (debouncer : Debouncer) (now : Nat) : Bool :=
  debouncer.lastEvent.any fun last => debouncer.window ≤ now - last

/-- Takes the waiting events: how many there were, and none are left. -/
def take (debouncer : Debouncer) : Nat × Debouncer :=
  (debouncer.coalesced, { debouncer with lastEvent := none, coalesced := 0 })

end Debouncer

end Deadwood.Watch
