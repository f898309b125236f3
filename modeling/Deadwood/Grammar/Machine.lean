/-
# Readings side by side

The machine holds the readings of an input that are still alive. It takes
tokens, builds nodes when productions are complete, and joins readings that
have come together. Among readings, the cheaper repairs win, but not at once: a
reading is dropped only when another has been clearly better for a while.
-/

import Deadwood.Grammar.Lexer

namespace Deadwood.Grammar

/-- The readings of an input, the automaton as far as it has been built, and
the best complete reading so far. -/
structure Machine where
  automaton : Automaton
  versions : Array Version
  finished : Option Subtree := none
  accepted : Nat := 0
  /-- The number of frames made so far. -/
  frames : Nat := 0

namespace Machine

/-- The most readings that are followed. -/
def maxVersions : Nat := 6

/-- How many more there may be for a moment. -/
def overflow : Nat := 4

/-- A reading is dropped when another is cheaper by this much, where every node
read since the last repair makes the difference weigh more. -/
def maxCostDifference : Nat := 18 * Subtree.skippedNodeCost

/-! ## Single readings -/

/-- The reading at an index. -/
def version (machine : Machine) (index : Nat) : Version :=
  machine.versions.getD index default

/-- Changes one reading and leaves the others. -/
def onVersion (index : Nat) (change : Version → Version) (machine : Machine) : Machine :=
  { machine with versions := machine.versions.modify index change }

/-- Puts a frame on a reading's stack. The frame of a repair that begins resets
the count of progress. -/
def push (table : Table) (index : Nat) (tree : Option Subtree) (state : Nat)
    (machine : Machine) : Machine :=
  let id := machine.frames + 1
  let change (version : Version) : Version :=
    let frame := version.frame.above table id tree state
    { version with frame, base := if tree.isNone then frame.count else version.base }
  { machine.onVersion index change with frames := id }

/-- Drops a reading; those behind it move up. -/
def remove (index : Nat) (machine : Machine) : Machine :=
  { machine with versions := machine.versions.eraseIdxIfInBounds index }

/-- Ends a reading without dropping it yet. -/
def halt (index : Nat) (machine : Machine) : Machine :=
  machine.onVersion index fun version => { version with status := .halted }

/-- Moves a reading into an earlier one's place. -/
def renumber (origin target : Nat) (machine : Machine) : Machine :=
  if origin == target then machine
  else
    let old := machine.version target
    let new := machine.version origin
    let moved := { new with refuges := new.refuges.orElse fun _ => old.refuges }
    (machine.onVersion target fun _ => moved).remove origin

/-- Copies a reading; the copy's number is returned. -/
def copy (index : Nat) (machine : Machine) : Machine × Nat :=
  ({ machine with versions := machine.versions.push { machine.version index with refuges := none } },
    machine.versions.size)

/-- Joins the second reading into the first where the two can go on as one. -/
def merge? (table : Table) (first second : Nat) (machine : Machine) : Option Machine :=
  let a := machine.version first
  let b := machine.version second
  if first < machine.versions.size && second < machine.versions.size && a.canMerge b then
    some ((machine.onVersion first fun _ => a.merge table b).remove second)
  else none

/-- Joins a reading into the first of the earlier ones that can take it, from
`start` on and leaving out `except`. -/
def mergeBefore (table : Table) (start limit except target : Nat) (machine : Machine) :
    Option Machine :=
  (List.range limit).findSome? fun index =>
    if index < start || index == except then none else machine.merge? table index target

/-! ## Slices -/

/-- What was taken off a stack, and the reading that is left. -/
structure Slice where
  version : Nat
  trees : List Subtree
deriving Inhabited

/-- Adds a slice for a walk. Walks that end at one frame leave one reading, and
their slices stand together. -/
def addSlice (origin : Nat) (state : Machine × Array Slice) (walk : Frame.Walk) :
    Machine × Array Slice :=
  let (machine, slices) := state
  let found := (List.range slices.size).reverse.find? fun index =>
    (machine.version (slices.getD index default).version).frame.id == walk.frame.id
  match found with
  | some index =>
    let version := (slices.getD index default).version
    (machine, slices.insertIdxIfInBounds (index + 1) ⟨version, walk.trees⟩)
  | none =>
    let old := machine.version origin
    let fresh : Version := { frame := walk.frame, base := old.base, memory := old.memory }
    ({ machine with versions := machine.versions.push fresh },
      slices.push ⟨machine.versions.size, walk.trees⟩)

/-- Takes a number of counting subtrees off a reading's stack, once for every
way down; each way leaves a new reading. -/
def pop (index count : Nat) (machine : Machine) : Machine × Array Slice :=
  ((machine.version index).frame.walksOfCount count).foldl (addSlice index) (machine, #[])

/-! ## Comparing readings -/

/-- How a reading stands. -/
structure Standing where
  cost : Nat
  progress : Nat
  weight : Int
  repairing : Bool

/-- How two readings compare: the better one may be taken at once, or only be
preferred. -/
inductive Comparison
  | takeFirst
  | preferFirst
  | equal
  | preferSecond
  | takeSecond
deriving BEq, DecidableEq

/-- Lowers the base of a reading's progress to what is left of it. -/
def settleBase (index : Nat) (machine : Machine) : Machine :=
  machine.onVersion index fun version =>
    { version with base := min version.base version.frame.count }

/-- How a reading stands against the others. -/
def standing (index : Nat) (machine : Machine) : Standing :=
  let version := machine.version index
  { cost := version.cost + (if version.isPaused then Subtree.skippedNodeCost else 0)
    progress := version.progress
    weight := version.frame.weight
    repairing := version.isPaused || version.frame.state == 0 }

/-- Compares two readings. One that is not repairing is better than one that
is; otherwise the cheaper is better, and equal prices are told apart by
weight. -/
def compareStandings (first second : Standing) : Comparison :=
  if !first.repairing && second.repairing then
    if first.cost < second.cost then .takeFirst else .preferFirst
  else if first.repairing && !second.repairing then
    if second.cost < first.cost then .takeSecond else .preferSecond
  else if first.cost < second.cost then
    if (second.cost - first.cost) * (1 + first.progress) > maxCostDifference then .takeFirst
    else .preferFirst
  else if second.cost < first.cost then
    if (first.cost - second.cost) * (1 + second.progress) > maxCostDifference then .takeSecond
    else .preferSecond
  else if first.weight > second.weight then .preferFirst
  else if second.weight > first.weight then .preferSecond
  else .equal

/-- Whether another reading, at the same place or beyond, is better than this
one would be at the given price. -/
def betterExists (index : Nat) (repairing : Bool) (cost : Nat) (machine : Machine) : Bool :=
  let own := machine.version index
  let done :=
    match machine.finished with
    | some tree => tree.cost ≤ cost
    | none => false
  let status : Standing :=
    { cost, progress := own.progress, weight := own.frame.weight, repairing }
  done || (List.range machine.versions.size).any fun other =>
    let version := machine.version other
    if other == index || !version.isActive || version.frame.place < own.frame.place then false
    else
      match compareStandings status (machine.standing other) with
      | .takeSecond => true
      | .preferSecond => version.canMerge own
      | _ => false

/-! ## Taking tokens and building nodes -/

/-- Takes a token. -/
def shift (table : Table) (index state : Nat) (token : Subtree) (extra : Bool)
    (machine : Machine) : Machine :=
  let taken := if token.children.isEmpty then token.withFacts fun f => { f with extra } else token
  let machine := machine.push table index (some taken) state
  match taken.facts.memory with
  | some memory => machine.onVersion index fun version => { version with memory }
  | none => machine

/-- The state after a rule in a state. -/
def moveTo (table : Table) (state rule : Nat) (machine : Machine) : Machine × Nat :=
  let r := machine.automaton.move table state (.rule rule)
  ({ machine with automaton := r.1 }, r.2)

/-- The better of two ways to make one node: its children and the extras behind
them. -/
def chooseChildren (table : Table) (source : Source) (head : Head) (production : Nat)
    (place : Nat) (best : List Subtree × List Subtree) (trees : List Subtree) :
    List Subtree × List Subtree :=
  let next := Subtree.splitTrailingExtras trees
  let make (children : List Subtree) := Subtree.node table source head (some production) place children
  if Subtree.prefersSecond table (make best.1) (make next.1) then next else best

/-- Builds the node of one group of slices, all of which leave one reading, and
puts it on that reading's stack. The number counts readings removed since the
slices were made. -/
def reduceGroup (table : Table) (source : Source) (index production : Nat) (limit : Nat)
    (state : Machine × Nat) (group : Nat × List (List Subtree)) : Machine × Nat :=
  let (machine, removed) := state
  let own := table.productions.getD production default
  let target := group.1 - removed
  if target > limit then (machine.remove target, removed + 1)
  else
    let head := Head.rule own.head
    let place := (machine.version target).frame.place
    let first := Subtree.splitTrailingExtras (group.2.headD [])
    let best := group.2.tail.foldl (chooseChildren table source head production place) first
    let node := (Subtree.node table source head (some production) place best.1).withFacts
      fun facts => { facts with weight := facts.weight + own.weight }
    let (machine, next) := machine.moveTo table (machine.version target).frame.state own.head
    let machine := machine.push table target (some node) next
    let machine := best.2.foldl (fun machine extra => machine.push table target (some extra) next)
      machine
    match machine.mergeBefore table 0 target index target with
    | some merged => (merged, removed + 1)
    | none => (machine, removed)

/-- The slices that leave one reading, together. -/
def groupSlices (slices : Array Slice) : List (Nat × List (List Subtree)) :=
  slices.toList.foldr
    (fun slice groups =>
      match groups with
      | (version, trees) :: rest =>
        if version == slice.version then (version, slice.trees :: trees) :: rest
        else (slice.version, [slice.trees]) :: groups
      | [] => [(slice.version, [slice.trees])])
    []

/-- Completes a production. The reading stays as it was; for every way down a
new one holds the node, unless it joined an earlier reading. The number of the
first new reading is returned. -/
def reduce (table : Table) (source : Source) (index production : Nat) (machine : Machine) :
    Machine × Option Nat :=
  let before := machine.versions.size
  let halted := (machine.versions.filter (·.isHalted)).size
  let count := (table.productions.getD production default).steps.size
  let (machine, slices) := machine.pop index count
  let limit := maxVersions + overflow + halted
  let (machine, _) := (groupSlices slices).foldl
    (reduceGroup table source index production limit) (machine, 0)
  (machine, if machine.versions.size > before then some before else none)

/-- Ends a reading at the end of the input. The last subtree that is no extra
becomes the root, and what stands around it becomes its children too. -/
def accept (table : Table) (source : Source) (index : Nat) (ending : Subtree)
    (machine : Machine) : Machine :=
  let machine := machine.push table index (some ending) 1
  let walks := (machine.version index).frame.walksToBottom
  let root? (trees : List Subtree) : Option Subtree :=
    match trees.reverse.span Subtree.isExtra with
    | (_, []) => none
    | (after, main :: before) =>
      some (Subtree.node table source main.head main.facts.production main.blankStart
        (before.reverse ++ main.children ++ after.reverse))
  let machine := walks.foldl
    (fun machine walk =>
      match root? walk.trees with
      | none => machine
      | some root =>
        let finished :=
          match machine.finished with
          | none => root
          | some old => if Subtree.prefersSecond table old root then root else old
        { machine with finished := some finished, accepted := machine.accepted + 1 })
    machine
  machine.halt index

end Machine

end Deadwood.Grammar
