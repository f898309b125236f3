/-
# Parse stacks

A parse may follow several readings at once. Each keeps a stack of frames; two
readings that reach the same state at the same place share it from there on, so
a frame may have several frames below it. Taking frames off such a stack gives
one slice for every way down.
-/

import Deadwood.Grammar.Automaton
import Deadwood.Grammar.Subtree

namespace Deadwood.Grammar

/-- A frame: a state, the place reached, and the totals of what lies below,
with one link for every way down. A link without a subtree marks the beginning
of a repair. -/
inductive Frame
  | mk (id state place cost count : Nat) (weight : Int) (depth : Nat)
      (links : List (Option Subtree × Frame))
deriving Inhabited

namespace Frame

/-- The number that tells frames apart. -/
def id : Frame → Nat
  | .mk id _ _ _ _ _ _ _ => id

/-- The state of the automaton. -/
def state : Frame → Nat
  | .mk _ state _ _ _ _ _ _ => state

/-- The place in the text that was reached. -/
def place : Frame → Nat
  | .mk _ _ place _ _ _ _ _ => place

/-- The price of all repairs below. -/
def cost : Frame → Nat
  | .mk _ _ _ cost _ _ _ _ => cost

/-- The number of nodes below. -/
def count : Frame → Nat
  | .mk _ _ _ _ count _ _ _ => count

/-- The sum of the weights of what lies below. -/
def weight : Frame → Int
  | .mk _ _ _ _ _ weight _ _ => weight

/-- The number of frames below on the longest way down. -/
def depth : Frame → Nat
  | .mk _ _ _ _ _ _ depth _ => depth

/-- The ways down, each with the subtree passed on it. -/
def links : Frame → List (Option Subtree × Frame)
  | .mk _ _ _ _ _ _ _ links => links

/-- The frame under all others. -/
def bottom : Frame :=
  .mk 0 1 0 0 0 0 0 []

/-- A frame on top of another. -/
def above (table : Table) (id : Nat) (below : Frame) (tree : Option Subtree) (state : Nat) : Frame :=
  match tree with
  | none =>
    .mk id state below.place below.cost below.count below.weight (below.depth + 1) [(none, below)]
  | some own =>
    .mk id state own.stop (below.cost + own.cost) (below.count + own.nodeCount table)
      (below.weight + own.facts.weight) (below.depth + 1) [(some own, below)]

/-- The most ways down that a frame may have. -/
def maxLinks : Nat := 8

/-- Whether two optional subtrees can stand for each other. -/
def sameTree : Option Subtree → Option Subtree → Bool
  | none, none => true
  | some first, some second => first.isEquivalent second
  | _, _ => false

/-- Adds a way down to a frame. Where an equivalent subtree already leads to
the same frame, the heavier of the two stays; where it leads to a frame that
could be shared, the ways down are joined there. -/
def addLink (table : Table) : Nat → Frame → Option Subtree × Frame → Frame
  | 0, frame, _ => frame
  | fuel + 1, .mk id state place cost count weight depth links, (tree, target) =>
    let self := Frame.mk id state place cost count weight depth links
    if target.id == id then self
    else
      let treeWeight := ((tree.map (·.facts.weight)).getD 0)
      let twin? := links.findIdx? fun link => sameTree link.1 tree && link.2.id == target.id
      let peer? := links.findIdx? fun link =>
        sameTree link.1 tree && link.2.state == target.state && link.2.place == target.place &&
          link.2.cost == target.cost
      match twin?, peer? with
      | some index, _ =>
        match links[index]? with
        | some (old, below) =>
          if treeWeight > ((old.map (·.facts.weight)).getD 0) then
            .mk id state place cost count (target.weight + treeWeight) depth
              (links.set index (tree, below))
          else self
        | none => self
      | none, some index =>
        match links[index]? with
        | some (old, below) =>
          let joined := target.links.foldl (addLink table fuel) below
          .mk id state place cost count (max weight (target.weight + treeWeight))
            (max depth (joined.depth + 1)) (links.set index (old, joined))
        | none => self
      | none, none =>
        if links.length ≥ maxLinks then self
        else
          let treeCount := ((tree.map (·.nodeCount table)).getD 0)
          .mk id state place cost (max count (target.count + treeCount))
            (max weight (target.weight + treeWeight)) (max depth (target.depth + 1))
            (links ++ [(tree, target)])

/-- A way down a stack: the frame reached, the subtrees passed, in the order of
the text, and how many of them count. -/
structure Walk where
  frame : Frame
  trees : List Subtree
  count : Nat

/-- One step of a walk along a link. Extras do not count; the beginning of a
repair does. -/
def Walk.along (walk : Walk) (link : Option Subtree × Frame) : Walk :=
  match link.1 with
  | none => ⟨link.2, walk.trees, walk.count + 1⟩
  | some tree =>
    ⟨link.2, tree :: walk.trees, if tree.isExtra then walk.count else walk.count + 1⟩

/-- The most ways down that are followed at once. -/
def maxWalks : Nat := 64

/-- What a walk does where it stands. -/
structure Halt where
  /-- Yield what was passed. -/
  yield : Bool
  /-- Go no further. -/
  stop : Bool

/-- One round of all walks: each yields, stops, or takes a step. A walk that
meets several links takes the first itself and sends others along the rest. -/
def walkRound {σ : Type} (decide : σ → Walk → σ × Halt) (walks : List Walk) (state : σ) :
    σ × List Walk × List Walk :=
  let step (acc : σ × List Walk × List Walk × List Walk) (walk : Walk) :
      σ × List Walk × List Walk × List Walk :=
    let (state, kept, sent, done) := acc
    let (state, halt) := decide state walk
    let done := if halt.yield then walk :: done else done
    match walk.frame.links with
    | [] => (state, kept, sent, done)
    | first :: rest =>
      if halt.stop then (state, kept, sent, done)
      else
        let room := maxWalks - (kept.length + sent.length)
        (state, walk.along first :: kept, ((rest.take room).map walk.along).reverse ++ sent, done)
  let r := walks.foldl step (state, [], [], [])
  (r.1, r.2.1.reverse ++ r.2.2.1.reverse, r.2.2.2.reverse)

/-- Walks down until every walk has stopped; the yields in order. -/
def walkDown {σ : Type} (decide : σ → Walk → σ × Halt) : Nat → List Walk → σ → σ × List Walk
  | 0, _, state => (state, [])
  | _, [], state => (state, [])
  | fuel + 1, walks, state =>
    let (state, next, done) := walkRound decide walks state
    let (state, later) := walkDown decide fuel next state
    (state, done ++ later)

/-- The walks that pass a number of counting subtrees. -/
def walksOfCount (frame : Frame) (count : Nat) : List Walk :=
  (walkDown (fun (_ : Unit) walk => ((), ⟨walk.count == count, walk.count == count⟩))
    (frame.depth + 2) [⟨frame, [], 0⟩] ()).2

/-- The walks that reach the bottom. -/
def walksToBottom (frame : Frame) : List Walk :=
  (walkDown (fun (_ : Unit) walk => ((), ⟨walk.frame.links.isEmpty, walk.frame.links.isEmpty⟩))
    (frame.depth + 2) [⟨frame, [], 0⟩] ()).2

end Frame

/-- Where a repair could resume: a state below, the place reached there, and how
many subtrees lie above. -/
structure Refuge where
  place : Nat
  depth : Nat
  state : Nat

/-- How deep a repair looks for a state to resume in. -/
def maxRefugeDepth : Nat := 16

/-- The states below a frame, nearest first; each state once at each depth. -/
def Frame.refuges (frame : Frame) : Array Refuge :=
  let decide (found : Array Refuge) (walk : Frame.Walk) : Array Refuge × Frame.Halt :=
    if walk.count > maxRefugeDepth then (found, ⟨false, true⟩)
    else if found.any (fun old => old.depth == walk.count && old.state == walk.frame.state) then
      (found, ⟨false, false⟩)
    else (found.push ⟨walk.frame.place, walk.count, walk.frame.state⟩, ⟨false, false⟩)
  (Frame.walkDown decide (frame.depth + 2) [⟨frame, [], 0⟩] #[]).1

/-- Whether a reading goes on, is given up, or waits at a token it cannot take. -/
inductive Status
  | active
  | halted
  | paused (lookahead : Subtree)

/-- One of the readings of the input. -/
structure Version where
  frame : Frame
  status : Status := .active
  /-- The node count when the last repair began. -/
  base : Nat := 0
  /-- What the scanner remembers. -/
  memory : List String := []
  /-- Where the repair under way could resume. -/
  refuges : Option (Array Refuge) := none

instance : Inhabited Version := ⟨{ frame := Frame.bottom }⟩

namespace Version

/-- Whether a reading goes on. -/
def isActive (version : Version) : Bool :=
  match version.status with
  | .active => true
  | _ => false

/-- Whether a reading has ended. -/
def isHalted (version : Version) : Bool :=
  match version.status with
  | .halted => true
  | _ => false

/-- Whether a reading waits for the others before it is repaired. -/
def isPaused (version : Version) : Bool :=
  match version.status with
  | .paused _ => true
  | _ => false

/-- The price of a reading so far. A repair that has only begun is charged
already. -/
def cost (version : Version) : Nat :=
  let begun := version.frame.state == 0 &&
    match version.frame.links with
    | (none, _) :: _ => true
    | _ => false
  version.frame.cost + (if version.isPaused || begun then Subtree.repairCost else 0)

/-- The number of nodes read since the last repair began. -/
def progress (version : Version) : Nat :=
  version.frame.count - version.base

/-- Whether two readings can go on as one. -/
def canMerge (first second : Version) : Bool :=
  first.isActive && second.isActive && first.frame.state == second.frame.state &&
    first.frame.place == second.frame.place && first.frame.cost == second.frame.cost &&
    first.memory == second.memory

/-- One reading for two. -/
def merge (table : Table) (first second : Version) : Version :=
  let frame := second.frame.links.foldl
    (Frame.addLink table (first.frame.depth + second.frame.depth + 2)) first.frame
  { first with frame, base := if frame.state == 0 then frame.count else first.base }

/-- Whether a reading has taken some text since its last repair began. -/
def hasAdvanced (version : Version) : Bool :=
  if version.frame.cost == 0 then true
  else go version.base (version.frame.depth + 1) version.frame
where
  go (base : Nat) : Nat → Frame → Bool
    | 0, _ => false
    | fuel + 1, frame =>
      match frame.links with
      | (some tree, below) :: _ =>
        if tree.stop > tree.blankStart then true
        else if frame.count > base && tree.cost == 0 then go base fuel below
        else false
      | _ => false

end Version

end Deadwood.Grammar
