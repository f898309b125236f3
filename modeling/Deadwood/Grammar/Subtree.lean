/-
# Trees in the making

While a text is read, its parse is kept in subtrees that remember their exact
extent, blanks in front included, and what their repairs cost. The cost decides
between readings: every repair has a price, and so has every character, line
and node that a repair throws away.
-/

import Deadwood.Grammar.Table

namespace Deadwood.Grammar

/-- What a subtree is: a token, a rule, a repair, or a stretch of input that a
repair under way has skipped. -/
inductive Head
  | token (index : Nat)
  | rule (index : Nat)
  | error
  | skipped
deriving BEq, DecidableEq, Repr, Inhabited

/-- What is known of a subtree besides its head and extent. -/
structure Facts where
  /-- The production that made the node. -/
  production : Option Nat := none
  /-- The subtree may stand anywhere and counts for no step of a production. -/
  extra : Bool := false
  /-- The token was supplied by a repair. -/
  missing : Bool := false
  /-- The token is spelled like a keyword. -/
  keyword : Bool := false
  /-- The price of all repairs inside. -/
  cost : Nat := 0
  weight : Int := 0
  /-- The number of nodes below that will be shown. -/
  descendants : Nat := 0
  /-- The number of nodes directly below that will be shown. -/
  shown : Nat := 0
  /-- The scanner's memory after its last token inside. -/
  memory : Option (List String) := none
  /-- The scanner's memory changed inside. -/
  remembers : Bool := false
deriving Inhabited

/-- A subtree: the place where the blanks in front of it start, and its own
start and stop. -/
inductive Subtree
  | mk (head : Head) (blankStart start stop : Nat) (facts : Facts) (children : List Subtree)
deriving Inhabited

namespace Subtree

/-- What a subtree is. -/
def head : Subtree → Head
  | .mk head _ _ _ _ _ => head

/-- The place where the blanks in front of it start. -/
def blankStart : Subtree → Nat
  | .mk _ blankStart _ _ _ _ => blankStart

/-- The place where it starts. -/
def start : Subtree → Nat
  | .mk _ _ start _ _ _ => start

/-- The place behind its end. -/
def stop : Subtree → Nat
  | .mk _ _ _ stop _ _ => stop

/-- What else is known of it. -/
def facts : Subtree → Facts
  | .mk _ _ _ _ facts _ => facts

/-- The subtrees it is made of. -/
def children : Subtree → List Subtree
  | .mk _ _ _ _ _ children => children

/-- The same subtree with its facts changed. -/
def withFacts (change : Facts → Facts) : Subtree → Subtree
  | .mk head blankStart start stop facts children =>
    .mk head blankStart start stop (change facts) children

/-- The same subtree under another head. -/
def withHead (head : Head) : Subtree → Subtree
  | .mk _ blankStart start stop facts children => .mk head blankStart start stop facts children

/-- The price of a repair. -/
def repairCost : Nat := 500

/-- The price of a supplied token, besides that of the repair. -/
def missingCost : Nat := 110

/-- The price of a node that is thrown away. -/
def skippedNodeCost : Nat := 100

/-- The price of a line end that is thrown away; a byte costs one. -/
def skippedLineCost : Nat := 30

/-- The price of all repairs inside a subtree. -/
def cost (tree : Subtree) : Nat :=
  if tree.facts.missing then missingCost + repairCost else tree.facts.cost

/-- Whether it may stand anywhere. -/
def isExtra (tree : Subtree) : Bool :=
  tree.facts.extra

/-- Whether it holds what a repair set aside. -/
def isError (tree : Subtree) : Bool :=
  tree.head == .error

/-- The end of the input. -/
def isEnd (tree : Subtree) : Bool :=
  tree.head == .token 0

/-- Whether a subtree will be shown as a node of its own. -/
def isVisible (table : Table) (tree : Subtree) : Bool :=
  match tree.head with
  | .token index => (table.tokens.getD index default).visible
  | .rule index => (table.rules.getD index default).visible
  | .error => true
  | .skipped => false

/-- The number of nodes that a subtree contributes to the progress of a parse.
Skipped input counts too, so that skipping is progress. -/
def nodeCount (table : Table) (tree : Subtree) : Nat :=
  tree.facts.descendants + (if tree.isVisible table then 1 else 0) +
    (if tree.head == .skipped then 1 else 0)

/-- Gathers what a node inherits from its children, one child at a time. The
number counts the steps of the production that have been passed. -/
structure Tally where
  facts : Facts
  step : Nat

/-- Adds a child to the tally of a node. -/
def Tally.add (table : Table) (head : Head) (steps : Array Step) (tally : Tally)
    (child : Subtree) : Tally :=
  let facts := tally.facts
  let isRepair := head == .error || head == .skipped
  let visible := child.isVisible table
  let hasChildren := !child.children.isEmpty
  let inherited := if child.head == .skipped then 0 else child.cost
  let thrown :=
    if isRepair && !child.isExtra && !(child.isError && !hasChildren) then
      if visible then skippedNodeCost
      else if hasChildren then skippedNodeCost * child.facts.shown else 0
    else 0
  let guised := !child.isExtra && !child.isEnd &&
    ((steps[tally.step]?).bind (·.guise)).isSome
  let own := if guised || visible then 1 else 0
  { facts := { facts with
      cost := facts.cost + inherited + thrown
      weight := facts.weight + child.facts.weight
      descendants := facts.descendants + child.facts.descendants + own
      shown := facts.shown +
        (if guised || visible then 1 else if hasChildren then child.facts.shown else 0)
      memory := child.facts.memory.orElse fun _ => facts.memory
      remembers := facts.remembers || child.facts.remembers }
    step := if child.isExtra then tally.step else tally.step + 1 }

/-- Makes a node of its children. `place` is where an empty node stands. -/
def node (table : Table) (source : Source) (head : Head) (production : Option Nat)
    (place : Nat) (children : List Subtree) : Subtree :=
  let steps := ((production.bind (table.productions[·]?)).map (·.steps)).getD #[]
  let tally := children.foldl (Tally.add table head steps)
    ⟨{ production := production }, 0⟩
  let blankStart := ((children.head?).map blankStart).getD place
  let start := ((children.head?).map start).getD place
  let stop := ((children.getLast?).map stop).getD place
  let facts :=
    if head == .error || head == .skipped then
      { tally.facts with
        cost := tally.facts.cost + repairCost + (source.byte stop - source.byte start) +
          skippedLineCost * (source.row stop - source.row start) }
    else tally.facts
  .mk head blankStart start stop facts children

/-- Splits the extras off the end of a list of subtrees. -/
def splitTrailingExtras (trees : List Subtree) : List Subtree × List Subtree :=
  let r := trees.reverse.span isExtra
  (r.2.reverse, r.1.reverse)

/-- Whether two subtrees can stand for each other in a parse: the same head
over the same text, or two repairs of any kind. -/
def isEquivalent (first second : Subtree) : Bool :=
  first.head == second.head &&
    ((first.cost > 0 && second.cost > 0) ||
      (first.start - first.blankStart == second.start - second.blankStart &&
        first.stop - first.start == second.stop - second.start &&
        first.children.length == second.children.length &&
        first.isExtra == second.isExtra &&
        first.facts.memory == second.facts.memory))

/-- A number that orders heads. -/
def Head.code (table : Table) : Head → Nat
  | .token index => index
  | .rule index => table.tokens.size + index
  | .error => 65535
  | .skipped => 65534

mutual

/-- Orders two subtrees by their heads, then by the number of their children,
then child by child. -/
def compareTrees (table : Table) : Subtree → Subtree → Ordering
  | .mk head₁ _ _ _ _ children₁, .mk head₂ _ _ _ _ children₂ =>
    (compare (Head.code table head₁) (Head.code table head₂)).then <|
      (compare children₁.length children₂.length).then <|
        compareLists table children₁ children₂

/-- Orders two lists of subtrees by the first difference. -/
def compareLists (table : Table) : List Subtree → List Subtree → Ordering
  | first :: rest₁, second :: rest₂ =>
    (compareTrees table first second).then (compareLists table rest₁ rest₂)
  | _, _ => .eq

end

/-- Whether the second of two readings of one text is the better one: cheaper
repairs, then more weight, then the greater order. Of two repaired readings
with equal price the later wins. -/
def prefersSecond (table : Table) (first second : Subtree) : Bool :=
  if second.cost < first.cost then true
  else if first.cost < second.cost then false
  else if second.facts.weight > first.facts.weight then true
  else if first.facts.weight > second.facts.weight then false
  else if first.cost > 0 then true
  else compareTrees table first second == .gt

end Subtree

end Deadwood.Grammar
