/-
# Repairs

A reading that cannot take the next token is repaired in one of three ways. A
single missing token may be supplied, if the token at hand then completes what
came before. What was read since some earlier state may be set aside as an
error, if that state can take the token at hand. Or the token itself is skipped.
All ways are followed side by side, and their prices decide.
-/

import Deadwood.Grammar.Machine

namespace Deadwood.Grammar.Machine

/-! ## Reductions that could come -/

/-- The reductions of a state on some tokens, each rule and length once, and
whether some token could be taken. -/
def possibleReductions (table : Table) (machine : Machine) (state : Nat) (tokens : List Nat) :
    List Nat × Bool :=
  let length (production : Nat) : Nat := (table.productions.getD production default).steps.size
  let head (production : Nat) : Nat := (table.productions.getD production default).head
  tokens.foldl
    (fun acc token =>
      (machine.automaton.actions state token).foldl
        (fun (found, shifts) action =>
          match action with
          | .shift again => (found, shifts || !again)
          | .recover => (found, true)
          | .reduce production =>
            if length production == 0 ||
                found.any (fun old => head old == head production && length old == length production)
            then (found, shifts)
            else (found ++ [production], shifts)
          | _ => (found, shifts))
        acc)
    ([], false)

/-- Completes every production that could be completed, on any token or on the
given one, starting from a reading and going on with the readings that come of
it. Tells whether one of them could take the token. -/
def reduceAllFrom (table : Table) (source : Source) (token : Option Nat) (origin first : Nat) :
    Nat → Nat → Nat → Bool → Machine → Machine × Bool
  | 0, _, _, shifts, machine => (machine, shifts)
  | fuel + 1, round, index, shifts, machine =>
    let total := machine.versions.size
    if index ≥ total then (machine, shifts)
    else
      match machine.mergeBefore table first index index index with
      | some merged => reduceAllFrom table source token origin first fuel (round + 1) index shifts merged
      | none =>
        let state := (machine.version index).frame.state
        let tokens :=
          match token with
          | some own => [own]
          | none => (List.range table.tokens.size).drop 1
        let (productions, shiftsHere) := possibleReductions table machine state tokens
        let (machine, last) := productions.foldl
          (fun (machine, _) production => machine.reduce table source index production)
          (machine, none)
        let after := if index == origin then total else index + 1
        if shiftsHere then
          reduceAllFrom table source token origin first fuel (round + 1) after true machine
        else
          match last with
          | some fresh =>
            if round < maxVersions then
              reduceAllFrom table source token origin first fuel (round + 1) index shifts
                (machine.renumber fresh index)
            else if token.isSome then
              reduceAllFrom table source token origin first fuel (round + 1) after shifts
                (machine.remove index)
            else reduceAllFrom table source token origin first fuel (round + 1) after shifts machine
          | none =>
            if token.isSome then
              reduceAllFrom table source token origin first fuel (round + 1) after shifts
                (machine.remove index)
            else reduceAllFrom table source token origin first fuel (round + 1) after shifts machine

/-- Completes every production that could be completed in a reading. -/
def reduceAll (table : Table) (source : Source) (token : Option Nat) (index : Nat)
    (machine : Machine) : Machine × Bool :=
  reduceAllFrom table source token index machine.versions.size 1000 0 index false machine

/-! ## Setting aside and skipping -/

/-- The repair on top of a stack, taken off it. -/
def popError (index : Nat) (machine : Machine) : Machine × List Subtree :=
  let error? (link : Option Subtree × Frame) : Option (Subtree × Frame) :=
    match link with
    | (some tree, below) => if tree.isError then some (tree, below) else none
    | _ => none
  match (machine.version index).frame.links.findSome? error? with
  | some (tree, below) =>
    (machine.onVersion index fun version => { version with frame := below }, [tree])
  | none => (machine, [])

/-- Sets aside one slice as an error in the state that is left. -/
def setAside (table : Table) (source : Source) (goal : Nat) (machine : Machine) (slice : Slice) :
    Machine :=
  let (machine, errors) := machine.popError slice.version
  let trees := errors.flatMap Subtree.children ++ slice.trees
  let (inside, after) := Subtree.splitTrailingExtras trees
  let place := (machine.version slice.version).frame.place
  let machine :=
    if inside.isEmpty then machine
    else
      let error := (Subtree.node table source .error none place inside).withFacts
        fun facts => { facts with extra := true }
      machine.push table slice.version (some error) goal
  after.foldl (fun machine extra => machine.push table slice.version (some extra) goal) machine

/-- Goes back to a state below, setting aside what was read since. -/
def resumeAt (table : Table) (source : Source) (index depth goal : Nat) (machine : Machine) :
    Machine × Bool :=
  let (machine, slices) := machine.pop index depth
  slices.foldl
    (fun (state : Machine × Bool × Option Nat) slice =>
      let (machine, found, previous) := state
      if previous == some slice.version then state
      else if (machine.version slice.version).frame.state != goal then
        (machine.halt slice.version, found, previous)
      else (machine.setAside table source goal slice, true, some slice.version))
    (machine, false, none)
  |> fun (machine, found, _) => (machine, found)

/-- Looks for a state below that can take the token, nearest first. -/
def resumeBelow (table : Table) (source : Source) (index : Nat) (lookahead : Subtree)
    (previous : Nat) (progress cost place : Nat) :
    List Refuge → Machine → Machine × Bool
  | [], machine => (machine, false)
  | refuge :: rest, machine =>
    let token :=
      match lookahead.head with
      | .token index => index
      | _ => 0
    if refuge.state == 0 || refuge.place == place then
      resumeBelow table source index lookahead previous progress cost place rest machine
    else
      let depth := if progress > 0 then refuge.depth + 1 else refuge.depth
      let wouldMerge := (List.range previous).any fun other =>
        let version := machine.version other
        version.frame.state == refuge.state && version.frame.place == place
      if wouldMerge then
        resumeBelow table source index lookahead previous progress cost place rest machine
      else
        let newCost := cost + refuge.depth * Subtree.skippedNodeCost +
          (source.byte place - source.byte refuge.place) +
          (source.row place - source.row refuge.place) * Subtree.skippedLineCost
        if machine.betterExists index false newCost then (machine, false)
        else if Lexer.isValid machine.automaton refuge.state token then
          match machine.resumeAt table source index depth refuge.state with
          | (resumed, true) => (resumed, true)
          | (failed, false) =>
            resumeBelow table source index lookahead previous progress cost place rest failed
        else resumeBelow table source index lookahead previous progress cost place rest machine

/-- Removes the readings that are not active, from a number on. -/
def removeInactive (start : Nat) (machine : Machine) : Machine :=
  { machine with
    versions := (machine.versions.extract 0 start) ++
      (machine.versions.extract start machine.versions.size).filter (·.isActive) }

/-- Skips a token: it joins what the repair under way has skipped before. -/
def skipToken (table : Table) (source : Source) (index progress : Nat) (lookahead : Subtree)
    (machine : Machine) : Machine :=
  let isExtra : Bool :=
    match lookahead.head with
    | .token token => (machine.automaton.actions 1 token).getLast? == some .shiftExtra
    | _ => false
  let lookahead := if isExtra then lookahead.withFacts fun f => { f with extra := true } else lookahead
  let skipped := Subtree.node table source .skipped none lookahead.start [lookahead]
  let (machine, skipped) :=
    if progress > 0 then
      let (machine, slices) := machine.pop index 1
      match slices[0]? with
      | none => (machine, skipped)
      | some slice =>
        let machine := { machine with versions := machine.versions.extract 0 (slice.version + 1) }
        (machine.renumber slice.version index,
          Subtree.node table source .skipped none lookahead.start (slice.trees ++ [skipped]))
    else (machine, skipped)
  let machine := machine.push table index (some skipped) 0
  match lookahead.facts.memory with
  | some memory => machine.onVersion index fun version => { version with memory }
  | none => machine

/-- Repairs a reading at a token it cannot take: goes back to a state below that
can, and besides skips the token. At the end of the input everything read so
far becomes one error. -/
def recover (table : Table) (source : Source) (index : Nat) (lookahead : Subtree)
    (machine : Machine) : Machine :=
  let machine := machine.settleBase index
  let previous := machine.versions.size
  let own := machine.version index
  let place := own.frame.place
  let progress := own.progress
  let cost := own.cost
  let (machine, recovered) :=
    match own.refuges with
    | some refuges =>
      if lookahead.isError then (machine, false)
      else resumeBelow table source index lookahead previous progress cost place refuges.toList machine
    | none => (machine, false)
  let machine := machine.removeInactive previous
  if lookahead.isEnd then
    let empty := Subtree.node table source .error none place []
    (machine.push table index (some empty) 1).accept table source index lookahead
  else if recovered && machine.versions.size > maxVersions then machine.halt index
  else if recovered && lookahead.facts.remembers then machine.halt index
  else
    let newCost := cost + Subtree.skippedNodeCost +
      (source.byte lookahead.stop - source.byte lookahead.blankStart) +
      (source.row lookahead.stop - source.row lookahead.blankStart) * Subtree.skippedLineCost
    if machine.betterExists index false newCost then machine.halt index
    else machine.skipToken table source index progress lookahead

/-! ## Supplying a token -/

/-- Whether a state completes a production before a token. At the end of the
input it is enough that such a rule can stand there at all. -/
def reducesOn (table : Table) (machine : Machine) (state token : Nat) : Bool :=
  match machine.automaton.actions state token with
  | .reduce _ :: _ => true
  | _ =>
    token == 0 &&
      (machine.automaton.states.getD state default).items.any fun item =>
        (Automaton.nextStep? table item).isNone &&
          table.closing.contains (Automaton.headOf table item.production)

/-- Tries to supply each token in turn; the first that lets the token at hand be
taken is kept, in a copy of the reading. -/
def supplyToken (table : Table) (source : Source) (index ahead : Nat) :
    List Nat → Machine → Machine × Bool
  | [], machine => (machine, false)
  | token :: rest, machine =>
    let own := (machine.version index).frame
    let (automaton, next) := machine.automaton.afterToken table own.state token
    let machine := { machine with automaton }
    if next == 0 || next == own.state || !machine.reducesOn table next ahead then
      supplyToken table source index ahead rest machine
    else
      let (machine, target) := machine.copy index
      let missing := Subtree.mk (.token token) own.place own.place own.place { missing := true } []
      let machine := machine.push table target (some missing) next
      match machine.reduceAll table source (if ahead == 0 then none else some ahead) target with
      | (supplied, true) => (supplied, true)
      | (failed, false) => supplyToken table source index ahead rest failed

/-- Begins a repair in each of the readings that the paused one could have
become, after trying to supply a token in one of them. -/
def beginRepairs (table : Table) (source : Source) (index previous limit ahead : Nat) :
    Nat → Nat → Bool → Machine → Machine
  | 0, _, _, machine => machine
  | fuel + 1, current, supplied, machine =>
    if current ≥ limit then machine
    else
      let (machine, supplied) :=
        if supplied then (machine, true)
        else machine.supplyToken table source current ahead ((List.range table.tokens.size).drop 1)
      let machine := machine.push table current none 0
      let after := if current == index then previous else current + 1
      beginRepairs table source index previous limit ahead fuel after supplied machine

/-- Joins the readings that follow a number into a reading, as often as told. -/
def mergeRepairs (table : Table) (index next : Nat) : Nat → Machine → Machine
  | 0, machine => machine
  | times + 1, machine =>
    match machine.merge? table index next with
    | some merged => mergeRepairs table index next times merged
    | none => machine

/-- Repairs a reading that waits at a token. -/
def handleError (table : Table) (source : Source) (index : Nat) (lookahead : Subtree)
    (machine : Machine) : Machine :=
  let previous := machine.versions.size
  let (machine, _) := machine.reduceAll table source none index
  let limit := machine.versions.size
  let ahead :=
    match lookahead.head with
    | .token token => token
    | _ => table.tokens.size
  let machine := machine.beginRepairs table source index previous limit ahead (limit + 2) index false
  let machine := machine.mergeRepairs table index previous (limit - previous)
  let machine := machine.onVersion index fun version =>
    { version with refuges := some version.frame.refuges }
  machine.recover table source index lookahead

end Deadwood.Grammar.Machine
