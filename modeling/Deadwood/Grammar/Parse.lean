/-
# Parsing

The loop that advances all readings token by token, drops those that have
fallen behind, repairs when none can go on, and shows the best complete reading
as a syntax tree. Every text has a tree: what fits no rule is set aside in
error nodes.
-/

import Deadwood.Grammar.Recovery
import Deadwood.Grammar.Node

namespace Deadwood.Grammar

namespace Machine

/-! ## Advancing a reading -/

/-- The number of a lookahead's token. Skipped characters have none. -/
def tokenOf (table : Table) (tree : Subtree) : Nat :=
  match tree.head with
  | .token index => index
  | _ => table.tokens.size

/-- Carries out the actions of a state on a token. Completing productions makes
new readings; taking the token, accepting, or repairing ends the turn. -/
def runActions (table : Table) (source : Source) (index state : Nat) (lookahead : Subtree) :
    List Action → Bool → Option Nat → Machine → Machine × Bool × Bool × Option Nat
  | [], reduced, last, machine => (machine, false, reduced, last)
  | action :: rest, reduced, last, machine =>
    match action with
    | .shift true => runActions table source index state lookahead rest reduced last machine
    | .shift false =>
      let r := machine.automaton.move table state (.token (tokenOf table lookahead))
      (({ machine with automaton := r.1 } : Machine).shift table index r.2 lookahead false,
        true, reduced, last)
    | .shiftExtra => (machine.shift table index state lookahead true, true, reduced, last)
    | .reduce production =>
      let (machine, fresh) := machine.reduce table source index production
      runActions table source index state lookahead rest true (fresh.orElse fun _ => last) machine
    | .accept => (machine.accept table source index lookahead, true, reduced, last)
    | .recover => (machine.recover table source index lookahead, true, reduced, last)

/-- Works on a reading with a token at hand until the token is taken, or the
reading ends or has to wait. -/
def advanceWith (table : Table) (source : Source) (index : Nat) :
    Nat → Subtree → Machine → Machine
  | 0, _, machine => machine.halt index
  | fuel + 1, lookahead, machine =>
    let state := (machine.version index).frame.state
    let actions := machine.automaton.actions state (tokenOf table lookahead)
    let (machine, done, reduced, last) :=
      machine.runActions table source index state lookahead actions false none
    if done then machine
    else
      match last with
      | some fresh => advanceWith table source index fuel lookahead (machine.renumber fresh index)
      | none =>
        if reduced then machine.halt index
        else
          let asWord : Option Subtree :=
            match table.word with
            | some word =>
              if lookahead.facts.keyword && tokenOf table lookahead != word &&
                  !(machine.automaton.actions state word).isEmpty then
                some (lookahead.withHead (.token word))
              else none
            | none => none
          match asWord with
          | some word => advanceWith table source index fuel word machine
          | none =>
            if state == 0 then machine.recover table source index lookahead
            else
              machine.onVersion index fun version =>
                { version with status := .paused lookahead, base := version.frame.count }

/-- Advances a reading by one token. -/
def advance (table : Table) (source : Source) (index : Nat) (machine : Machine) : Machine :=
  let version := machine.version index
  let lookahead := Lexer.next table machine.automaton source version version.frame.state
  machine.advanceWith table source index (1000 + 8 * version.frame.depth) lookahead

/-- Advances a reading until it has moved beyond the place that the others have
reached. -/
def advanceBeyond (table : Table) (source : Source) (index : Nat) :
    Nat → Nat → Machine → Machine × Nat
  | 0, last, machine => (machine.halt index, last)
  | fuel + 1, last, machine =>
    if !(machine.version index).isActive then (machine, last)
    else
      let machine := machine.advance table source index
      let place := (machine.version index).frame.place
      if place > last || (index > 0 && place == last) then (machine, place)
      else advanceBeyond table source index fuel last machine

/-- Gives every reading its turn. -/
def advanceAll (table : Table) (source : Source) :
    Nat → Nat → Nat → Machine → Machine × Nat
  | 0, _, last, machine => (machine, last)
  | fuel + 1, index, last, machine =>
    if index ≥ machine.versions.size then (machine, last)
    else
      let (machine, last) := machine.advanceBeyond table source index 1000 last
      advanceAll table source fuel (index + 1) last machine

/-! ## Dropping readings -/

/-- Compares a reading, as it stood, with each earlier one. The number of the
reading to look at next is returned. -/
def condenseAgainst (table : Table) (own : Standing) : Nat → Nat → Nat → Machine → Machine × Nat
  | 0, index, _, machine => (machine, index + 1)
  | fuel + 1, index, other, machine =>
    if other ≥ index then (machine, index + 1)
    else
      let machine := machine.settleBase other
      match compareStandings (machine.standing other) own with
      | .takeFirst => (machine.remove index, index)
      | .preferFirst | .equal =>
        match machine.merge? table other index with
        | some merged => (merged, index)
        | none => condenseAgainst table own fuel index (other + 1) machine
      | .preferSecond =>
        match machine.merge? table other index with
        | some merged => (merged, index)
        | none =>
          let first := machine.version other
          let second := machine.version index
          let swapped := (machine.onVersion other fun _ => second).onVersion index fun _ => first
          condenseAgainst table own fuel index (other + 1) swapped
      | .takeSecond => condenseAgainst table own fuel (index - 1) other (machine.remove other)

/-- Drops halted readings and those that are clearly worse than another, joins
those that came together, and keeps the better ones in front. The least price
of a reading that is not repairing is returned. -/
def condenseFrom (table : Table) : Nat → Nat → Option Nat → Machine → Machine × Option Nat
  | 0, _, least, machine => (machine, least)
  | fuel + 1, index, least, machine =>
    if index ≥ machine.versions.size then (machine, least)
    else if (machine.version index).isHalted then
      condenseFrom table fuel index least (machine.remove index)
    else
      let machine := machine.settleBase index
      let own := machine.standing index
      let least :=
        if own.repairing then least
        else
          match least with
          | some known => some (min known own.cost)
          | none => some own.cost
      let (machine, next) := machine.condenseAgainst table own (2 * machine.versions.size + 2) index 0
      condenseFrom table fuel next least machine

/-- Resumes the best of the waiting readings when it stands in front of all
that can go on, and drops the others that wait. -/
def resumePaused (table : Table) (source : Source) :
    Nat → Nat → Nat → Bool → Option Nat → Machine → Machine × Option Nat
  | 0, _, _, _, least, machine => (machine, least)
  | fuel + 1, index, limit, going, least, machine =>
    if index ≥ limit then (machine, least)
    else
      match (machine.version index).status with
      | .paused lookahead =>
        if !going && machine.accepted < maxVersions then
          let least := some (machine.version index).cost
          let machine := machine.onVersion index fun version => { version with status := .active }
          let machine := machine.handleError table source index lookahead
          resumePaused table source fuel (index + 1) limit true least machine
        else
          resumePaused table source fuel index (limit - 1) going least (machine.remove index)
      | _ => resumePaused table source fuel (index + 1) limit true least machine

/-- Brings the readings into order after a turn. -/
def condense (table : Table) (source : Source) (machine : Machine) : Machine × Option Nat :=
  let (machine, least) := machine.condenseFrom table 1000 0 none
  let machine := { machine with versions := machine.versions.extract 0 maxVersions }
  machine.resumePaused table source 1000 0 machine.versions.size false least

/-! ## The loop -/

/-- Turn after turn, until no reading is left or the finished one is better than
any that could still come. -/
def run (table : Table) (source : Source) : Nat → Nat → Machine → Machine
  | 0, _, machine => machine
  | fuel + 1, last, machine =>
    let (machine, last) := machine.advanceAll table source 100 0 last
    let (machine, least) := machine.condense table source
    let done :=
      match machine.finished, least with
      | some tree, some cost => tree.cost < cost
      | some _, none => true
      | none, _ => false
    if done || machine.versions.isEmpty then machine
    else run table source fuel last machine

end Machine

/-! ## Showing the result -/

namespace Subtree

mutual

/-- Shows a subtree as nodes: a visible one as a node, a hidden one as the nodes
below it. A label or a guise given to a hidden one goes to the nodes below. -/
def nodes (table : Table) (source : Source) (label : Option String) (guise : Option Guise) :
    Subtree → List Node
  | .mk head blankStart start stop facts children =>
    let self := Subtree.mk head blankStart start stop facts children
    let steps := ((facts.production.bind (table.productions[·]?)).map (·.steps)).getD #[]
    let below := nodesOf table source steps 0 children
    if guise.isNone && !self.isVisible table then
      match label with
      | none => below
      | some own => below.map fun node =>
        match node with
        | .mk kind named inner a b c d e f g => .mk kind named (inner.orElse fun _ => some own) a b c d e f g
    else
      let (kind, named) :=
        match guise, head with
        | some shown, _ => (shown.kind, shown.named)
        | none, .token index =>
          let info := table.tokens.getD index default
          (info.name, info.named)
        | none, .rule index => ((table.rules.getD index default).name, true)
        | none, _ => (Node.errorKind, true)
      [.mk kind named label (source.byte start) (source.byte stop) (source.row start)
        (source.row stop) facts.missing (self.cost > 0) below]

/-- Shows the children of a node, each by the step of the production that it
stands for. -/
def nodesOf (table : Table) (source : Source) (steps : Array Step) (step : Nat) :
    List Subtree → List Node
  | [] => []
  | child :: rest =>
    if child.isExtra then
      nodes table source none none child ++ nodesOf table source steps step rest
    else
      let own := steps[step]?
      nodes table source (own.bind (·.label)) (own.bind (·.guise)) child ++
        nodesOf table source steps (step + 1) rest

end

end Subtree

/-- Parses a text. -/
def Table.parse (table : Table) (text : String) : Node :=
  let source := Source.ofString text
  let start : Machine :=
    { automaton := Automaton.start table, versions := #[{ frame := Frame.bottom }] }
  let machine := start.run table source (200 * (source.size + 10)) 0
  match machine.finished with
  | some tree => (tree.nodes table source none none).headD
      (.mk Node.errorKind true none 0 0 0 0 false true [])
  | none => .mk Node.errorKind true none 0 0 0 0 false true []

end Deadwood.Grammar
