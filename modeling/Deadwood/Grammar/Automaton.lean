/-
# The automaton of a grammar

A state is a set of productions in progress, each with the tokens that may
follow it. States are made when a parse first reaches them, so only the part of
the automaton that an input needs is ever built. Where two actions compete for
one token, ranks and sides decide; what they leave open stays open, and the
parser follows every remaining action.
-/

import Std.Data.HashMap
import Deadwood.Grammar.Table

namespace Deadwood.Grammar

/-- A production, how far it has been read, and the tokens that may follow. -/
structure Item where
  production : Nat
  place : Nat
  ahead : TokenSet
deriving BEq, Hashable, Repr

/-- What a state does with a token. -/
inductive Action
  /-- Take the token. With `again`, only to lengthen a repetition that the
  competing reduction lengthens as well. -/
  | shift (again : Bool)
  /-- Take a token that may stand anywhere, and stay. -/
  | shiftExtra
  | reduce (production : Nat)
  | accept
  | recover
deriving BEq, Repr

/-- The items of a state and its action on every token. -/
structure State where
  items : Array Item
  actions : Array (List Action)

instance : Inhabited State := ⟨⟨#[], #[]⟩⟩

/-- The states made so far. State zero repairs errors, state one is the start. -/
structure Automaton where
  states : Array State
  known : Std.HashMap (Array Item) Nat
  moves : Std.HashMap (Nat × Symbol) Nat

namespace Automaton

/-! ## Items -/

/-- The production that reads the whole input stands behind all others. -/
def wholeInput (table : Table) : Nat :=
  table.productions.size

/-- The steps of a production, also of the one that reads the whole input. -/
def stepsOf (table : Table) (production : Nat) : Array Step :=
  match table.productions[production]? with
  | some own => own.steps
  | none => #[⟨.rule 0, .plain, none, none, none⟩]

/-- The step that an item reads next. -/
def nextStep? (table : Table) (item : Item) : Option Step :=
  (stepsOf table item.production)[item.place]?

/-- The step that an item read last. -/
def lastStep? (table : Table) (item : Item) : Option Step :=
  if item.place = 0 then none else (stepsOf table item.production)[item.place - 1]?

/-- The rank of what an item has read. -/
def rankOf (table : Table) (item : Item) : Rank :=
  ((lastStep? table item).map (·.rank)).getD .plain

/-- Adds the productions that open at the items of a set. Opened productions
come first, in order, and then the items themselves. -/
def close (table : Table) (kernel : Array Item) : Array Item :=
  let opened := kernel.foldl
    (fun (sets : Array TokenSet) item =>
      match nextStep? table item with
      | some ⟨.rule index, _, _, _, _⟩ =>
        let behind :=
          match (stepsOf table item.production)[item.place + 1]? with
          | some step => Table.firstOf table.first step.symbol
          | none => item.ahead
        (table.openings.getD index #[]).foldl
          (fun sets opening =>
            sets.modify opening.production fun set =>
              set ||| opening.ahead ||| (if opening.passes then behind else 0))
          sets
      | _ => sets)
    (Array.replicate table.productions.size 0)
  let fresh := opened.zipIdx.filterMap fun (set, production) =>
    if set = 0 then none else some (⟨production, 0, set⟩ : Item)
  fresh ++ kernel

/-! ## Competing actions -/

/-- Where an entry of a ranking stands for a rank or for one of some rules. -/
def matchesEntry (table : Table) (rank : Rank) (rules : List Nat) : Ranked → Bool
  | .rank name => rank == .named name
  | .rule name => rules.any fun index => (table.rules.getD index default).name == name

/-- Compares by one ranking: of two that are both in it, the one that is met
first binds more. -/
def compareIn (first second : Ranked → Bool) : Bool → Bool → List Ranked → Option Ordering
  | _, _, [] => none
  | sawFirst, sawSecond, entry :: rest =>
    let isFirst := first entry
    let isSecond := second entry
    if isFirst && !isSecond then
      if sawSecond then some .lt else compareIn first second true sawSecond rest
    else if isSecond && !isFirst then
      if sawFirst then some .gt else compareIn first second sawFirst true rest
    else compareIn first second sawFirst sawSecond rest

/-- Compares two ranks, each held by an action for some rules. Levels compare
as numbers; all else by the first ranking that tells the two apart. -/
def compareRanks (table : Table) (first : Rank) (firstRules : List Nat) (second : Rank)
    (secondRules : List Nat) : Ordering :=
  let byRankings := (table.grammar.rankings.findSome? fun ranking =>
    compareIn (matchesEntry table first firstRules) (matchesEntry table second secondRules)
      false false ranking).getD .eq
  match first, second with
  | .level m, .level n => if m != 0 || n != 0 then compare m n else byRankings
  | .level m, .plain => if m != 0 then compare m 0 else byRankings
  | .plain, .level n => if n != 0 then compare 0 n else byRankings
  | _, _ => byRankings

/-- What the reductions that compete for a token have in common. -/
structure Rivals where
  rank : Rank := .plain
  rules : List Nat := []
  left : Bool := false
  right : Bool := false
  neither : Bool := false

/-- The rule that a production makes. -/
def headOf (table : Table) (production : Nat) : Nat :=
  ((table.productions[production]?).map (·.head)).getD table.rules.size

/-- Adds a finished item's reduction on one token. A reduction of higher rank
drives out the others; one of lower rank is not added. -/
def addReduction (table : Table) (item : Item) (entry : List Action × Rivals) :
    List Action × Rivals :=
  let head := headOf table item.production
  let action := if item.production = wholeInput table then Action.accept
    else .reduce item.production
  let rank := rankOf table item
  let join (rivals : Rivals) : Rivals :=
    let rivals := { rivals with
      rank
      rules := if rivals.rules.contains head then rivals.rules else rivals.rules ++ [head] }
    match (lastStep? table item).bind (·.side) with
    | some .left => { rivals with left := true }
    | some .right => { rivals with right := true }
    | none => { rivals with neither := true }
  if entry.1.isEmpty then ([action], join entry.2)
  else
    match compareRanks table rank [head] entry.2.rank entry.2.rules with
    | .gt => ([action], join {})
    | .eq => (entry.1 ++ [action], join entry.2)
    | .lt => entry

/-- Decides between shifting a token and reducing before it. -/
def settle (table : Table) (items : Array Item) (token : Nat) (reductions : List Action)
    (rivals : Rivals) : List Action :=
  let shifting := items.filter fun item =>
    item.place > 0 &&
      match nextStep? table item with
      | some step => (Table.firstOf table.first step.symbol).testBit token
      | none => false
  let reducing := items.filter fun item =>
    (nextStep? table item).isNone && item.ahead.testBit token
  let involved := (shifting ++ reducing).toList.filter (·.production != wholeInput table)
  let heads := involved.map fun item => headOf table item.production
  let isRepetition :=
    match heads with
    | [] => false
    | head :: rest => (table.rules.getD head default).auxiliary && rest.all (· == head)
  if isRepetition then reductions ++ [.shift true]
  else
    let orders := shifting.toList.map fun item =>
      compareRanks table (rankOf table item) [headOf table item.production]
        rivals.rank rivals.rules
    let more := orders.any (· == .gt)
    let less := orders.any (· == .lt)
    if more && !less then [.shift false]
    else if less && !more then reductions
    else if !more && !less && rivals.left && !rivals.neither && !rivals.right then reductions
    else if !more && !less && rivals.right && !rivals.neither && !rivals.left then [.shift false]
    else reductions ++ [.shift false]

/-- The actions of a state on every token. -/
def actionsOf (table : Table) (items : Array Item) : Array (List Action) :=
  let count := table.tokens.size
  let finished := items.filter fun item => (nextStep? table item).isNone
  let reductions := finished.foldl
    (fun (entries : Array (List Action × Rivals)) item =>
      (List.range count).foldl
        (fun entries token =>
          if item.ahead.testBit token then entries.modify token (addReduction table item)
          else entries)
        entries)
    (Array.replicate count ([], ({} : Rivals)))
  let shifts := items.foldl
    (fun set item =>
      match nextStep? table item with
      | some ⟨.token index, _, _, _, _⟩ => set ||| TokenSet.single index
      | _ => set)
    0
  let main := reductions.mapIdx fun token (actions, rivals) =>
    if shifts.testBit token then
      if actions.isEmpty then [.shift false] else settle table items token actions rivals
    else actions
  table.extras.foldl
    (fun actions token =>
      actions.modify token fun own => if own.isEmpty then [.shiftExtra] else own)
    main

/-! ## States -/

/-- Finds the state of a set of items, or makes it. -/
def state (table : Table) (kernel : Array Item) (automaton : Automaton) : Automaton × Nat :=
  match automaton.known[kernel]? with
  | some index => (automaton, index)
  | none =>
    let items := close table kernel
    let index := automaton.states.size
    ({ automaton with
        states := automaton.states.push ⟨items, actionsOf table items⟩
        known := automaton.known.insert kernel index }, index)

/-- The error state and the start. -/
def start (table : Table) : Automaton :=
  let recover := Array.ofFn fun (token : Fin table.tokens.size) =>
    if table.recoverable.testBit token.val then [Action.recover] else []
  let empty : Automaton := ⟨#[⟨#[], recover⟩], {}, {}⟩
  (state table #[⟨wholeInput table, 0, TokenSet.single 0⟩] empty).1

/-- The actions of a state on a token. -/
def actions (automaton : Automaton) (state token : Nat) : List Action :=
  match automaton.states[state]? with
  | some own => own.actions.getD token []
  | none => []

/-- The state after a symbol, or zero where the symbol cannot follow. -/
def move (table : Table) (origin : Nat) (symbol : Symbol) (automaton : Automaton) :
    Automaton × Nat :=
  match automaton.moves[(origin, symbol)]? with
  | some target => (automaton, target)
  | none =>
    let items := (automaton.states.getD origin default).items
    let kernel := items.filterMap fun item =>
      match nextStep? table item with
      | some step => if step.symbol == symbol then some { item with place := item.place + 1 } else none
      | none => none
    let found := if kernel.isEmpty then (automaton, 0) else state table kernel automaton
    ({ found.1 with moves := found.1.moves.insert (origin, symbol) found.2 }, found.2)

/-- The state after taking a token, or zero where no action takes it. -/
def afterToken (table : Table) (origin token : Nat) (automaton : Automaton) : Automaton × Nat :=
  match (automaton.actions origin token).getLast? with
  | some .shiftExtra => (automaton, origin)
  | some (.shift _) => automaton.move table origin (.token token)
  | _ => (automaton, 0)

end Automaton

end Deadwood.Grammar
