/-
# Reading the next token

Which tokens are looked for depends on the state: a spelling is read as the
token that can come next there. Where none of them matches, every token of the
grammar is tried, and characters that begin no token are skipped as one error.
-/

import Deadwood.Grammar.Stack

namespace Deadwood.Grammar.Lexer

/-- Whether a state has an action on a token. -/
def isValid (automaton : Automaton) (state token : Nat) : Bool :=
  !(automaton.actions state token).isEmpty

/-- The tokens that are looked for in a state by reading characters. Keywords
are read as the word token first. -/
def candidates (table : Table) (automaton : Automaton) (state : Nat) : List Nat :=
  let valid := (List.range table.tokens.size).filter (isValid automaton state)
  let readable := valid.filter fun token => (table.tokens.getD token default).lexeme.isSome
  match table.word with
  | none => readable
  | some word =>
    let isKeyword (token : Nat) : Bool :=
      match (table.tokens.getD token default).lexeme.bind (·.spelling) with
      | some spelling => table.keywords[spelling]? == some token
      | none => false
    let plain := readable.filter fun token => token != word && !isKeyword token
    if readable.any (fun token => token == word || isKeyword token) then word :: plain else plain

/-- A token found by reading: what, from where, to where. -/
structure Match where
  token : Nat
  start : Nat
  stop : Nat

/-- The order of two matches from one place: by rank, then by length, then a
literal before a class, an immediate token before one that is not, and the
earlier definition before the later. -/
def isBetter (table : Table) (challenger champion : Match) : Bool :=
  let key (m : Match) : Int × Nat × Nat :=
    match (table.tokens.getD m.token default).lexeme with
    | some lexeme =>
      (lexeme.rank, m.stop,
        (if lexeme.spelling.isSome then 2 else 0) + (if lexeme.immediate then 1 else 0))
    | none => (0, m.stop, 0)
  let (rank, stop, form) := key challenger
  let (rank', stop', form') := key champion
  if rank != rank' then rank > rank'
  else if stop != stop' then stop > stop'
  else if form != form' then form > form'
  else challenger.token < champion.token

/-- The best match at a place. -/
def bestAt (table : Table) (tokens : List Nat) (source : Source) (place : Nat)
    (afterBlank : Bool) : Option Match :=
  tokens.foldl
    (fun best token =>
      match (table.tokens.getD token default).lexeme with
      | none => best
      | some lexeme =>
        if lexeme.immediate && afterBlank then best
        else
          match lexeme.read source place with
          | none => best
          | some stop =>
            if stop ≤ place then best
            else
              let found : Match := ⟨token, place, stop⟩
              match best with
              | none => some found
              | some old => if isBetter table found old then some found else best)
    none

/-- Skips blanks and reads a token. Without a match, the place after the blanks
is returned. -/
def readFrom (table : Table) (tokens : List Nat) (endValid : Bool) (source : Source)
    (first : Nat) : Nat → Nat → Except Nat Match
  | 0, place => .error place
  | fuel + 1, place =>
    match bestAt table tokens source place (place != first) with
    | some found => .ok found
    | none =>
      match source.peek? place with
      | none => if endValid then .ok ⟨0, place, place⟩ else .error place
      | some c =>
        if table.grammar.blank c || (place == 0 && c == '\uFEFF') then
          readFrom table tokens endValid source first fuel (place + 1)
        else .error place

/-- How many characters at a place begin the spelling of some literal. -/
def reach (table : Table) (tokens : List Nat) (source : Source) (place : Nat) : Nat :=
  let common (text : List Char) : Nat :=
    let here := (source.chars.extract place (place + text.length)).toList
    ((text.zip here).takeWhile fun (a, b) => a == b).length
  tokens.foldl
    (fun most token =>
      match (table.tokens.getD token default).lexeme.bind (·.spelling) with
      | some spelling => max most (common spelling.toList)
      | none => most)
    0

/-- A token as a leaf. -/
def leaf (blankStart : Nat) (found : Match) (facts : Facts) : Subtree :=
  .mk (.token found.token) blankStart found.start found.stop
    { facts with extra := found.token == 0 } []

/-- Asks the scanner. A token without text is refused while repairing, unless
the scanner's memory changed, so that no repair goes round in circles. -/
def scan (table : Table) (automaton : Automaton) (source : Source) (version : Version)
    (state : Nat) (repairing : Bool) (place : Nat) : Option Finding :=
  let mode := if repairing then 0 else state
  let valid (index : Nat) : Bool :=
    match table.external[index]? with
    | some token => isValid automaton mode token
    | none => false
  let hasScanner := (List.range table.external.size).any valid
  if !hasScanner then none
  else
    match table.grammar.scan valid version.memory source
        (if place == 0 && source.peek 0 == '\uFEFF' then 1 else place) with
    | none => none
    | some found =>
      let token := table.external.getD found.token 0
      let empty := found.stop ≤ place && found.memory == version.memory
      let isExtra := (automaton.actions state token).getLast? == some .shiftExtra
      if empty && (repairing || !version.hasAdvanced || isExtra) then none
      else some { found with token }

/-- The leaf of a scanner's token. -/
def scannedLeaf (blankStart : Nat) (version : Version) (found : Finding) : Subtree :=
  .mk (.token found.token) blankStart found.start found.stop
    { memory := some found.memory, remembers := found.memory != version.memory } []

/-- Tells a keyword from a word: where the state has an action on the keyword,
it is the keyword. -/
def settleKeyword (table : Table) (automaton : Automaton) (source : Source) (state : Nat)
    (blankStart : Nat) (found : Match) : Subtree :=
  if table.word == some found.token then
    match table.keywords[source.slice found.start found.stop]? with
    | some keyword =>
      let token := if isValid automaton state keyword then keyword else found.token
      leaf blankStart { found with token } { keyword := true }
    | none => leaf blankStart found {}
  else leaf blankStart found {}

/-- Looks for any token at all. `skipped` holds the stretch that begins none. -/
def readAny (table : Table) (automaton : Automaton) (source : Source) (version : Version)
    (state : Nat) (blankStart : Nat) (tokens : List Nat) :
    Nat → Nat → Option (Nat × Nat) → Subtree
  | 0, place, _ => .mk .error blankStart place place {} []
  | fuel + 1, place, skipped =>
    let finish (found : Subtree) : Subtree :=
      match skipped with
      | some (start, stop) => .mk .error blankStart start stop {} []
      | none => found
    match scan table automaton source version state true place with
    | some found => finish (scannedLeaf blankStart version found)
    | none =>
      match readFrom table tokens true source place (source.size - place + 1) place with
      | .ok found => finish (settleKeyword table automaton source state blankStart found)
      | .error failed =>
        let (start, stop) := skipped.getD (failed, failed)
        let reached := failed + reach table tokens source failed
        let next := if reached == stop then reached + 1 else reached
        readAny table automaton source version state blankStart tokens fuel next (some (start, next))

/-- The next token of a reading in a state. -/
def next (table : Table) (automaton : Automaton) (source : Source) (version : Version)
    (state : Nat) : Subtree :=
  let place := version.frame.place
  let repair (_ : Unit) : Subtree :=
    readAny table automaton source version state place (candidates table automaton 0)
      (source.size - place + 2) place none
  if state == 0 then repair ()
  else
    match scan table automaton source version state false place with
    | some found => scannedLeaf place version found
    | none =>
      match readFrom table (candidates table automaton state) (isValid automaton state 0) source
          place (source.size - place + 1) place with
      | .ok found => settleKeyword table automaton source state place found
      | .error _ => repair ()

end Deadwood.Grammar.Lexer
