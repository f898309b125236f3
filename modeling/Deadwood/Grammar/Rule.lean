/-
# Grammars as data

A grammar is an ordered list of definitions. Each one is a rule, built from the
constructors below, or a token, given by the function that reads it. The order
matters: it numbers tokens and rules, and the numbers break ties.
-/

namespace Deadwood.Grammar

/-- How strongly a rule binds when two readings of the input compete. Levels
compare as numbers, with `plain` as zero; names compare by the grammar's own
rankings. -/
inductive Rank
  | plain
  | level (value : Int)
  | named (name : String)
deriving BEq, Hashable, Repr

/-- The reading that an operator of equal rank prefers. -/
inductive Side
  | left
  | right
deriving BEq, Hashable, Repr

/-- The name under which a child is shown in place of its own. -/
structure Guise where
  kind : String
  named : Bool
deriving BEq, Hashable, Repr

/-- The right-hand side of a definition. -/
inductive Rule
  /-- The empty text. -/
  | nothing
  /-- A token given by its own spelling. -/
  | literal (text : String)
  /-- Another definition, by name. -/
  | symbol (name : String)
  | sequence (parts : List Rule)
  | choice (options : List Rule)
  /-- One or more times. -/
  | repeated (body : Rule)
  /-- Binds with a rank, and leans to a side among equals. -/
  | ranked (rank : Rank) (side : Option Side) (body : Rule)
  /-- Counts towards the choice between two complete readings. -/
  | weighted (weight : Int) (body : Rule)
  /-- Gives the child a label within its parent. -/
  | labelled (label : String) (body : Rule)
  /-- Shows the child under another name. -/
  | shown (guise : Guise) (body : Rule)
deriving BEq, Hashable, Repr

namespace Rule

instance : Coe String Rule := ⟨.literal⟩

/-- A rule that may be left out. -/
def optional (body : Rule) : Rule :=
  .choice [body, .nothing]

/-- What is defined under a name. -/
def sym (name : String) : Rule :=
  .symbol name

/-- One part behind the other. -/
def seq (parts : List Rule) : Rule :=
  .sequence parts

/-- Zero or more times. -/
def many (body : Rule) : Rule :=
  .choice [.repeated body, .nothing]

/-- One or more times, with a separator between. -/
def separated1 (separator body : Rule) : Rule :=
  .sequence [body, many (.sequence [separator, body])]

/-- Zero or more times, with a separator between. -/
def separated (separator body : Rule) : Rule :=
  optional (separated1 separator body)

/-- Shows the child as a named node. -/
def as (kind : String) (body : Rule) : Rule :=
  .shown ⟨kind, true⟩ body

/-- Shows the child as plain punctuation. -/
def asPlain (kind : String) (body : Rule) : Rule :=
  .shown ⟨kind, false⟩ body

end Rule

/-- The characters of a text, with the byte offset and the line of each place
between two characters. The last entry of both tables is the end. -/
structure Source where
  chars : Array Char
  bytes : Array Nat
  rows : Array Nat

namespace Source

/-- Tabulates a text. -/
def ofString (text : String) : Source :=
  let step (s : Source × Nat × Nat) (c : Char) : Source × Nat × Nat :=
    let byte := s.2.1 + c.utf8Size
    let row := if c = '\n' then s.2.2 + 1 else s.2.2
    (⟨s.1.chars.push c, s.1.bytes.push byte, s.1.rows.push row⟩, byte, row)
  (text.toList.foldl step (⟨#[], #[0], #[0]⟩, 0, 0)).1

/-- The number of characters. -/
def size (source : Source) : Nat :=
  source.chars.size

/-- The character at a place, or none at the end. -/
def peek? (source : Source) (place : Nat) : Option Char :=
  source.chars[place]?

/-- The character at a place, or the null character at the end. -/
def peek (source : Source) (place : Nat) : Char :=
  source.chars.getD place '\x00'

/-- The byte offset of a place. -/
def byte (source : Source) (place : Nat) : Nat :=
  source.bytes.getD place (source.bytes.getD source.size 0)

/-- The number of line ends before a place. -/
def row (source : Source) (place : Nat) : Nat :=
  source.rows.getD place (source.rows.getD source.size 0)

/-- The first place at or after the given one where a test fails, looking at
no more than `fuel` characters. -/
def skipWhileUpTo (source : Source) (test : Char → Bool) : Nat → Nat → Nat
  | 0, place => place
  | fuel + 1, place =>
    match source.peek? place with
    | some c => if test c then skipWhileUpTo source test fuel (place + 1) else place
    | none => place

/-- The first place at or after the given one where a test fails. -/
def skipWhile (source : Source) (test : Char → Bool) (place : Nat) : Nat :=
  source.skipWhileUpTo test (source.size - place) place

/-- Reads the given characters and returns the place behind them. -/
def spelling? (source : Source) : List Char → Nat → Option Nat
  | [], place => some place
  | c :: rest, place =>
    if source.peek? place = some c then source.spelling? rest (place + 1) else none

/-- The text between two places. -/
def slice (source : Source) (start stop : Nat) : String :=
  String.ofList (source.chars.extract start stop).toList

end Source

/-- A token that is read by a function: from a place, to the place behind the
longest match. -/
structure Lexeme where
  /-- Reads the longest match that starts at a place. -/
  read : Source → Nat → Option Nat
  /-- A token of higher rank wins over a longer one of lower rank. -/
  rank : Int := 0
  /-- No blank may stand before the token. -/
  immediate : Bool := false
  /-- The only spelling, if there is one. Among equals such a token wins over a
  class of texts. -/
  spelling : Option String := none

/-- A definition of a grammar. -/
inductive Definition
  | rule (body : Rule)
  | token (lexeme : Lexeme)
  /-- A named token with one spelling. -/
  | keyword (text : String)

/-- An entry of a ranking: a rank's name, or a rule. -/
inductive Ranked
  | rank (name : String)
  | rule (name : String)
deriving BEq, Repr

/-- What a scanner found: the index of one of its tokens, the token's extent,
and the scanner's memory afterwards. -/
structure Finding where
  token : Nat
  start : Nat
  stop : Nat
  memory : List String

/-- Reads the tokens that need more than a look at the characters: given which
of its tokens could come next, what it remembers, and a place. -/
abbrev Scanner := (Nat → Bool) → List String → Source → Nat → Option Finding

/-- The rules of a language. The first definition is the start. Definitions whose
names begin with an underscore leave no node of their own. -/
structure RuleBook where
  definitions : List (String × Definition)
  /-- Rules that stand for their alternatives and leave no node. -/
  families : List String := []
  /-- Rules replaced by their bodies wherever they occur. -/
  inlined : List String := []
  /-- Tokens that may stand anywhere. -/
  extras : List String := []
  /-- The characters between tokens. -/
  blank : Char → Bool
  /-- The token that keywords look like. -/
  word : Option String := none
  /-- The scanner's tokens. -/
  external : List String := []
  scan : Scanner := fun _ _ _ _ => none
  rankings : List (List Ranked) := []
  /-- Tokens that are not looked for while repairing an error. -/
  unrecoverable : List String := []

end Deadwood.Grammar
