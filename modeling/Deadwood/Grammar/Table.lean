/-
# Productions

A grammar's definitions are spread out into productions: flat sequences of
symbols, with choices multiplied out, repetitions given rules of their own, and
inlined rules replaced by their bodies. With them come the two tables that the
automaton needs: the tokens that can begin each rule, and the productions that
can open wherever a rule is expected.
-/

import Std.Data.HashMap
import Deadwood.Grammar.Rule

namespace Deadwood.Grammar

/-- A token or a rule, by number. -/
inductive Symbol
  | token (index : Nat)
  | rule (index : Nat)
deriving BEq, DecidableEq, Hashable, Repr, Inhabited

/-- One symbol of a production, with all that was said of it. -/
structure Step where
  symbol : Symbol
  rank : Rank
  side : Option Side
  label : Option String
  guise : Option Guise
deriving BEq, Hashable, Repr

/-- A rule's number, and the sequence of symbols that makes one. -/
structure Production where
  head : Nat
  steps : Array Step
  weight : Int
deriving BEq, Repr, Inhabited

/-- A set of tokens, as the bits of a number. -/
abbrev TokenSet := Nat

/-- The set with one member. -/
def TokenSet.single (token : Nat) : TokenSet :=
  1 <<< token

/-- What is known of a token. -/
structure TokenInfo where
  name : String
  named : Bool
  visible : Bool
  /-- How the token is read, unless only the scanner finds it. -/
  lexeme : Option Lexeme

instance : Inhabited TokenInfo := ⟨⟨"", false, false, none⟩⟩

/-- What is known of a rule. -/
structure RuleInfo where
  name : String
  visible : Bool
  /-- The rule stands for a repetition. -/
  auxiliary : Bool
deriving Repr, Inhabited

/-- A production that opens where a rule is expected: the tokens that follow it
by itself, and whether whatever follows the expected rule follows it too. -/
structure Opening where
  production : Nat
  ahead : TokenSet
  passes : Bool
deriving Inhabited

/-- A grammar, spread out for the automaton. -/
structure Table where
  grammar : RuleBook
  tokens : Array TokenInfo
  rules : Array RuleInfo
  productions : Array Production
  /-- The tokens that can begin each rule. -/
  first : Array TokenSet
  /-- The productions that open where each rule is expected. -/
  openings : Array (Array Opening)
  /-- The rules that can stand at the end of the input. -/
  closing : List Nat
  /-- The tokens that may stand anywhere. -/
  extras : List Nat
  /-- The token that keywords look like. -/
  word : Option Nat
  /-- The keywords by spelling. -/
  keywords : Std.HashMap String Nat
  /-- The scanner's tokens, in its own order. -/
  external : Array Nat
  /-- The tokens that are looked for while repairing an error. -/
  recoverable : TokenSet

namespace Table

/-! ## Repetitions -/

/-- The repetitions met so far, each with the name of the rule it became. -/
structure Repetitions where
  known : List (Rule × String) := []
  made : List (String × Rule) := []

mutual

/-- Gives every repetition inside a rule a rule of its own: a repetition is its
body, or two shorter repetitions in a row. Equal bodies share one rule. -/
def spread (owner : String) (found : Repetitions) : Rule → Repetitions × Rule
  | .nothing => (found, .nothing)
  | .literal text => (found, .literal text)
  | .symbol name => (found, .symbol name)
  | .sequence parts =>
    let r := spreadAll owner found parts
    (r.1, .sequence r.2)
  | .choice options =>
    let r := spreadAll owner found options
    (r.1, .choice r.2)
  | .repeated body =>
    let r := spread owner found body
    match r.1.known.find? (fun entry => entry.1 == r.2) with
    | some entry => (r.1, .symbol entry.2)
    | none =>
      let name := owner ++ "_repeat" ++ toString (r.1.made.length + 1)
      let again := Rule.sequence [.symbol name, .symbol name]
      (⟨r.1.known ++ [(r.2, name)], r.1.made ++ [(name, .choice [again, r.2])]⟩, .symbol name)
  | .ranked rank side body =>
    let r := spread owner found body
    (r.1, .ranked rank side r.2)
  | .weighted weight body =>
    let r := spread owner found body
    (r.1, .weighted weight r.2)
  | .labelled label body =>
    let r := spread owner found body
    (r.1, .labelled label r.2)
  | .shown guise body =>
    let r := spread owner found body
    (r.1, .shown guise r.2)

/-- Spreads the rules of a list from left to right. -/
def spreadAll (owner : String) (found : Repetitions) : List Rule → Repetitions × List Rule
  | [] => (found, [])
  | rule :: rest =>
    let r := spread owner found rule
    let s := spreadAll owner r.1 rest
    (s.1, r.2 :: s.2)

end

/-! ## Flat sequences -/

/-- What the constructors around a symbol say of it. -/
structure Setting where
  rank : Rank := .plain
  side : Option Side := none
  label : Option String := none
  guise : Option Guise := none

/-- A flat sequence in the making. -/
structure Draft where
  steps : List Step
  weight : Int

/-- The weight that is farther from zero; the first of two equals. -/
def heavier (first second : Int) : Int :=
  if second.natAbs > first.natAbs then second else first

/-- One sequence after the other. -/
def Draft.append (first second : Draft) : Draft :=
  ⟨first.steps ++ second.steps, heavier first.weight second.weight⟩

/-- Changes the last step of a sequence, if there is one. -/
def Draft.onLast (change : Step → Step) (draft : Draft) : Draft :=
  match draft.steps.reverse with
  | [] => draft
  | last :: rest => ⟨(change last :: rest).reverse, draft.weight⟩

mutual

/-- All flat sequences that a rule stands for. A rank reaches to the end of its
body; when something follows, the body's last step binds as its surroundings
do. -/
def drafts (number : Rule → Option Symbol) (setting : Setting) (atEnd : Bool) :
    Rule → List Draft
  | .nothing => [⟨[], 0⟩]
  | .literal text => draftsOfSymbol number setting (.literal text)
  | .symbol name => draftsOfSymbol number setting (.symbol name)
  | .sequence parts => draftsOfSequence number setting atEnd parts
  | .choice options => draftsOfChoice number setting atEnd options
  | .repeated body => drafts number setting atEnd body
  | .ranked rank side body =>
    let inner := drafts number
      { setting with
        rank := if rank == .plain then setting.rank else rank
        side := side.orElse fun _ => setting.side } atEnd body
    if atEnd then inner
    else
      let outer := if rank == .plain then inner
        else inner.map (Draft.onLast fun step => { step with rank := setting.rank })
      if side.isNone then outer
      else outer.map (Draft.onLast fun step => { step with side := setting.side })
  | .weighted weight body =>
    (drafts number setting atEnd body).map fun draft =>
      { draft with weight := heavier weight draft.weight }
  | .labelled label body => drafts number { setting with label := some label } atEnd body
  | .shown guise body => drafts number { setting with guise := some guise } atEnd body

/-- Multiplies out a sequence. -/
def draftsOfSequence (number : Rule → Option Symbol) (setting : Setting) (atEnd : Bool) :
    List Rule → List Draft
  | [] => [⟨[], 0⟩]
  | [part] => drafts number setting atEnd part
  | part :: rest =>
    let heads := drafts number setting false part
    let tails := draftsOfSequence number setting atEnd rest
    heads.flatMap fun head => tails.map head.append

/-- Gathers the sequences of all options. -/
def draftsOfChoice (number : Rule → Option Symbol) (setting : Setting) (atEnd : Bool) :
    List Rule → List Draft
  | [] => []
  | option :: rest =>
    drafts number setting atEnd option ++ draftsOfChoice number setting atEnd rest

/-- The sequence of one symbol. -/
def draftsOfSymbol (number : Rule → Option Symbol) (setting : Setting) (rule : Rule) :
    List Draft :=
  match number rule with
  | some symbol =>
    [⟨[⟨symbol, setting.rank, setting.side, setting.label, setting.guise⟩], 0⟩]
  | none => []

end

/-! ## Inlining -/

/-- Puts the steps of an inlined sequence in the place of one step. What was
said of the replaced step holds for the new ones that say nothing themselves;
its rank and side go to the last of them. -/
def substitute (replaced : Step) (inner : Draft) : List Step :=
  let named := inner.steps.map fun step =>
    { step with
      label := step.label.orElse fun _ => replaced.label
      guise := step.guise.orElse fun _ => replaced.guise }
  let draft := Draft.onLast
    (fun step =>
      { step with
        rank := if step.rank == .plain then replaced.rank else step.rank
        side := step.side.orElse fun _ => replaced.side })
    ⟨named, 0⟩
  draft.steps

/-- Replaces every inlined rule in a flat sequence by each of its sequences.
`fuel` bounds the number of replacements along one sequence. -/
def inline (bodies : Nat → Option (List Draft)) : Nat → Draft → List Draft
  | 0, draft => [draft]
  | fuel + 1, draft =>
    let body? (step : Step) : Option (List Draft) :=
      match step.symbol with
      | .token _ => none
      | .rule index => bodies index
    match draft.steps.span (fun step => (body? step).isNone) with
    | (_, []) => [draft]
    | (before, step :: after) =>
      ((body? step).getD []).flatMap fun inner =>
        inline bodies fuel
          ⟨before ++ substitute step inner ++ after, heavier draft.weight inner.weight⟩

/-! ## Numbering -/

mutual

/-- The literals of a rule, in order of appearance. -/
def literals : Rule → List String
  | .nothing => []
  | .literal text => [text]
  | .symbol _ => []
  | .sequence parts => literalsOf parts
  | .choice options => literalsOf options
  | .repeated body => literals body
  | .ranked _ _ body => literals body
  | .weighted _ body => literals body
  | .labelled _ body => literals body
  | .shown _ body => literals body

/-- The literals of several rules, in order of appearance. -/
def literalsOf : List Rule → List String
  | [] => []
  | rule :: rest => literals rule ++ literalsOf rest

end

/-- A token that is read by its spelling. -/
def spelledToken (text : String) : Lexeme :=
  { read := fun source place => source.spelling? text.toList place, spelling := some text }

/-- Whether a definition leaves a node. -/
def isVisible (name : String) : Bool :=
  !name.startsWith "_"

/-- Adds a token unless its name is known. -/
def addToken (known : Array TokenInfo) (info : TokenInfo) : Array TokenInfo :=
  if known.any (fun other => other.name == info.name && other.named == info.named) then known
  else known.push info

/-- The token of a literal. -/
def literalInfo (text : String) : TokenInfo :=
  ⟨text, false, true, some (spelledToken text)⟩

/-- The end of the input, which is token zero. -/
def endInfo : TokenInfo :=
  ⟨"end", false, false, none⟩

/-- All tokens in order: the end, the word token, those of the definitions as
they appear, and last those that only the scanner finds. -/
def numberTokens (grammar : RuleBook) : Array TokenInfo :=
  let named (name : String) (lexeme : Lexeme) : TokenInfo :=
    ⟨name, true, isVisible name, some lexeme⟩
  let words := grammar.definitions.filterMap fun entry =>
    match entry.2 with
    | .token lexeme => if grammar.word == some entry.1 then some (named entry.1 lexeme) else none
    | _ => none
  let defined := grammar.definitions.foldl
    (fun known entry =>
      match entry.2 with
      | .rule body => (literals body).foldl (fun known text => addToken known (literalInfo text)) known
      | .token lexeme => addToken known (named entry.1 lexeme)
      | .keyword text =>
        addToken known ⟨entry.1, true, isVisible entry.1, some (spelledToken text)⟩)
    (words.foldl addToken #[endInfo])
  grammar.external.foldl
    (fun known name =>
      if known.any (fun other => other.name == name) then known
      else known.push ⟨name, true, isVisible name, none⟩)
    defined

/-- The number of the token with a name. -/
def tokenNumber? (tokens : Array TokenInfo) (name : String) (named : Bool) : Option Nat :=
  tokens.findIdx? fun info => info.name == name && info.named == named

/-! ## First tokens and openings -/

/-- The tokens that can begin a symbol, given those of every rule. -/
def firstOf (first : Array TokenSet) : Symbol → TokenSet
  | .token index => TokenSet.single index
  | .rule index => first.getD index 0

/-- One round towards the tokens that begin each rule. -/
def firstRound (productions : Array Production) (first : Array TokenSet) : Array TokenSet :=
  productions.foldl
    (fun first production =>
      match production.steps[0]? with
      | some step =>
        first.modify production.head fun known => known ||| firstOf first step.symbol
      | none => first)
    first

/-- Repeats a step until nothing changes, at most `fuel` times. -/
def untilStable (step : Array TokenSet → Array TokenSet) : Nat → Array TokenSet → Array TokenSet
  | 0, value => value
  | fuel + 1, value =>
    let next := step value
    if next == value then value else untilStable step fuel next

/-- What can follow a rule that opens inside an expected one. -/
structure Follow where
  ahead : TokenSet := 0
  passes : Bool := false
deriving BEq, Inhabited

/-- Finds every rule that can open where a rule is expected, with what follows
it. The list holds the rules still to visit. -/
def openRules (byRule : Array (Array Production)) (first : Array TokenSet) :
    Nat → List (Nat × Follow) → Std.HashMap Nat Follow → Std.HashMap Nat Follow
  | 0, _, known => known
  | _, [], known => known
  | fuel + 1, (rule, follow) :: rest, known =>
    let old := known.getD rule {}
    let new : Follow := ⟨old.ahead ||| follow.ahead, old.passes || follow.passes⟩
    if known.contains rule && new == old then openRules byRule first fuel rest known
    else
      let inner := (byRule.getD rule #[]).toList.filterMap fun (production : Production) =>
        match (production.steps[0]?).map Step.symbol, production.steps[1]? with
        | some (.rule index), none => some (index, follow)
        | some (.rule index), some second => some (index, ⟨firstOf first second.symbol, false⟩)
        | _, _ => none
      openRules byRule first fuel (inner ++ rest) (known.insert rule new)

/-- Adds the rules that end a production of a rule already known to stand at
the end, until no more are found. -/
def closingRules (productions : Array Production) : Nat → List Nat → List Nat
  | 0, known => known
  | fuel + 1, known =>
    let next := productions.foldl
      (fun known production =>
        match production.steps.back?.map Step.symbol with
        | some (.rule last) =>
          if known.contains production.head && !known.contains last then last :: known else known
        | _ => known)
      known
    if next.length == known.length then known else closingRules productions fuel next

/-! ## The whole table -/

/-- The literals that look like the word token, which are told from it only
after it has been read. -/
def keywordTable (tokens : Array TokenInfo) (word : Option Nat) : Std.HashMap String Nat :=
  match word.bind (tokens[·]?) |>.bind (·.lexeme) with
  | none => {}
  | some lexeme =>
    (tokens.toList.zipIdx).foldl
      (fun table (info, index) =>
        match info.lexeme.bind (·.spelling) with
        | some spelling =>
          let source := Source.ofString spelling
          if lexeme.read source 0 == some source.size then table.insert spelling index else table
        | none => table)
      {}

/-- Spreads out a grammar. -/
def ofGrammar (grammar : RuleBook) : Table :=
  let tokens := numberTokens grammar
  let bodies := grammar.definitions.filterMap fun entry =>
    match entry.2 with
    | .rule body => some (entry.1, body)
    | _ => none
  let spreadOut := bodies.foldl
    (fun (state : Repetitions × List (String × Rule)) entry =>
      let r := spread entry.1 state.1 entry.2
      (r.1, (entry.1, r.2) :: state.2))
    ({}, [])
  let named := spreadOut.2.reverse
  let all := named ++ spreadOut.1.made
  let ruleNumbers : Std.HashMap String Nat :=
    (all.zipIdx).foldl (fun table (entry, index) => table.insert entry.1 index) {}
  let tokenNumbers : Std.HashMap (String × Bool) Nat :=
    (tokens.toList.zipIdx).foldl (fun table (info, index) => table.insert (info.name, info.named) index) {}
  let number : Rule → Option Symbol
    | .literal text => (tokenNumbers[(text, false)]?).map Symbol.token
    | .symbol name =>
      match ruleNumbers[name]? with
      | some index => some (.rule index)
      | none =>
        ((tokenNumbers[(name, true)]?).orElse fun _ => tokenNumbers[(name, false)]?).map Symbol.token
    | _ => none
  let flat := all.map fun entry => drafts number {} true entry.2
  let flatArray := flat.toArray
  let isInlined : Array Bool := (all.map fun entry => grammar.inlined.contains entry.1).toArray
  let inlineBody (index : Nat) : Option (List Draft) :=
    if isInlined.getD index false then flatArray[index]? else none
  let productions := (flat.zipIdx).flatMap fun (own, index) =>
    if isInlined.getD index false then []
    else
      let expanded := own.flatMap (inline inlineBody 64)
      let unique := expanded.foldl
        (fun (kept : List Production) draft =>
          let production : Production := ⟨index, draft.steps.toArray, draft.weight⟩
          if kept.contains production then kept else production :: kept) []
      unique.reverse
  let productions := productions.toArray
  let rules := (all.map fun entry =>
    (⟨entry.1,
      isVisible entry.1 && !grammar.families.contains entry.1 &&
        !spreadOut.1.made.any (fun made => made.1 == entry.1),
      spreadOut.1.made.any (fun made => made.1 == entry.1)⟩ : RuleInfo)).toArray
  let first := untilStable (firstRound productions) (rules.size + 1)
    (Array.replicate rules.size 0)
  let byRule := productions.foldl
    (fun table production => table.modify production.head (·.push production))
    (Array.replicate rules.size (#[] : Array Production))
  let numbersByRule := (productions.toList.zipIdx).foldl
    (fun table (production, index) => table.modify production.head (·.push index))
    (Array.replicate rules.size (#[] : Array Nat))
  let openings := (List.range rules.size).map fun rule =>
    let opened := openRules byRule first 100000 [(rule, ⟨0, true⟩)] {}
    ((List.range rules.size).flatMap fun inner =>
      match opened[inner]? with
      | none => []
      | some follow =>
        (numbersByRule.getD inner #[]).toList.map fun production =>
          (⟨production, follow.ahead, follow.passes⟩ : Opening)).toArray
  let word := grammar.word.bind fun name => tokenNumber? tokens name true
  let external := grammar.external.filterMap fun name =>
    (tokenNumber? tokens name true).orElse fun _ => tokenNumber? tokens name false
  let recoverable := (tokens.toList.zipIdx).foldl
    (fun set (info, index) =>
      if grammar.unrecoverable.contains info.name then set else set ||| TokenSet.single index)
    0
  { grammar
    tokens
    rules
    productions
    first
    openings := openings.toArray
    closing := closingRules productions (rules.size + 1) [0]
    extras := grammar.extras.filterMap fun name => tokenNumber? tokens name true
    word
    keywords := keywordTable tokens word
    external := external.toArray
    recoverable }

end Table

end Deadwood.Grammar
