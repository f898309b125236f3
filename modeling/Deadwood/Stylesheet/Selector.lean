/-
# Selectors as text

A selector names classes in two ways: by a dot, and by a condition on the class
attribute. Both are read off the text itself, so that a selector can be judged
wherever it comes from. Brackets, quotes and negations hide what is in them.
-/

import Deadwood.Text.Blank
import Deadwood.Text.Offset
import Deadwood.Text.Scan

namespace Deadwood.Selector

open Deadwood.Text

/-! ## What is hidden -/

/-- What a place in a selector is inside of. -/
structure Nesting where
  brackets : Nat := 0
  /-- Open parentheses since a negation began. -/
  negations : Nat := 0
  quote : Option Char := none
  /-- How many of the next characters stand for themselves. -/
  literal : Nat := 0
deriving DecidableEq, Repr, Inhabited

namespace Nesting

/-- Whether characters at this place are hidden. -/
def hides (s : Nesting) : Bool :=
  s.brackets > 0 || s.negations > 0 || s.quote.isSome

/-- Whether a text continues a colon to a negation. -/
def continuesNegation (rest : List Char) : Bool :=
  (rest.take 4).map Char.toLower == ['n', 'o', 't', '(']

/-- Whether a character is hidden, and what the next place is inside of. The
bracket that opens an attribute can be seen from outside. -/
def step (negations : Bool) (s : Nesting) (c : Char) (rest : List Char) : Bool × Nesting :=
  if s.literal > 0 then (s.hides, { s with literal := s.literal - 1 })
  else if c = '\\' then (s.hides, { s with literal := 1 })
  else
    match s.quote with
    | some quote => (true, if c = quote then { s with quote := none } else s)
    | none =>
      if c = '"' ∨ c = '\'' then (true, { s with quote := some c })
      else if c = '[' then (s.hides, { s with brackets := s.brackets + 1 })
      else if c = ']' ∧ s.brackets > 0 then (true, { s with brackets := s.brackets - 1 })
      else if c = '(' ∧ s.negations > 0 then (true, { s with negations := s.negations + 1 })
      else if c = ')' ∧ s.negations > 0 then (true, { s with negations := s.negations - 1 })
      else if negations ∧ c = ':' ∧ s.brackets = 0 ∧ s.negations = 0 ∧ continuesNegation rest then
        (true, { s with negations := 1, literal := 4 })
      else (s.hides, s)

end Nesting

/-- The characters of a selector, each with whether it is hidden. Negations hide
only when asked to. -/
def shade (negations : Bool) : Nesting → List Char → List (Char × Bool)
  | _, [] => []
  | s, c :: rest =>
    let (hidden, s) := s.step negations c rest
    (c, hidden) :: shade negations s rest

/-- A selector with blanks for what is hidden, as many as it has bytes. -/
def mask (negations : Bool) (selector : List Char) : List Char :=
  (shade negations {} selector).flatMap fun (c, hidden) =>
    if hidden then List.replicate c.utf8Size ' ' else [c]

/-! ## Classes by a dot -/

/-- Characters of a name that need no escape. -/
def isPlain (c : Char) : Bool :=
  c.isAlphanum || c == '_' || c == '-' || c.toNat > 0x7F

/-- The digits of an escape by number, at most six. -/
def hexDigits (rest : List Char) : List Char :=
  (rest.take 6).takeWhile isHexDigit

/-- How many characters an escape takes up behind its backslash: a number takes
a blank along, and a line end cannot be escaped. -/
def escapeLength (rest : List Char) : Nat :=
  let digits := (hexDigits rest).length
  if digits > 0 then
    if ((rest.drop digits).head?).any isBlank then digits + 1 else digits
  else if (rest.head?).any (· != '\n') then 1
  else 0

/-- The name that a text begins with. The number counts the characters that
belong to an escape under way. -/
def takeName : Nat → List Char → List Char
  | _, [] => []
  | escaped + 1, c :: rest => c :: takeName escaped rest
  | 0, c :: rest =>
    if isPlain c then c :: takeName 0 rest
    else if c = '\\' ∧ escapeLength rest > 0 then c :: takeName (escapeLength rest) rest
    else []

/-- The names behind dots. The number counts the characters of a name that has
been read. -/
def dottedNames : Nat → List Char → List (List Char)
  | _, [] => []
  | read + 1, _ :: rest => dottedNames read rest
  | 0, c :: rest =>
    if c = '.' then
      let name := takeName 0 rest
      if name.isEmpty then dottedNames 0 rest else name :: dottedNames name.length rest
    else dottedNames 0 rest

/-- The value of hexadecimal digits. -/
def hexValue (digits : List Char) : Nat :=
  digits.foldl (fun value c =>
    value * 16 +
      (if c.isDigit then c.toNat - '0'.toNat else c.toLower.toNat - 'a'.toNat + 10)) 0

/-- The character with a number; the replacement character if there is none. -/
def charOfNumber (n : Nat) : Char :=
  if n.isValidChar then Char.ofNat n else Char.ofNat 0xFFFD

/-- A name without its escapes. The number counts the characters of an escape
that has been read. -/
def unescape : Nat → List Char → List Char
  | _, [] => []
  | read + 1, _ :: rest => unescape read rest
  | 0, c :: rest =>
    if c ≠ '\\' then c :: unescape 0 rest
    else
      let digits := hexDigits rest
      if digits.isEmpty then (rest.head?).toList ++ unescape 1 rest
      else charOfNumber (hexValue digits) :: unescape (escapeLength rest) rest

/-! ## Classes by an attribute -/

/-- The small form of a letter. That of the long s is the letter itself. -/
def smallForm (c : Char) : Char :=
  if c.toNat = 0x17F then 's' else c.toLower

/-- What stands behind the word "class", whatever its case, if a text begins with
it. -/
def afterClassWord? (text : List Char) : Option (List Char) :=
  if (text.take 5).map smallForm == "class".toList then some (text.drop 5) else none

/-- What stands behind one of some characters, if a text begins with one. -/
def skipOne (characters text : List Char) : List Char :=
  match text with
  | [] => []
  | c :: rest => if characters.contains c then rest else c :: rest

/-- Reads the end of an attribute: a flag for its case may stand before the
bracket. -/
def afterAttributeEnd? (text : List Char) : Option (List Char) :=
  after? ']' (trimStart (skipOne ['i', 'I', 's', 'S'] (trimStart text)))

/-- Reads a value between quotes and the end of its attribute. -/
def quotedValue? (quote : Char) : Reader (List Char) := fun text => do
  let (value, behind) ← readQuoted? quote text
  return (value, ← afterAttributeEnd? behind)

/-- Characters of a value without quotes. -/
def isValueChar (c : Char) : Bool :=
  !isBlank c && c != ']'

/-- Reads a value without quotes and the end of its attribute. -/
def bareValue? : Reader (List Char) := fun text =>
  let value := text.takeWhile isValueChar
  if value.isEmpty then none
  else (afterAttributeEnd? (text.dropWhile isValueChar)).map fun rest => (value, rest)

/-- Reads a condition on the class attribute: its value and what stands behind
it. -/
def classAttribute? : Reader (List Char) := fun text => do
  let rest ← after? '[' text
  let rest ← afterClassWord? (trimStart rest)
  let rest ← after? '=' (skipOne ['~', '|', '^', '$', '*'] (trimStart rest))
  let rest := trimStart rest
  quotedValue? '"' rest <|> quotedValue? '\'' rest <|> bareValue? rest

/-- The conditions on the class attribute, each with the number of characters
before it. `read` counts the characters of a condition that has been read. -/
def classAttributes (before : Nat) : Nat → List Char → List (Nat × List Char)
  | _, [] => []
  | read + 1, _ :: rest => classAttributes (before + 1) read rest
  | 0, c :: rest =>
    match classAttribute? (c :: rest) with
    | some (value, behind) =>
      (before, value) :: classAttributes (before + 1) (rest.length - behind.length) rest
    | none => classAttributes (before + 1) 0 rest

/-! ## Classes of a selector -/

/-- Whether the character behind the first `n` ones is hidden by a negation. -/
def isNegated (selector : List Char) (n : Nat) : Bool :=
  ((shade true {} selector)[n]?).any (·.2)

/-- The classes of a selector, those of attributes first. -/
def classes (skipNegations : Bool) (selector : List Char) : List (List Char) :=
  let attributes := (classAttributes 0 0 selector).filter fun (place, _) =>
    !(skipNegations && isNegated selector place)
  let named := attributes.flatMap fun (_, value) => words value
  let dotted := (dottedNames 0 (mask skipNegations selector)).map (unescape 0)
  (named ++ dotted).eraseReps

/-- The classes that a selector, or a list of selectors, defines. -/
def definedClasses (selector : List Char) : List (List Char) :=
  classes false selector

/-- The classes without which a selector matches nothing. A negated class only
makes it match more, and is left out. -/
def requiredClasses (selector : List Char) : List (List Char) :=
  classes true selector

/-! ## Lists of selectors -/

/-- What a place in a list of selectors is inside of. -/
structure Depth where
  depth : Nat := 0
  quote : Option Char := none
  escaped : Bool := false
deriving DecidableEq, Repr, Inhabited

namespace Depth

/-- Whether a character at this place parts two selectors. -/
def parts (s : Depth) (c : Char) : Bool :=
  c == ',' && !s.escaped && s.quote.isNone && s.depth == 0

/-- What the next place is inside of. -/
def next (s : Depth) (c : Char) : Depth :=
  if s.escaped then { s with escaped := false }
  else if c = '\\' then { s with escaped := true }
  else
    match s.quote with
    | some quote => if c = quote then { s with quote := none } else s
    | none =>
      if c = '"' ∨ c = '\'' then { s with quote := some c }
      else if c = '(' ∨ c = '[' then { s with depth := s.depth + 1 }
      else if c = ')' ∨ c = ']' then { s with depth := s.depth - 1 }
      else s

end Depth

/-- The stretches between the commas that part selectors, blanks and all. -/
def splitFrom : Depth → List Char → List (List Char)
  | _, [] => [[]]
  | s, c :: rest =>
    if s.parts c then [] :: splitFrom s rest
    else
      match splitFrom (s.next c) rest with
      | [] => [[c]]
      | part :: others => (c :: part) :: others

/-- The selectors of a list, untrimmed. Only commas outside parentheses, brackets
and strings part them. -/
def split (list : List Char) : List (List Char) :=
  splitFrom {} list

/-- The stretches that parts take up when commas stand between them. -/
def rangesFrom (start : Nat) : List (List Char) → List Range
  | [] => []
  | part :: others =>
    ⟨start, start + byteSize part⟩ :: rangesFrom (start + byteSize part + 1) others

/-- The stretches that the selectors of a list take up. -/
def splitRanges (list : List Char) : List Range :=
  rangesFrom 0 (split list)

end Deadwood.Selector
