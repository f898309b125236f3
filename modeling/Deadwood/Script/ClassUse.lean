/-
# Classes that scripts use

Scripts name classes in strings. Each rule knows one way of writing them and
reads the text without understanding the program around it; the rules do not
depend on one another.
-/

import Deadwood.Text.Scan
import Deadwood.Text.Word

namespace Deadwood.Script

open Deadwood.Text

/-- A way of finding the values that hold names of classes. -/
structure ClassRule where
  name : String
  values : List Char → List (List Char)

/-- Reads a string in double or single quotes. -/
def readString? : Reader (List Char) := fun text =>
  readQuoted? '"' text <|> readQuoted? '\'' text

/-- Reads a string in any quotes. -/
def readAnyString? : Reader (List Char) := fun text =>
  readString? text <|> readQuoted? '\x60' text

/-- Reads a string in double or single quotes that stays on its line. -/
def readLineString? : Reader (List Char) := fun text =>
  (readString? text).filter fun found => !found.1.contains '\n'

/-- Reads a string inside braces; its quotes need not be the same. -/
def readBracedString? : Reader (List Char) := fun text => do
  let isQuote (c : Char) : Bool := c == '"' || c == '\'' || c == '\x60'
  let inside := trimStart (← after? '\x7b' text)
  guard (inside.head?.any isQuote)
  let (value, behind) ← readUntil? isQuote inside.tail
  return (value, ← after? '\x7d' (trimStart behind))

/-- The attribute with the classes of an element, as in a page or as a property:
an equals sign and a string must follow. -/
def readClassAttribute? (before : Option Char) : Reader (List Char) := fun text =>
  if before.any isWordChar then none
  else
    let value (name : String) : Option (List Char × List Char) := do
      let rest := trimStart (← afterText? name.toList text)
      let rest := trimStart (← after? '=' rest)
      readString? rest <|> readBracedString? rest
    value "class" <|> value "className"

/-- The calls that change or ask for the classes of an element. -/
def classListCalls : List String :=
  ["add", "remove", "toggle", "contains", "replace"]

/-- Reads the arguments of such a call, up to the first closing parenthesis. -/
def readClassListCall? : Reader (List Char) := fun text => do
  let rest := trimStart (← afterText? "classList".toList text)
  let rest := trimStart (← after? '.' rest)
  classListCalls.findSome? fun name => do
    let rest := trimStart (← afterText? name.toList rest)
    readUntil? (· == ')') (← after? '(' rest)

/-- Reads a call that sets the attribute with the classes. -/
def readSetAttribute? : Reader (List Char) := fun text => do
  let rest := trimStart (← afterText? "setAttribute".toList text)
  let rest := trimStart (← after? '(' rest)
  guard (rest.head?.any fun c => c == '"' || c == '\'')
  ["class", "className"].findSome? fun name => do
    let rest ← afterText? name.toList rest.tail
    guard (rest.head?.any fun c => c == '"' || c == '\'')
    let rest ← after? ',' (trimStart rest.tail)
    readAnyString? (trimStart rest)

/-- Reads a string with a plus behind it. -/
def readBeforePlus? : Reader (List Char) := fun text => do
  let (value, behind) ← readLineString? text
  return (value, ← after? '+' (trimStart behind))

/-- Reads a string with a plus in front of it. -/
def readAfterPlus? : Reader (List Char) := fun text => do
  readLineString? (trimStart (← after? '+' text))

/-- Reads an expression that is put into a string. -/
def readInterpolation? : Reader (List Char) := fun text => do
  readUntil? (· == '\x7d') (← afterText? ['$', '\x7b'] text)

/-- Whether a text has the beginning of an interpolation. -/
def hasInterpolation : List Char → Bool
  | [] => false
  | c :: rest => (c == '$' && rest.head? == some '\x7b') || hasInterpolation rest

/-- Reads the two strings that a condition chooses from. -/
def readBranches? : Reader (List (List Char)) := fun text => do
  let (first, rest) ← readAnyString? (trimStart (← after? '?' text))
  let (second, rest) ← readAnyString? (trimStart (← after? ':' (trimStart rest)))
  return ([first, second], rest)

/-- The fixed parts of the strings with interpolations. -/
def templateParts (text : List Char) : List (List Char) :=
  ((findAll (readQuoted? '\x60') text).filter hasInterpolation).flatMap fun body =>
    (splitBy readInterpolation? 0 body).filter fun part => !part.all Deadwood.Text.isBlank

/-- The rules, in the order in which they are tried. -/
def classRules : List ClassRule :=
  [⟨"class-attribute", findAllFrom readClassAttribute? none 0⟩,
    ⟨"class-list", fun text => (findAll readClassListCall? text).flatMap (findAll readAnyString?)⟩,
    ⟨"set-attribute", findAll readSetAttribute?⟩,
    ⟨"concatenation", fun text =>
      findAll readBeforePlus? text ++ findAll readAfterPlus? text ++ templateParts text⟩,
    ⟨"ternary", fun text =>
      (findAll readInterpolation? text).flatMap fun body => (findAll readBranches? body).flatten⟩]

/-- Characters that no name of a class has. -/
def forbidden : List Char :=
  ['$', '\x7b', '\x7d', '<', '>', '"', '\'', '\x60', '=', ';', '(', ')', ',']

/-- Whether a word can be the name of a class. -/
def isClassName (word : List Char) : Bool :=
  word.any isAlphanumeric && !word.any forbidden.contains

/-- The words of a value that can be names of classes. -/
def classNames (value : List Char) : List (List Char) :=
  (words value).filter isClassName

/-- The classes that a script seems to use. Names may be listed more than
once. -/
def usedClasses (text : List Char) : List (List Char) :=
  classRules.flatMap fun rule => (rule.values text).flatMap classNames

end Deadwood.Script
