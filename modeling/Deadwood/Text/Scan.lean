/-
# Reading texts from the left

A reader takes something off the beginning of a text, or fails. Searching tries
it at every place in turn and goes on behind what it took.
-/

import Deadwood.Text.Blank

namespace Deadwood.Text

/-- Takes something off the beginning of a text: what it read, and the rest. -/
abbrev Reader (α : Type) := List Char → Option (α × List Char)

/-- The hexadecimal digits, in either case. -/
def isHexDigit (c : Char) : Bool :=
  c.isDigit || ('a' ≤ c && c ≤ 'f') || ('A' ≤ c && c ≤ 'F')

/-- What stands behind a given character. -/
def after? (c : Char) : List Char → Option (List Char)
  | [] => none
  | d :: rest => if c = d then some rest else none

/-- What stands behind a given text. -/
def afterText? : List Char → List Char → Option (List Char)
  | [], rest => some rest
  | c :: text, rest => (after? c rest).bind (afterText? text)

/-- Reads up to a character that fits a test, and over it. -/
def readUntil? (isEnd : Char → Bool) : Reader (List Char)
  | [] => none
  | c :: rest =>
    if isEnd c then some ([], rest)
    else (readUntil? isEnd rest).map fun (text, behind) => (c :: text, behind)

/-- Reads a text between two of the same quote. -/
def readQuoted? (quote : Char) : Reader (List Char) := fun text =>
  (after? quote text).bind (readUntil? (· == quote))

/-- What a reader takes off a text, from left to right. `before` is the character
in front, and `read` counts the characters of the last reading that are still to
be passed. -/
def findAllFrom {α : Type} (reader : Option Char → Reader α) (before : Option Char) :
    Nat → List Char → List α
  | _, [] => []
  | read + 1, c :: rest => findAllFrom reader (some c) read rest
  | 0, c :: rest =>
    match reader before (c :: rest) with
    | some (found, behind) =>
      found :: findAllFrom reader (some c) (rest.length - behind.length) rest
    | none => findAllFrom reader (some c) 0 rest

/-- What a reader takes off a text, from left to right. -/
def findAll {α : Type} (reader : Reader α) (text : List Char) : List α :=
  findAllFrom (fun _ => reader) none 0 text

/-- The stretches of a text between what a reader takes off it. -/
def splitBy {α : Type} (reader : Reader α) : Nat → List Char → List (List Char)
  | _, [] => [[]]
  | read + 1, _ :: rest => splitBy reader read rest
  | 0, c :: rest =>
    match reader (c :: rest) with
    | some (_, behind) => [] :: splitBy reader (rest.length - behind.length) rest
    | none =>
      match splitBy reader 0 rest with
      | [] => [[c]]
      | part :: others => (c :: part) :: others

end Deadwood.Text
