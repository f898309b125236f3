/-
# Commenting functions out

A function that goes is kept as comments under a banner, so that nothing of it
runs and nothing of it is lost.
-/

import Deadwood.Symbol
import Deadwood.Text.Blank
import Deadwood.Text.Lines
import Deadwood.Text.Splice

namespace Deadwood.Script

open Deadwood.Text

/-- A line without the given indentation, if it has it. -/
def outdent (indent line : List Char) : List Char :=
  if indent.isPrefixOf line then line.drop indent.length else line

/-- A line as a comment, without blanks at its end. -/
def commented (line : List Char) : List Char :=
  trimEnd ("// ".toList ++ line)

/-- What takes the place of a function: a banner with its name and the time, and
its lines as comments at the same indentation. -/
def removalBlock (name text indent iso : List Char) : List Char :=
  let body :=
    match lines text with
    | [] => []
    | first :: others => first :: others.map (outdent indent)
  let banner := "/* DEADWATCHER REMOVED FUNCTION: ".toList ++ name ++ " - ".toList ++ iso ++ " */".toList
  joinWith ('\n' :: indent)
    (banner :: "// ORIGINAL (kept commented):".toList :: body.map commented) ++ ['\n']

/-- The blanks between the beginning of a line and the end of a text, if there is
nothing else. -/
def indentAtEnd (before : List Char) : List Char :=
  let line := (before.reverse.takeWhile (· != '\n')).reverse
  if line.all fun c => c == ' ' || c == '\t' then line else []

/-- The edit that comments a function out. There is none if its declaration is
not known or does not lie in the text. -/
def removalEdit? (source : List Char) (iso : List Char) (function : Symbol) : Option Edit := do
  let span ← function.span
  let text ← slice? source ⟨span.start, span.stop⟩
  let (before, _) ← splitAt? span.start source
  return ⟨span.start, span.stop,
    removalBlock function.name.toList text (indentAtEnd before) iso⟩

/-- A script with functions commented out, and how many were. -/
def commentOut (source : List Char) (functions : List Symbol) (iso : List Char) :
    List Char × Nat :=
  (splice? source (functions.filterMap (removalEdit? source iso))).getD (source, 0)

/-- A sum, if it fits into a word of 64 bits. -/
def wordSum? (a b : Nat) : Option Nat :=
  if a + b < 0x10000000000000000 then some (a + b) else none

/-- A line behind its number. -/
def numbered (number : Nat) (line : List Char) : List Char :=
  (toString number).toList ++ ": ".toList ++ line

/-- The line at an index behind its number, which is counted from one. -/
def numberedLine? (all : Array (List Char)) (index : Nat) : Option (List Char) := do
  let number ← wordSum? index 1
  let line ← all[index]?
  return numbered number line

/-- The lines of a declaration and so many around it, each behind its number. There
are none if a line is counted beyond a word, or one is looked for that the text does
not have. -/
def excerpt? (source : List Char) (function : Symbol) (context : Nat) : Option (List Char) :=
  match function.span with
  | none => some []
  | some span => do
    let all := (lines source).toArray
    let first := span.startLine - 1 - context
    let reach ← wordSum? (span.stopLine - 1) context
    let last := min reach (all.size - 1)
    let shown ← (List.range' first (last + 1 - first)).mapM (numberedLine? all)
    return unlines shown

/-- What is shown of a declaration. -/
def excerpt (source : List Char) (function : Symbol) (context : Nat) : List Char :=
  (excerpt? source function context).getD []

end Deadwood.Script
