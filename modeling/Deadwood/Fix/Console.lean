/-
# Questions on the console

Each question is written and one line is read. Once the input ends, nothing is
removed any more.
-/

import Deadwood.Fix.Policy
import Deadwood.Text.Blank

namespace Deadwood.Fix

/-- A console: what has been typed and not read, and what has been written. -/
structure Console where
  input : List UInt8
  output : List String := []
  /-- How many texts had been written when first nothing was left to read. -/
  unanswered : Option Nat := none
deriving Repr, Inhabited

namespace Console

/-- A line with its end, and what comes behind. -/
def takeLine : List UInt8 → List UInt8 × List UInt8
  | [] => ([], [])
  | b :: rest =>
    if b == 0x0A then ([b], rest)
    else
      let (line, behind) := takeLine rest
      (b :: line, behind)

/-- Writes a text. -/
def write (console : Console) (text : String) : Console :=
  { console with output := console.output ++ [text] }

/-- An answer without the blanks around it, in small letters. -/
def answerOf (line : String) : String :=
  String.ofList ((Text.trim line.toList).map Char.toLower)

/-- Writes a question and reads the answer. There is none if the input has ended,
or if the line is no text. -/
def ask (console : Console) (prompt : String) : Option String × Console :=
  let console := console.write prompt
  if console.input.isEmpty then
    (none, { console with unanswered := console.unanswered.or (some console.output.length) })
  else
    let (line, rest) := takeLine console.input
    ((String.fromUTF8? ⟨line.toArray⟩).map answerOf, { console with input := rest })

/-- What an answer says about a class. -/
def classDecision : Option String → ClassDecision
  | none => .skipAll
  | some answer =>
    if answer == "q" then .skipAll
    else if answer == "y" || answer == "yes" then .process
    else .skip

/-- What an answer says about a function. -/
def functionDecision : Option String → FunctionDecision
  | none => .keep
  | some answer =>
    if answer == "y" || answer == "yes" then .comment
    else if answer == "a" then .commentAllInFile
    else .keep

/-- The lines of a declaration, for a heading. -/
def linesText (span : Span) : String :=
  " (lines " ++ toString span.startLine ++ "-" ++ toString span.stopLine ++ ")"

/-- Asks about a class. -/
def askClass (name : String) (console : Console) : ClassDecision × Console :=
  let console := console.write ("\nUnused class: \"" ++ name ++ "\"\n")
  let (answer, console) := console.ask ("  Remove \"." ++ name ++
    "\" from stylesheets? (y = process / n = skip / q = skip all remaining): ")
  (classDecision answer, console)

/-- Asks about a function. -/
def askFunction (function : Symbol) (excerpt : String) (console : Console) :
    FunctionDecision × Console :=
  let heading := "\nUnused function: " ++ function.name ++ " in " ++ function.file.getD "?" ++
    (function.span.map linesText).getD "" ++ "\n"
  let console := (console.write heading).write (excerpt ++ "\n")
  let (answer, console) := console.ask
    "  Comment out this function? (y = comment / n = keep / a = comment all in this file): "
  (functionDecision answer, console)

/-- Somebody who types the answers. -/
def decider : Decider Console := ⟨askClass, askFunction⟩

/-- All that has been written. -/
def text (console : Console) : String :=
  String.join console.output

end Console

end Deadwood.Fix
