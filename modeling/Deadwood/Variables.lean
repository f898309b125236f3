/-
# Environment variables

Variables can be set in a file: names and values, one to a line, with quotes,
escapes, comments and references to other variables. Those that are set already
keep their values.
-/

import Deadwood.Text.Blank
import Deadwood.Text.Word

namespace Deadwood

/-- Variables and their values. -/
abbrev Variables := List (String × String)

namespace Variables

open Deadwood.Text

/-! ## Lines -/

/-- Where a line stands with respect to quotes. -/
inductive LineState
  | complete
  | blank
  | escape
  | strong
  | strongEscape
  | weak
  | weakEscape
deriving BEq, DecidableEq, Repr

/-- The state behind a character. -/
def LineState.next (state : LineState) (c : Char) : LineState :=
  let opening : LineState :=
    if c = '\\' then .escape else if c = '"' then .weak else if c = '\'' then .strong else .complete
  match state with
  | .blank => opening
  | .escape => .complete
  | .complete => if isBlank c && c != '\n' && c != '\r' then .blank else opening
  | .weak => if c = '\\' then .weakEscape else if c = '"' then .complete else .weak
  | .weakEscape => .weak
  | .strong => if c = '\\' then .strongEscape else if c = '\'' then .complete else .strong
  | .strongEscape => .strong

/-- Reads to the end of a line: its text, the state behind it, and whether a
comment cut it short. -/
def scanLine (state : LineState) : List Char → List Char × LineState × Bool
  | [] => ([], state, false)
  | c :: rest =>
    if state = .blank ∧ c = '#' then ([], state, true)
    else
      let (text, final, cut) := scanLine (state.next c) rest
      (c :: text, final, cut)

/-- The lines of a text, each with its end. -/
def physicalLines : List Char → List (List Char)
  | [] => []
  | '\n' :: rest => ['\n'] :: physicalLines rest
  | c :: rest =>
    match physicalLines rest with
    | [] => [[c]]
    | line :: others => (c :: line) :: others

/-- A line without its end. -/
def withoutEnd (line : List Char) : List Char :=
  match line.reverse with
  | '\n' :: '\r' :: rest => rest.reverse
  | '\n' :: rest => rest.reverse
  | _ => line

/-- The lines of a file. One with an open quote goes on; what is left open at the
end is no line, which is told by a missing entry. -/
def logicalLines (pending : List Char) (state : LineState) :
    List (List Char) → List (Option (List Char))
  | [] => if state = .complete then [] else [none]
  | line :: others =>
    if (trimStart (pending ++ line)).head? == some '#' then
      some [] :: logicalLines [] .complete others
    else
      match scanLine state line with
      | (text, _, true) => some (pending ++ text) :: logicalLines [] .complete others
      | (_, final, false) =>
        if final = .complete then
          some (withoutEnd (pending ++ line)) :: logicalLines [] .complete others
        else logicalLines (pending ++ line) final others

/-! ## Values -/

/-- A value in the course of being read. -/
structure ValueState where
  strong : Bool := false
  weak : Bool := false
  escaped : Bool := false
  /-- Only blanks and a comment may follow. -/
  ending : Bool := false
  /-- A comment has begun. -/
  stopped : Bool := false
  /-- The name of a variable in the course of being read, and whether it stands
  between braces. -/
  reference : Option (Bool × List Char) := none
  output : List Char := []

/-- Adds the value of a variable. -/
def ValueState.substitute (lookup : String → String) (state : ValueState) (name : List Char) :
    ValueState :=
  { state with
    reference := none
    output := state.output ++ (lookup (String.ofList name)).toList }

/-- Takes in a character of a value. -/
def ValueState.step (lookup : String → String) (state : ValueState) (c : Char) :
    Option ValueState :=
  let push (state : ValueState) (c : Char) : ValueState :=
    { state with output := state.output ++ [c] }
  if state.stopped then some state
  else if state.ending then
    if c = ' ' ∨ c = '\t' then some state
    else if c = '#' then some { state with stopped := true }
    else none
  else if state.escaped then
    let state := { state with escaped := false }
    if ['\\', '\'', '"', '$', ' '].contains c then some (push state c)
    else if c = 'n' then some (push state '\n')
    else none
  else if state.strong then
    if c = '\'' then some { state with strong := false } else some (push state c)
  else
    match state.reference with
    | some (braced, name) =>
      if isAlphanumeric c then some { state with reference := some (braced, name ++ [c]) }
      else if braced then
        if c = '\x7d' then some (state.substitute lookup name)
        else some { state with reference := some (braced, name ++ [c]) }
      else if c = '\x7b' ∧ name = [] then some { state with reference := some (true, []) }
      else
        let state := state.substitute lookup name
        if c = '$' then some { state with reference := some (false, []) } else some (push state c)
    | none =>
      if c = '$' then some { state with reference := some (false, []) }
      else if state.weak then
        if c = '"' then some { state with weak := false }
        else if c = '\\' then some { state with escaped := true }
        else some (push state c)
      else if c = '\'' then some { state with strong := true }
      else if c = '"' then some { state with weak := true }
      else if c = '\\' then some { state with escaped := true }
      else if c = ' ' ∨ c = '\t' then some { state with ending := true }
      else some (push state c)

/-- The value that a text stands for. -/
def valueOf? (lookup : String → String) (text : List Char) : Option String :=
  (text.foldlM (ValueState.step lookup) ({} : ValueState)).bind fun state =>
    if state.strong || state.weak then none
    else
      match state.reference with
      | some (true, _) => none
      | some (false, name) => some (String.ofList (state.substitute lookup name).output)
      | none => some (String.ofList (state.substitute lookup []).output)

/-! ## Assignments -/

/-- Reads a name. -/
def readName? (text : List Char) : Option (String × List Char) :=
  let isPart (c : Char) : Bool := c.isAlphanum || c == '_' || c == '.'
  match text with
  | c :: _ =>
    if c.isAlpha || c == '_' then
      some (String.ofList (text.takeWhile isPart), text.dropWhile isPart)
    else none
  | [] => none

/-- What stands behind an equals sign. -/
def afterEquals? : List Char → Option (List Char)
  | '=' :: rest => some rest
  | _ => none

/-- Reads a name and what stands behind its equals sign. The word `export` may
stand in front. -/
def readTarget? (text : List Char) : Option (String × List Char) :=
  (readName? text).bind fun (name, rest) =>
    let rest := trimStart rest
    match afterEquals? rest with
    | some behind => some (name, behind)
    | none =>
      if name == "export" then
        (readName? rest).bind fun (name, rest) =>
          (afterEquals? (trimStart rest)).map fun behind => (name, behind)
      else none

/-- What a line sets; nothing if it is empty or a comment. -/
def assignment? (lookup : String → String) (line : List Char) : Option (Option (String × String)) :=
  let text := trimStart line
  if text.isEmpty || text.head? == some '#' then some none
  else
    (readTarget? text).bind fun (name, rest) =>
      let rest := trimStart rest
      if rest.isEmpty || rest.head? == some '#' then some (some (name, ""))
      else (valueOf? lookup rest).map fun value => some (name, value)

/-- Variables with those that lines set. The first line that cannot be read ends
it. `written` are the values written so far, for references. -/
def loadLines (written : Variables) (environment : Variables) :
    List (Option (List Char)) → Variables
  | [] => environment
  | none :: _ => environment
  | some line :: others =>
    let lookup (name : String) : String :=
      ((List.lookup name environment).orElse fun _ => List.lookup name written).getD ""
    match assignment? lookup line with
    | none => environment
    | some none => loadLines written environment others
    | some (some (name, value)) =>
      let known := (List.lookup name environment).isSome
      loadLines ((name, value) :: written)
        (if known then environment else environment ++ [(name, value)]) others

/-- Variables with those that a file sets. -/
def load (environment : Variables) (text : String) : Variables :=
  let characters :=
    match text.toList with
    | c :: rest => if c.toNat = 0xFEFF then rest else c :: rest
    | [] => []
  loadLines [] environment (logicalLines [] .complete (physicalLines characters))

end Variables

end Deadwood
