/-
# The screen of the dashboard

A snapshot drawn with characters: its status, a chart of how much was found,
lists of the findings, and a line at the bottom. A screen is a list of rows,
made by putting smaller ones beside and below each other.
-/

import Deadwood.Snapshot
import Deadwood.Text.Lines

namespace Deadwood.Screen

/-- Rows of characters. -/
abbrev Rows := List (List Char)

/-- A row cut or filled with blanks to a width. -/
def fit (width : Nat) (row : List Char) : List Char :=
  row.take width ++ List.replicate (width - row.length) ' '

/-- Rows cut or filled to a width and a height. -/
def fill (width height : Nat) (rows : Rows) : Rows :=
  (rows.take height).map (fit width) ++
    List.replicate (height - rows.length) (List.replicate width ' ')

/-- Two blocks of rows side by side. -/
def beside (left right : Rows) : Rows :=
  List.zipWith (· ++ ·) left right

/-- A frame with a title, around as much as fits of some rows. -/
def box (title : String) (width height : Nat) (content : Rows) : Rows :=
  let inner := width - 2
  let heading := title.toList.take inner
  let top := '┌' :: heading ++ List.replicate (inner - heading.length) '─' ++ ['┐']
  let bottom := '└' :: List.replicate inner '─' ++ ['┘']
  let middle := (fill inner (height - 2) content).map fun row => '│' :: row ++ ['│']
  top :: middle ++ [bottom]

/-! ## Status -/

/-- How a snapshot stands. -/
inductive Status
  | waiting
  | errors
  | clean
  | dead
deriving BEq, DecidableEq, Repr, Inhabited

/-- How a snapshot stands. Before the first pass nothing is known; errors weigh
more than dead code. -/
def Status.of (snapshot : Snapshot) : Status :=
  if snapshot.generation = 0 then .waiting
  else if !snapshot.findings.errors.isEmpty then .errors
  else if snapshot.findings.isClean then .clean
  else .dead

/-- The word for a status. -/
def Status.word : Status → String
  | .waiting => "WAITING FOR FIRST PASS"
  | .errors => "ERRORS"
  | .clean => "CLEAN"
  | .dead => "DEAD CODE FOUND"

/-- The name of the colour of a status. -/
def Status.colour : Status → String
  | .waiting => "DarkGray"
  | .errors => "Red"
  | .clean => "Green"
  | .dead => "Yellow"

/-- The line with the status. -/
def statusLine (snapshot : Snapshot) : String :=
  let skipped := snapshot.findings.skipped.length
  "Status: " ++ (Status.of snapshot).word ++ "   pass #" ++ toString snapshot.generation ++
    (if snapshot.stamp.isEmpty then "" else " at " ++ snapshot.stamp) ++
    (if skipped = 0 then "" else "   " ++ toString skipped ++ " file(s) skipped")

/-! ## Chart -/

/-- How wide a bar is. -/
def barWidth : Nat := 7

/-- The numbers in the chart. -/
def counts (findings : Findings) : List (String × Nat) :=
  [("Classes", findings.unusedClasses.length), ("Tags", findings.deprecatedTags.length),
    ("Funcs", findings.unusedFunctions.length), ("Errors", findings.errors.length),
    ("Warns", findings.warnings.length)]

/-- A cell that is filled from below by so many eighths. -/
def cell (eighths : Nat) : Char :=
  [' ', '▁', '▂', '▃', '▄', '▅', '▆', '▇', '█'].getD (min eighths 8) '█'

/-- A text in the middle of a bar, over other characters. -/
def centred (text : List Char) (below : List Char) : List Char :=
  let before := (barWidth - text.length) / 2
  fit barWidth (below.take before ++ text ++ below.drop (before + text.length))

/-- A bar of a height, from top to bottom, with its label under it. The number
stands in its last row. -/
def bar (height most : Nat) (entry : String × Nat) : Rows :=
  let (label, value) := entry
  let eighths := value * height * 8 / most
  let cells := (List.range height).reverse.map fun row =>
    List.replicate barWidth (cell (eighths - 8 * row))
  let numbered :=
    match cells.getLast? with
    | some last =>
      if value = 0 then cells else cells.dropLast ++ [centred (toString value).toList last]
    | none => cells
  numbered ++ [centred label.toList (List.replicate barWidth ' ')]

/-- A chart of numbers. Bars stand one apart; only those that fit are drawn. -/
def chart (width height : Nat) (entries : List (String × Nat)) : Rows :=
  let most := entries.foldl (fun most entry => max most entry.2) 1
  let shown := entries.take ((width + 1) / (barWidth + 1))
  let bars := shown.map (bar (height - 1) most)
  bars.foldr (fun own others => beside own (others.map (' ' :: ·))) (List.replicate height [])

/-! ## Lists -/

/-- A framed list, with the number of its items in the title. -/
def listBox (title : String) (width height : Nat) (items : List String) : Rows :=
  box (title ++ " (" ++ toString items.length ++ ")") width height
    (items.flatMap fun item => Text.lines item.toList)

/-- A deprecated element, with advice if there is any. -/
def tagItem (advice : List (String × Option String)) (tag : String) : String :=
  match (List.lookup tag advice).join with
  | some text => "<" ++ tag ++ "> - " ++ text
  | none => "<" ++ tag ++ ">"

/-- A lint finding. -/
def lintItem (finding : Diagnostic) : String :=
  finding.file ++ ":" ++ toString finding.line ++ " [" ++ finding.rule ++ "] " ++ finding.message

/-- The lists of findings, one under the other. -/
def lists (width height : Nat) (findings : Findings) : Rows :=
  let each := height / 4
  listBox "Unused CSS classes" width each (findings.unusedClasses.map ("." ++ ·)) ++
    listBox "Deprecated tags" width each
      (findings.deprecatedTags.map (tagItem findings.tagAdvice)) ++
    listBox "Unused JS functions" width each
      (findings.unusedFunctions.map fun f => f.name ++ " - " ++ f.file) ++
    listBox "Lint" width (height - 3 * each)
      ((findings.errors ++ findings.warnings).map lintItem)

/-- The line at the bottom. -/
def footer : String := "Press 'q' to exit"

/-- The whole screen. -/
def draw (width height : Nat) (snapshot : Snapshot) : Rows :=
  let left := width * 40 / 100
  let main := height - 4
  box "deadwatcher" width 3 [(statusLine snapshot).toList] ++
    beside
      (box "Findings" left main (chart (left - 2) (main - 2) (counts snapshot.findings)))
      (lists (width - left) main snapshot.findings) ++
    [fit width footer.toList]

/-- A row without the blanks at its end. -/
def trimmedRow (row : List Char) : String :=
  String.ofList ((row.reverse.dropWhile (· == ' ')).reverse)

end Deadwood.Screen
