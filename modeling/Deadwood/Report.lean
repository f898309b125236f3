/-
# Reports

What the console shows of scans, fixes and reverts.
-/

import Deadwood.Fix.Run
import Deadwood.Revert

namespace Deadwood.Report

/-- A text with blanks behind it, up to a width. -/
def padEnd (width : Nat) (text : String) : String :=
  text ++ String.ofList (List.replicate (width - text.length) ' ')

/-- A text with blanks before it, up to a width. -/
def padStart (width : Nat) (text : String) : String :=
  String.ofList (List.replicate (width - text.length) ' ') ++ text

/-- A line across. -/
def rule : String := "+------------------------------------------+"

/-- The title of a report, between lines. -/
def header (title : String) : List String :=
  [rule, "| " ++ padEnd 40 title ++ " |", rule]

/-- A number with a label. -/
def row (label : String) (value : Nat) : String :=
  "| " ++ padEnd 17 label ++ ": " ++ padStart 21 (toString value) ++ " |"

/-- Lines of text. -/
def unlines (lines : List String) : String :=
  String.join (lines.map (· ++ "\n"))

/-- Lines under a title, behind an empty line. There is no title without them. -/
def titled (title : String) (lines : List String) : List String :=
  if lines.isEmpty then [] else "" :: (title ++ ":") :: lines

/-- A deprecated element, with advice if there is any. -/
def tagLine (advice : List (String × Option String)) (tag : String) : String :=
  match (List.lookup tag advice).join with
  | some text => "  <" ++ tag ++ "> - " ++ text
  | none => "  <" ++ tag ++ ">"

/-- A lint finding and its advice. -/
def diagnosticLines (finding : Diagnostic) : List String :=
  ["  " ++ finding.file ++ ":" ++ toString finding.line ++ " [" ++ finding.rule ++ "] " ++
      finding.message,
    "      hint: " ++ finding.suggestion]

/-- The report on a scan. -/
def ofScan (findings : Findings) (files : Nat) : String :=
  unlines (header "DEADWATCHER SCAN" ++
    [row "Files analysed" files,
      row "Unused classes" findings.unusedClasses.length,
      row "Deprecated tags" findings.deprecatedTags.length,
      row "Unused functions" findings.unusedFunctions.length,
      row "JS errors" findings.errors.length,
      row "JS warnings" findings.warnings.length,
      row "Skipped files" findings.skipped.length,
      rule] ++
    (if findings.isClean then ["No dead code detected."] else []) ++
    titled "UNUSED CSS CLASSES" (findings.unusedClasses.map ("  ." ++ ·)) ++
    titled "DEPRECATED HTML TAGS" (findings.deprecatedTags.map (tagLine findings.tagAdvice)) ++
    titled "UNUSED JS FUNCTIONS"
      (findings.unusedFunctions.map fun f => "  " ++ f.file ++ " - " ++ f.name) ++
    titled "JS ERRORS" (findings.errors.flatMap diagnosticLines) ++
    titled "JS WARNINGS" (findings.warnings.flatMap diagnosticLines) ++
    titled "SKIPPED FILES" (findings.skipped.map fun fault => "  " ++ fault.text))

/-- The part of a report that lists patches. -/
def patchLines (root : Path) (set : Fix.PatchSet) : List String :=
  [row "Patches written" set.patches.length, rule] ++
    set.patches.map (fun path => "  " ++ path.shownIn root) ++
    (set.manifest.toList.map fun path => "Manifest: " ++ path.shownIn root) ++
    (if set.patches.isEmpty then ["Nothing to patch."] else [])

/-- The part of a report that lists changed files. -/
def changeLines (root : Path) (stamp : Stamp) (report : Fix.Report) : List String :=
  [row "Classes removed" report.classes.length,
      row "Functions removed" report.functions.length,
      row "Files changed" report.changed.length,
      row "Backups taken" report.backups,
      rule] ++
    report.changed.map (fun path => "  updated " ++ path.shownIn root) ++
    report.skipped.map (fun fault => "  skipped " ++ fault.text) ++
    (if report.changed.isEmpty then ["Nothing changed."]
      else ["Undo with: deadwatcher revert " ++ root.text ++ " " ++ stamp.millis])

/-- The report on a fix. -/
def ofFix (root : Path) (stamp : Stamp) (policy : Fix.Policy) (report : Fix.Report) : String :=
  unlines (header ("DEADWATCHER FIX (" ++ policy.text ++ ")") ++
    if policy = .patchOnly then patchLines root report.patches
    else changeLines root stamp report)

/-- The report on a revert. -/
def ofRevert (root : Path) : Revert.Outcome → String
  | .restored files =>
    unlines (("Restored " ++ toString files.length ++ " file(s):") :: files.map fun file =>
      "  " ++ file.restoredTo.shownIn root ++ " <- " ++ file.backup.shownIn root)
  | .miss message => unlines [message]

end Deadwood.Report
