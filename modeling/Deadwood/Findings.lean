/-
# Findings of an analysis

What one pass over a project has to report.
-/

import Deadwood.Diagnostic

namespace Deadwood

/-- A function that nothing mentions. -/
structure UnusedFunction where
  name : String
  file : String
deriving BEq, DecidableEq, Repr, Inhabited

/-- A file that was left out, and why. -/
structure FileFault where
  file : String
  reason : String
deriving BEq, DecidableEq, Repr, Inhabited

/-- A file that was left out, on one line. -/
def FileFault.text (fault : FileFault) : String :=
  fault.file ++ ": " ++ fault.reason

/-- What a pass found. -/
structure Findings where
  unusedClasses : List String := []
  deprecatedTags : List String := []
  unusedFunctions : List UnusedFunction := []
  errors : List Diagnostic := []
  warnings : List Diagnostic := []
  /-- What to use in place of each deprecated element, by name. -/
  tagAdvice : List (String × Option String) := []
  /-- The files that were left out. -/
  skipped : List FileFault := []
deriving BEq, DecidableEq, Repr, Inhabited

/-- Whether there is nothing to report. Files that were left out do not
count. -/
def Findings.isClean (findings : Findings) : Bool :=
  findings.unusedClasses.isEmpty && findings.deprecatedTags.isEmpty &&
    findings.unusedFunctions.isEmpty && findings.errors.isEmpty && findings.warnings.isEmpty

end Deadwood
