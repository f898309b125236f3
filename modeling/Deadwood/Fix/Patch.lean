/-
# Patches

A run that only proposes changes writes each as a diff into a directory of its
own, and a manifest of them all.
-/

import Deadwood.Json.Record
import Deadwood.Scan
import Deadwood.Script.Removal
import Deadwood.Stamp
import Deadwood.Stylesheet.Strip
import Deadwood.Text.LineDiff

namespace Deadwood.Fix

/-! ## What would change -/

/-- The text of a stylesheet and what is left of it without some classes, if
that differs. -/
def strippedSheet? (disk : Disk) (path : Path) (classes : List String) :
    Option (String × String) :=
  match disk.loadSource path with
  | .error _ => none
  | .ok source =>
    let rules := Stylesheet.ruleSpans (Stylesheet.parse source)
    let outcome := Stylesheet.strip rules source.toList fun name =>
      classes.contains (String.ofList name)
    if outcome.changed then some (source, String.ofList outcome.content) else none

/-- The functions that can go, by the files that declare them, in the order of
their names. -/
def safeByFile (candidates : List Candidate) : List (String × List Symbol) :=
  let safe := (candidates.filter (·.verdict.isSafe)).map (·.symbol)
  (sortedNames (safe.filterMap (·.file))).map fun file =>
    (file, safe.filter (·.file == some file))

/-- A script with functions commented out, and how many were. -/
def commentedScript (source : String) (functions : List Symbol) (iso : String) : String × Nat :=
  let (text, applied) := Script.commentOut source.toList functions iso.toList
  (String.ofList text, applied)

/-! ## Writing patches -/

/-- Why a run stops. -/
inductive FixError
  | disk (error : DiskError)
  | patchDirectory (path : Path) (error : DiskError)
deriving BEq, DecidableEq, Repr, Inhabited

/-- The text of an error. -/
def FixError.message : FixError → String
  | .disk error => "I/O error: " ++ error.message
  | .patchDirectory path error =>
    "Cannot create patch directory " ++ path.text ++ ": " ++ error.message

/-- The patches that were written. -/
structure PatchSet where
  patches : List Path := []
  manifest : Option Path := none
  suggestions : List Suggestion := []
deriving BEq, DecidableEq, Repr, Inhabited

/-- The patches being written. -/
structure Patching where
  disk : Disk
  /-- How often each name has been asked for. -/
  names : List (String × Nat) := []
  /-- Whether the directory has been made. -/
  ready : Bool := false
  written : PatchSet := {}
deriving Inhabited

/-- Where patches go, and for which run. -/
structure PatchPlace where
  root : Path
  directory : Path
  stamp : Stamp
deriving Repr, Inhabited

namespace PatchPlace

/-- The name of the next patch for a file. Further ones of the same name get a
number. -/
def patchName (place : PatchPlace) (names : List (String × Nat)) (target : Path) :
    String × List (String × Nat) :=
  let stem := place.stamp.millis ++ "_" ++ target.baseName
  let seen := (List.lookup stem names).getD 0 + 1
  let name := if seen = 1 then stem ++ ".diff" else stem ++ "-" ++ toString seen ++ ".diff"
  (name, (stem, seen) :: names.filter (·.1 != stem))

/-- The name of the manifest. -/
def manifestName (place : PatchPlace) : String :=
  "suggested-changes." ++ place.stamp.millis ++ ".json"

/-- Makes the directory, once in a run. -/
def ensureDirectory (place : PatchPlace) (patching : Patching) : Option FixError × Patching :=
  if patching.ready then (none, patching)
  else
    match patching.disk.makePath place.directory with
    | (none, disk) => (none, { patching with disk, ready := true })
    | (some error, disk) =>
      (some (.patchDirectory place.directory error), { patching with disk })

/-- Writes a file into the directory. -/
def writeInto (place : PatchPlace) (patching : Patching) (name content : String) :
    Option FixError × Patching :=
  let (error, disk) := patching.disk.write (place.directory.join ⟨name⟩) content.toUTF8
  (error.map .disk, { patching with disk })

/-- Writes the patch for one file. -/
def emit (place : PatchPlace) (kind : PatchKind) (target : Path) (old new : String)
    (patching : Patching) : Option FixError × Patching :=
  match place.ensureDirectory patching with
  | (some error, patching) => (some error, patching)
  | (none, patching) =>
    let shown := target.shownIn place.root
    let diff := String.ofList (Text.lineDiff shown.toList old.toList new.toList)
    let (name, names) := place.patchName patching.names target
    match place.writeInto { patching with names } name diff with
    | (some error, patching) => (some error, patching)
    | (none, patching) =>
      let path := place.directory.join ⟨name⟩
      let suggestion : Suggestion :=
        ⟨shown, kind, path.shownIn place.root, place.stamp.millis⟩
      let written := { patching.written with
        patches := patching.written.patches ++ [path]
        suggestions := patching.written.suggestions ++ [suggestion] }
      (none, { patching with written })

/-- Writes the manifest, if there is anything to list. -/
def emitManifest (place : PatchPlace) (patching : Patching) : Option FixError × Patching :=
  if patching.written.suggestions.isEmpty then (none, patching)
  else
    match place.ensureDirectory patching with
    | (some error, patching) => (some error, patching)
    | (none, patching) =>
      let manifest : Manifest := ⟨place.stamp.millis, patching.written.suggestions⟩
      match place.writeInto patching place.manifestName manifest.toJson.toPretty with
      | (some error, patching) => (some error, patching)
      | (none, patching) =>
        let path := place.directory.join ⟨place.manifestName⟩
        (none, { patching with written := { patching.written with manifest := some path } })

end PatchPlace

/-- Does one step for each item, up to the first error. -/
def Patching.each {α : Type} (step : α → Patching → Option FixError × Patching) :
    List α → Patching → Option FixError × Patching
  | [], patching => (none, patching)
  | item :: others, patching =>
    match step item patching with
    | (some error, patching) => (some error, patching)
    | (none, patching) => Patching.each step others patching

/-- Writes the patch for a stylesheet, if it would change. -/
def patchSheet (place : PatchPlace) (classes : List String) (path : Path) (patching : Patching) :
    Option FixError × Patching :=
  match strippedSheet? patching.disk path classes with
  | some (old, new) => place.emit .classRemoval path old new patching
  | none => (none, patching)

/-- Writes the patch for a script, if it would change. -/
def patchScript (place : PatchPlace) (sources : Sources) (entry : String × List Symbol)
    (patching : Patching) : Option FixError × Patching :=
  let path := sources.resolve entry.1
  match patching.disk.loadSource path with
  | .error _ => (none, patching)
  | .ok old =>
    let (new, applied) := commentedScript old entry.2 place.stamp.iso
    if applied = 0 || new == old then (none, patching)
    else place.emit .functionComment path old new patching

/-- Proposes everything that could be removed. -/
def propose (place : PatchPlace) (scan : Scan) (candidates : List Candidate) (disk : Disk) :
    Option FixError × Patching :=
  let classes := scan.findings.unusedClasses
  let sheets := if classes.isEmpty then [] else scan.sources.stylesheets
  match Patching.each (patchSheet place classes) sheets { disk } with
  | (some error, patching) => (some error, patching)
  | (none, patching) =>
    match Patching.each (patchScript place scan.sources) (safeByFile candidates) patching with
    | (some error, patching) => (some error, patching)
    | (none, patching) => place.emitManifest patching

end Deadwood.Fix
