/-
# Fixes

A fix takes dead classes out of the stylesheets and comments dead functions out
of the scripts, or proposes that as patches. What cannot be read or written is
noted and left as it is.
-/

import Deadwood.Fix.Backup
import Deadwood.Fix.Patch
import Deadwood.Fix.Policy

namespace Deadwood.Fix

/-- What a fix did. -/
structure Report where
  /-- The files that were written, in order. -/
  changed : List Path := []
  classes : List String := []
  functions : List String := []
  /-- The patches of a fix that only proposes. -/
  patches : PatchSet := {}
  skipped : List FileFault := []
  backups : Nat := 0
deriving BEq, DecidableEq, Repr, Inhabited

/-- A fix in progress. -/
structure Fixing where
  disk : Disk
  editor : Editor
  report : Report := {}
deriving Inhabited

/-- How a fix is run. -/
structure Plan where
  root : Path
  settings : Settings
  stamp : Stamp
  policy : Policy
deriving Repr, Inhabited

namespace Plan

/-- Where the patches of a fix go. -/
def patchPlace (plan : Plan) : PatchPlace :=
  ⟨plan.root, plan.settings.patchesPath plan.root, plan.stamp⟩

/-- Writes a file behind a backup, and tells whether that worked. -/
def writeFile (plan : Plan) (path : Path) (content : String) (fixing : Fixing) : Bool × Fixing :=
  match fixing.editor.overwrite fixing.disk path content with
  | (none, editor, disk) =>
    let changed := fixing.report.changed
    let changed := if changed.any (·.isSame path) then changed else changed ++ [path]
    (true, { disk, editor, report := { fixing.report with changed } })
  | (some error, editor, disk) =>
    let fault : FileFault := ⟨path.shownIn plan.root, (FixError.disk error).message⟩
    (false, { disk, editor
              report := { fixing.report with skipped := fixing.report.skipped ++ [fault] } })

/-- Takes classes out of a stylesheet. -/
def fixSheet (plan : Plan) (classes : List String) (fixing : Fixing) (path : Path) : Fixing :=
  match strippedSheet? fixing.disk path classes with
  | some (_, content) => (plan.writeFile path content fixing).2
  | none => fixing

/-- Takes classes out of all stylesheets. -/
def fixSheets (plan : Plan) (scan : Scan) (classes : List String) (fixing : Fixing) : Fixing :=
  if classes.isEmpty then fixing
  else
    let fixing := scan.sources.stylesheets.foldl (plan.fixSheet classes) fixing
    { fixing with report := { fixing.report with classes } }

/-- The classes that go. -/
def acceptClasses {σ : Type} (plan : Plan) (decider : Decider σ) (unused : List String)
    (state : σ) : List String × σ :=
  if plan.policy = .applyAll then (sortedNames unused, state)
  else
    let (accepted, state) := askClasses decider unused state
    (sortedNames accepted, state)

/-- Functions in the order of their declarations; those without one come
first. -/
def inOrder (functions : List Symbol) : List Symbol :=
  functions.mergeSort fun a b =>
    match a.span, b.span with
    | none, _ => true
    | some _, none => false
    | some a, some b => a.start ≤ b.start

/-- The functions of a script that go, in order. -/
def acceptFunctions {σ : Type} (plan : Plan) (decider : Decider σ) (source : String)
    (functions : List Symbol) (state : σ) : List Symbol × σ :=
  if plan.policy = .applyAll then (inOrder functions, state)
  else
    let excerptOf (function : Symbol) : String :=
      String.ofList (Script.excerpt source.toList function plan.settings.excerptContext)
    askFunctions decider excerptOf (inOrder functions) state

/-- Comments functions out of a script. -/
def fixScript {σ : Type} (plan : Plan) (decider : Decider σ) (sources : Sources)
    (progress : Fixing × σ) (entry : String × List Symbol) : Fixing × σ :=
  let (fixing, state) := progress
  let path := sources.resolve entry.1
  match fixing.disk.loadSource path with
  | .error error =>
    let fault : FileFault := ⟨entry.1, error.message⟩
    ({ fixing with
        report := { fixing.report with skipped := fixing.report.skipped ++ [fault] } }, state)
  | .ok source =>
    let (chosen, state) := plan.acceptFunctions decider source entry.2 state
    let (content, applied) := commentedScript source chosen plan.stamp.iso
    if chosen.isEmpty || applied = 0 then (fixing, state)
    else
      match plan.writeFile path content fixing with
      | (true, fixing) =>
        let functions := fixing.report.functions ++ chosen.map (·.id)
        ({ fixing with report := { fixing.report with functions } }, state)
      | (false, fixing) => (fixing, state)

/-- Removes what is accepted. -/
def apply {σ : Type} (plan : Plan) (decider : Decider σ) (scan : Scan)
    (candidates : List Candidate) (disk : Disk) (state : σ) : Fixing × σ :=
  let (classes, state) := plan.acceptClasses decider scan.findings.unusedClasses state
  let fixing := plan.fixSheets scan classes { disk, editor := { stamp := plan.stamp } }
  let (fixing, state) :=
    (safeByFile candidates).foldl (plan.fixScript decider scan.sources) (fixing, state)
  ({ fixing with report := { fixing.report with backups := fixing.editor.backups.length } }, state)

/-- Runs a fix on what a scan found: the report or why it stopped, the disk behind
it, and the state of the one who answers. -/
def run {σ : Type} (plan : Plan) (decider : Decider σ) (scan : Scan) (candidates : List Candidate)
    (disk : Disk) (state : σ) : Except FixError Report × Disk × σ :=
  if plan.policy = .patchOnly then
    match propose plan.patchPlace scan candidates disk with
    | (some error, patching) => (.error error, patching.disk, state)
    | (none, patching) => (.ok { patches := patching.written }, patching.disk, state)
  else
    let (fixing, state) := plan.apply decider scan candidates disk state
    (.ok fixing.report, fixing.disk, state)

end Plan

end Deadwood.Fix
