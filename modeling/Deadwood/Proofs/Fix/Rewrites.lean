/-
# What runs do to scripts

A run goes through the scripts that declare functions to go. It reads each one as it
stands at that moment and replaces the stretches that were recorded for the functions,
whatever stands there now. Where a text reads as it did when a function was read off
it, the stretch holds the function's name.
-/

import Deadwood.Fix.Run
import Deadwood.Proofs.Fix.Job
import Deadwood.Proofs.Scanned
import Deadwood.Proofs.Script.Removal

namespace Deadwood.Fix

open Deadwood.Script (HasWordIn KeepsTo ReadsAlike removalBlock removalEdit?)
open Deadwood.Text
open Deadwood.Verdict (bytesOf)

variable {σ : Type} {plan : Plan} {decider : Decider σ} {sources : Sources}
  {progress : Fixing × σ} {entry : String × List Symbol}

/-! ## Rewrites -/

/-- What a run does to a script. -/
structure Rewrite where
  path : Path
  /-- The text as it stood at that moment. -/
  read : String
  /-- The functions that were chosen to go. -/
  functions : List Symbol
  written : String

/-- The disk and the editor of a run in progress. -/
structure Workspace where
  disk : Disk
  editor : Editor

def Fixing.workspace (fixing : Fixing) : Workspace :=
  ⟨fixing.disk, fixing.editor⟩

/-- Writes what a script becomes, behind a backup. Whether that works is up to the
disk. -/
def Workspace.write (workspace : Workspace) (rewrite : Rewrite) : Workspace :=
  let outcome := workspace.editor.overwrite workspace.disk rewrite.path rewrite.written
  ⟨outcome.2.2, outcome.2.1⟩

/-- Scripts are rewritten one after the other, each as it stands by then. -/
inductive Performs : Workspace → List Rewrite → Workspace → Prop
  | done {workspace : Workspace} : Performs workspace [] workspace
  | next {workspace last : Workspace} {rewrite : Rewrite} {rewrites : List Rewrite}
      (read : workspace.disk.loadSource rewrite.path = .ok rewrite.read)
      (rest : Performs (workspace.write rewrite) rewrites last) :
      Performs workspace (rewrite :: rewrites) last

theorem Performs.append {first between last : Workspace} {rewrites others : List Rewrite}
    (hfirst : Performs first rewrites between) (hothers : Performs between others last) :
    Performs first (rewrites ++ others) last := by
  induction hfirst with
  | done => exact hothers
  | next read rest ih => exact .next read (ih hothers)

namespace Plan

/-- What becomes of a script with functions to go, if anything is taken out of it. -/
def rewrite? (plan : Plan) (decider : Decider σ) (sources : Sources) (progress : Fixing × σ)
    (entry : String × List Symbol) : Option Rewrite :=
  (progress.1.disk.loadSource (sources.resolve entry.1)).toOption.bind fun source =>
    let chosen := (plan.acceptFunctions decider source entry.2 progress.2).1
    let outcome := commentedScript source chosen plan.stamp.iso
    if chosen.isEmpty || outcome.2 = 0 then none
    else some ⟨sources.resolve entry.1, source, chosen, outcome.1⟩

/-- What becomes of several scripts. -/
def rewrites (plan : Plan) (decider : Decider σ) (sources : Sources) :
    List (String × List Symbol) → Fixing × σ → List Rewrite
  | [], _ => []
  | entry :: entries, progress =>
    (plan.rewrite? decider sources progress entry).toList ++
      plan.rewrites decider sources entries (plan.fixScript decider sources progress entry)

/-- A run in progress when it has gone through the stylesheets. -/
def beforeScripts (plan : Plan) (decider : Decider σ) (scan : Scan) (disk : Disk) (state : σ) :
    Fixing × σ :=
  let accepted := plan.acceptClasses decider scan.findings.unusedClasses state
  (plan.fixSheets scan accepted.1 { disk, editor := { stamp := plan.stamp } }, accepted.2)

theorem workspace_writeFile (plan : Plan) (fixing : Fixing) (rewrite : Rewrite) :
    (plan.writeFile rewrite.path rewrite.written fixing).2.workspace =
      fixing.workspace.write rewrite := by
  unfold writeFile Workspace.write Fixing.workspace
  dsimp only
  rcases fixing.editor.overwrite fixing.disk rewrite.path rewrite.written with
    ⟨_ | error, editor, disk⟩ <;> rfl

/-- One script is rewritten, or nothing is written. -/
theorem performs_fixScript (plan : Plan) (decider : Decider σ) (sources : Sources)
    (progress : Fixing × σ) (entry : String × List Symbol) :
    Performs progress.1.workspace (plan.rewrite? decider sources progress entry).toList
      (plan.fixScript decider sources progress entry).1.workspace := by
  obtain ⟨fixing, state⟩ := progress
  unfold rewrite? fixScript
  dsimp only
  cases hload : fixing.disk.loadSource (sources.resolve entry.1) with
  | error error => exact .done
  | ok source =>
    dsimp only [Except.toOption, Option.bind_some]
    split
    · exact .done
    · have hwritten := plan.workspace_writeFile fixing ⟨sources.resolve entry.1, source,
        (plan.acceptFunctions decider source entry.2 state).1,
        (commentedScript source (plan.acceptFunctions decider source entry.2 state).1
          plan.stamp.iso).1⟩
      refine .next hload ?_
      rw [← hwritten]
      dsimp only
      rcases plan.writeFile _ _ fixing with ⟨worked, written⟩
      cases worked <;> exact .done

/-- The scripts are rewritten one after the other. -/
theorem performs_rewrites (plan : Plan) (decider : Decider σ) (sources : Sources)
    (entries : List (String × List Symbol)) (progress : Fixing × σ) :
    Performs progress.1.workspace (plan.rewrites decider sources entries progress)
      (entries.foldl (plan.fixScript decider sources) progress).1.workspace := by
  induction entries generalizing progress with
  | nil => exact .done
  | cons entry entries ih =>
    exact (plan.performs_fixScript decider sources progress entry).append (ih _)

theorem mem_rewrites {entries : List (String × List Symbol)} {rewrite : Rewrite}
    (hrewrite : rewrite ∈ plan.rewrites decider sources entries progress) :
    ∃ entry ∈ entries, ∃ progress, plan.rewrite? decider sources progress entry = some rewrite := by
  induction entries generalizing progress with
  | nil => simp [rewrites] at hrewrite
  | cons entry entries ih =>
    rcases List.mem_append.mp hrewrite with hrewrite | hrewrite
    · exact ⟨entry, List.mem_cons_self, progress, Option.mem_toList.mp hrewrite⟩
    · obtain ⟨other, hother, hfound⟩ := ih hrewrite
      exact ⟨other, List.mem_cons_of_mem _ hother, hfound⟩

theorem mem_of_mem_askFunctions {excerptOf : Symbol → String} {functions : List Symbol} {state : σ}
    {function : Symbol} (hfunction : function ∈ (askFunctions decider excerptOf functions state).1) :
    function ∈ functions := by
  induction functions generalizing state with
  | nil => exact hfunction
  | cons first functions ih =>
    rw [askFunctions] at hfunction
    split at hfunction
    · rcases List.mem_cons.mp hfunction with rfl | hfunction
      · exact List.mem_cons_self
      · exact List.mem_cons_of_mem _ (ih hfunction)
    · exact List.mem_cons_of_mem _ (ih hfunction)
    · exact hfunction

theorem mem_of_mem_acceptFunctions {source : String} {functions : List Symbol} {state : σ}
    {function : Symbol}
    (hfunction : function ∈ (plan.acceptFunctions decider source functions state).1) :
    function ∈ functions := by
  unfold acceptFunctions at hfunction
  split at hfunction
  · exact List.mem_mergeSort.mp hfunction
  · exact List.mem_mergeSort.mp (mem_of_mem_askFunctions hfunction)

theorem rewrite?_spec {rewrite : Rewrite}
    (hrewrite : plan.rewrite? decider sources progress entry = some rewrite) :
    rewrite.path = sources.resolve entry.1 ∧ (∀ function ∈ rewrite.functions, function ∈ entry.2) ∧
      rewrite.written = (commentedScript rewrite.read rewrite.functions plan.stamp.iso).1 := by
  obtain ⟨source, -, hrewrite⟩ := Option.bind_eq_some_iff.mp hrewrite
  dsimp only at hrewrite
  split at hrewrite
  · simp at hrewrite
  · obtain rfl := Option.some.inj hrewrite
    exact ⟨rfl, fun function hfunction => mem_of_mem_acceptFunctions hfunction, rfl⟩

end Plan

/-! ## What is replaced -/

/-- Commenting functions out replaces the stretches recorded for some of them. -/
theorem exists_replaces_commentOut (source : List Char) (functions : List Symbol)
    (iso : List Char) :
    ∃ edits, Replaces 0 source edits (Script.commentOut source functions iso).1 ∧
      ∀ edit ∈ edits, ∃ function ∈ functions, removalEdit? source iso function = some edit :=
  ⟨_, (Script.commentOut_spec source functions iso).2, fun _ hedit =>
    List.mem_filterMap.mp (mem_of_mem_chosenEdits hedit)⟩

theorem mem_candidates_of_mem_safeByFile {candidates : List Candidate} {function : Symbol}
    (hentry : entry ∈ safeByFile candidates) (hfunction : function ∈ entry.2) :
    ⟨function, .safe⟩ ∈ candidates ∧ function.file = some entry.1 := by
  simp only [safeByFile, List.mem_map] at hentry
  obtain ⟨file, -, rfl⟩ := hentry
  obtain ⟨hfunction, hfile⟩ := List.mem_filter.mp hfunction
  obtain ⟨candidate, hcandidate, rfl⟩ := List.mem_map.mp hfunction
  obtain ⟨hcandidate, hsafe⟩ := List.mem_filter.mp hcandidate
  obtain ⟨symbol, verdict⟩ := candidate
  cases verdict with
  | kept reason => simp [Verdict.isSafe] at hsafe
  | safe => exact ⟨hcandidate, by simpa using hfile⟩

/-- A function was read off a text, by a tree that keeps to it. -/
def ReadOff (function : Symbol) (text : String) : Prop :=
  ∃ tree file, KeepsTo tree text ∧
    function ∈ (Script.factsOf tree (.ofString text) file).functions

/-- An edit of a script puts the block for a function in place of the stretch that was
recorded for it. Where the script reads as the text did off which the function was
read, its name stands there. -/
structure CommentsOut (rewrite : Rewrite) (iso : String) (edit : Edit) (function : Symbol)
    (span : Span) : Prop where
  recorded : function.span = some span
  start : edit.start = span.start
  stop : edit.stop = span.stop
  block : ∃ part indent, slice? rewrite.read.toList ⟨span.start, span.stop⟩ = some part ∧
    edit.replacement = removalBlock function.name.toList part indent iso.toList
  named : ∀ text, ReadOff function text → ReadsAlike span text rewrite.read →
    HasWordIn (bytesOf function.name) (bytesOf rewrite.read) span.start span.stop

theorem exists_commentsOut {rewrite : Rewrite} {iso : String} {function : Symbol} {edit : Edit}
    (hedit : removalEdit? rewrite.read.toList iso.toList function = some edit) :
    ∃ span, CommentsOut rewrite iso edit function span := by
  obtain ⟨span, part, indent, hspan, hpart, rfl⟩ := Script.removalEdit?_spec hedit
  refine ⟨span, hspan, rfl, rfl, ⟨part, indent, hpart, rfl⟩, ?_⟩
  rintro text ⟨tree, file, htree, hfunction⟩ halike
  exact (Script.hasWordIn_of_mem_functions htree hfunction hspan).of_readsAlike halike

/-- What a run replaces in scripts are the stretches recorded for functions. The run
rewrites scripts one after the other, each as it stands by then. Every stretch that it
replaces is the one recorded for a safe candidate, whose block it puts there; and the
name of the function stands in it, as a whole word, if from the byte before to the byte
behind the script reads as the text did off which the function was read. For the
candidates of a scan, that is the text of the declaring script at the time of the scan,
if its tree keeps to it. -/
theorem run_replaces_recorded_stretches (plan : Plan) (decider : Decider σ) (scan : Scan)
    (candidates : List Candidate) (disk : Disk) (state : σ) (hpolicy : plan.policy ≠ .patchOnly) :
    let begun := plan.beforeScripts decider scan disk state
    let rewrites := plan.rewrites decider scan.sources (safeByFile candidates) begun
    (∃ editor, Performs begun.1.workspace rewrites
      ⟨(plan.run decider scan candidates disk state).2.1, editor⟩) ∧
    (∀ rewrite ∈ rewrites, ∃ edits,
      Replaces 0 rewrite.read.toList edits rewrite.written.toList ∧
      ∀ edit ∈ edits, ∃ function span, ⟨function, .safe⟩ ∈ candidates ∧
        function.file.map scan.sources.resolve = some rewrite.path ∧
        CommentsOut rewrite plan.stamp.iso edit function span) ∧
    ∀ scanned root settings judged others, Scan.run scanned root settings = .ok scan →
      candidates = scan.candidates judged others → ∀ candidate ∈ candidates,
        ∃ script ∈ scan.sources.scripts, ∃ text, scanned.loadSource script = .ok text ∧
          candidate.symbol.file = some (scan.sources.shown script) ∧
          (KeepsTo (Script.parse text) text → ReadOff candidate.symbol text) := by
  intro begun rewrites
  refine ⟨?_, ?_, ?_⟩
  · rw [Plan.run, if_neg hpolicy]
    exact ⟨_, plan.performs_rewrites decider scan.sources (safeByFile candidates) begun⟩
  · intro rewrite hrewrite
    obtain ⟨entry, hentry, progress, hfound⟩ := Plan.mem_rewrites hrewrite
    obtain ⟨hpath, hchosen, hwritten⟩ := Plan.rewrite?_spec hfound
    obtain ⟨edits, hreplaces, hedits⟩ := exists_replaces_commentOut rewrite.read.toList
      rewrite.functions plan.stamp.iso.toList
    refine ⟨edits, ?_, ?_⟩
    · rw [hwritten, commentedScript, String.toList_ofList]
      exact hreplaces
    · intro edit hedit
      obtain ⟨function, hfunction, hremoval⟩ := hedits edit hedit
      obtain ⟨hcandidate, hfile⟩ :=
        mem_candidates_of_mem_safeByFile hentry (hchosen function hfunction)
      obtain ⟨span, hcomments⟩ := exists_commentsOut hremoval
      exact ⟨function, span, hcandidate, by rw [hfile, hpath]; rfl, hcomments⟩
  · rintro scanned root settings judged others hscan rfl candidate hcandidate
    obtain ⟨script, hscript, hdeclares⟩ :=
      Scan.exists_declares_of_mem_unused hscan (Scan.symbol_mem_unused hcandidate)
    have hfile := hdeclares.file_eq
    obtain ⟨text, hload, hfunction⟩ := hdeclares
    exact ⟨script, hscript, text, hload, hfile, fun hkeeps => ⟨_, _, hkeeps, hfunction⟩⟩

/-- A script as it was scanned, with a function to go. -/
def helpScript : String :=
  "function helper(){}helper;"

def leafNode (kind : String) (label : Option String) (start stop : Nat) : Grammar.Node :=
  .mk kind true label start stop 0 0 false false []

def helperName : Grammar.Node :=
  leafNode "identifier" (some "name") 9 15

def helperDeclaration : Grammar.Node :=
  .mk "function_declaration" true none 0 19 0 0 false false
    [leafNode "function" none 0 8, helperName, leafNode "formal_parameters" (some "parameters") 15 17,
      leafNode "statement_block" (some "body") 17 19]

def helpTree : Grammar.Node :=
  .mk "program" true none 0 26 0 0 false false
    [helperDeclaration,
      .mk "expression_statement" true none 19 26 0 0 false false [leafNode "identifier" none 19 25]]

theorem helperName_isWordAt : Verdict.IsWordAt (bytesOf "helper") (bytesOf helpScript) 9 :=
  ⟨bytesOf "function ", bytesOf "(){}helper;", by decide +kernel, by decide +kernel,
    by decide +kernel, by decide +kernel⟩

theorem helpTree_keepsTo : KeepsTo helpTree helpScript where
  nested := by
    have hall : helpTree.preorder.all (fun node => node.children.all fun child =>
        decide (node.Encloses child)) = true := by decide +kernel
    intro node hnode child hchild
    exact of_decide_eq_true (List.all_eq_true.mp (List.all_eq_true.mp hall node hnode) child hchild)
  word := by
    intro node hnode hkind
    have hleaves : helpTree.preorder.filter (·.kind == "identifier") =
        [helperName, leafNode "identifier" none 19 25] := rfl
    have hmem : node ∈ helpTree.preorder.filter (·.kind == "identifier") :=
      List.mem_filter.mpr ⟨hnode, by simp [hkind]⟩
    rw [hleaves] at hmem
    refine ⟨"helper", ?_⟩
    rcases List.mem_cons.mp hmem with rfl | hmem
    · exact ⟨by decide +kernel, helperName_isWordAt⟩
    · obtain rfl := List.mem_singleton.mp hmem
      exact ⟨by decide +kernel, Verdict.helper_isWordAt⟩

theorem helperFunction_readOff : ReadOff Verdict.helperFunction helpScript := by
  refine ⟨helpTree, "app.js", helpTree_keepsTo, ?_⟩
  have hplaced : (helperDeclaration, [helpTree]) ∈ helpTree.placed [] :=
    List.mem_cons_of_mem _ List.mem_cons_self
  have hname : Script.declaredName? helperDeclaration = some helperName := rfl
  have hown : Script.removable? helperDeclaration [helpTree] = some helperDeclaration := rfl
  have htext : (Script.Text.ofString helpScript).of helperName = "helper" :=
    Script.text_of_isWordAt rfl helperName_isWordAt
  refine Script.mem_functions_iff.mpr ⟨rfl, _, _, _, _, hplaced, hname, hown, ?_⟩
  rw [htext]
  rfl

/-- The script as it was edited since. -/
def editedScript : String :=
  "function helper(){}hurry();"

def editedDisk : Disk where
  entries := [(["app.js"], .file editedScript.toUTF8)]

def helpPlan : Plan :=
  ⟨Verdict.helpRoot, {}, ⟨"100", "1970-01-01T00:00:00.100Z"⟩, .applyAll⟩

def helpScan : Scan where
  sources := { root := Verdict.helpRoot, scripts := [Verdict.helpRoot.down ["app.js"]] }

/-- What becomes of the edited script. -/
def helpRewrite : Rewrite where
  path := Verdict.helpRoot.down ["app.js"]
  read := editedScript
  functions := [Verdict.helperFunction]
  written := "/* DEADWATCHER REMOVED FUNCTION: helper - 1970-01-01T00:00:00.100Z */\n" ++
    "// ORIGINAL (kept commented):\n// function helper(){}\nhurry();"

theorem editedDisk_project : editedDisk.Project Verdict.helpRoot [] :=
  .ofEntries (by decide) (by decide) (by simp [editedDisk])

theorem editedDisk_loadSource :
    editedDisk.loadSource (Verdict.helpRoot.down ["app.js"]) = .ok editedScript := by
  apply editedDisk_project.loadSource_down
  · rfl
  · decide +kernel

/-- The edited script becomes what its functions are commented out of. -/
theorem helpPlan_rewrite? {functions : List Symbol} (decider : Decider σ)
    (hroot : sources.root = Verdict.helpRoot) (hdisk : progress.1.disk = editedDisk)
    (hsome : functions.isEmpty = false) (hordered : Plan.inOrder functions = functions)
    (hwritten : commentedScript editedScript functions helpPlan.stamp.iso =
      (helpRewrite.written, 1)) :
    helpPlan.rewrite? decider sources progress ("app.js", functions) =
      some { helpRewrite with functions } := by
  have hresolve : sources.resolve "app.js" = Verdict.helpRoot.down ["app.js"] := by
    rw [Sources.resolve, hroot]
    rfl
  have haccepted : (helpPlan.acceptFunctions decider editedScript functions progress.2).1 =
      functions := hordered
  unfold Plan.rewrite?
  rw [hdisk, hresolve, editedDisk_loadSource]
  dsimp only [Except.toOption, Option.bind_some]
  rw [haccepted, hwritten, hsome]
  rfl

theorem helpPlan_rewrites (decider : Decider σ) (state : σ) :
    helpPlan.rewrites decider helpScan.sources (safeByFile [⟨Verdict.helperFunction, .safe⟩])
      (helpPlan.beforeScripts decider helpScan editedDisk state) = [helpRewrite] := by
  have hentries : safeByFile [⟨Verdict.helperFunction, .safe⟩] =
      [("app.js", [Verdict.helperFunction])] := congrArg (List.map _) (sortedNames_singleton _)
  have hdisk : (helpPlan.beforeScripts decider helpScan editedDisk state).1.disk = editedDisk := by
    simp [Plan.beforeScripts, Plan.acceptClasses, Plan.fixSheets, helpPlan, helpScan]
  rw [hentries, Plan.rewrites, helpPlan_rewrite? decider rfl hdisk rfl
    (List.mergeSort_singleton _) (by decide +kernel)]
  rfl

theorem run_replaces_recorded_stretches_edited :
    helpPlan.policy ≠ .patchOnly ∧ ReadOff Verdict.helperFunction helpScript ∧
      ReadsAlike ⟨0, 19, 1, 1⟩ helpScript editedScript ∧
      helpPlan.rewrites scripted helpScan.sources (safeByFile [⟨Verdict.helperFunction, .safe⟩])
        (helpPlan.beforeScripts scripted helpScan editedDisk {}) = [helpRewrite] ∧
      ∃ edits, Replaces 0 editedScript.toList edits helpRewrite.written.toList ∧
        ∃ edit ∈ edits, edit.start = 0 ∧ edit.stop = 19 ∧
          HasWordIn (bytesOf "helper") (bytesOf editedScript) 0 19 := by
  have hpolicy : helpPlan.policy ≠ .patchOnly := by decide
  have halike : ReadsAlike ⟨0, 19, 1, 1⟩ helpScript editedScript := by
    have hall : ∀ offset < 20, (bytesOf helpScript)[offset]? = (bytesOf editedScript)[offset]? := by
      decide +kernel
    intro offset _ hstop
    exact hall offset (Nat.lt_succ_of_le hstop)
  have hrewrites := helpPlan_rewrites scripted {}
  refine ⟨hpolicy, helperFunction_readOff, halike, hrewrites, ?_⟩
  obtain ⟨-, hreplaced, -⟩ := run_replaces_recorded_stretches helpPlan scripted helpScan
    [⟨Verdict.helperFunction, .safe⟩] editedDisk {} hpolicy
  rw [hrewrites] at hreplaced
  obtain ⟨edits, hreplaces, hedits⟩ := hreplaced helpRewrite List.mem_cons_self
  refine ⟨edits, hreplaces, ?_⟩
  cases edits with
  | nil =>
    have hsame : applyEdits? ([] ++ editedScript.toList) [] =
        some ([] ++ helpRewrite.written.toList) := applyEdits?_of_replaces hreplaces rfl
    exact absurd (Option.some.inj hsame) (by decide +kernel)
  | cons edit edits =>
    obtain ⟨function, span, hcandidate, -, hcomments⟩ := hedits edit List.mem_cons_self
    obtain rfl : function = Verdict.helperFunction := by simpa using hcandidate
    obtain rfl : span = ⟨0, 19, 1, 1⟩ := (Option.some.inj hcomments.recorded).symm
    exact ⟨edit, List.mem_cons_self, hcomments.start, hcomments.stop,
      hcomments.named helpScript helperFunction_readOff halike⟩

end Deadwood.Fix
