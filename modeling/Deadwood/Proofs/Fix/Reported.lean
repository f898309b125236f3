/-
# What a run reports

A report tells which files were written, which classes were taken out and which functions
were commented out. The files are those of the turns at which a text was written. But the
functions are all that were chosen in a script that was written, whether or not they were
replaced in it, and the classes are all that were accepted, whether or not a stylesheet lost
them. For each of both it is said here what became of it.
-/

import Deadwood.Proofs.Fix.Applied
import Deadwood.Proofs.Fix.Turns
import Deadwood.Proofs.Stylesheet.Frame

namespace Deadwood.Fix

open Deadwood.Script (removalEdit?)
open Deadwood.Selector (requiredClasses split)
open Deadwood.Stylesheet (Asks Deleted Inside LaidOut LosesAll RuleSpan askedEdits removal strip)
open Deadwood.Text

variable {σ : Type} {plan : Plan} {decider : Decider σ} {sources : Sources} {fixing : Fixing}
  {progress : Fixing × σ} {classes : List String} {path : Path} {rewrite : Rewrite}
  {function : Symbol} {text name : String} {rule : RuleSpan}

/-! ## Functions -/

/-- How it is with a function that was chosen in a script, given the edits that were made:
its stretch was replaced, by itself or within a longer one; or it has no stretch, or none
that can be cut out of the text; or its stretch begins inside of one that was replaced and
goes on beyond it. -/
inductive Fares (read : String) (edits : List Edit) (function : Symbol) : Prop
  | replaced (span : Span) (edit : Edit) (hspan : function.span = some span)
      (hedit : edit ∈ edits) (hstart : edit.start ≤ span.start) (hstop : span.stop ≤ edit.stop)
  | unplaced (hspan : function.span = none)
  | outside (span : Span) (hspan : function.span = some span)
      (hslice : slice? read.toList ⟨span.start, span.stop⟩ = none)
  | crossing (span : Span) (edit : Edit) (hspan : function.span = some span)
      (hedit : edit ∈ edits) (hstart : edit.start ≤ span.start) (hinside : span.start < edit.stop)
      (hbeyond : edit.stop < span.stop)

/-- The edit of a function is made, or it begins inside of one that is. -/
theorem mem_or_exists_of_removalEdit? {source iso : List Char} {functions : List Symbol}
    {edit : Edit} (hfunction : function ∈ functions)
    (hedit : removalEdit? source iso function = some edit) :
    edit ∈ chosenEdits source (functions.filterMap (removalEdit? source iso)) ∨
      ∃ other ∈ chosenEdits source (functions.filterMap (removalEdit? source iso)),
        other.start ≤ edit.start ∧ edit.start < other.stop := by
  obtain ⟨dropped, hsifts⟩ :=
    sifts_chosenEdits source (functions.filterMap (removalEdit? source iso))
  have hmem : edit ∈ (functions.filterMap (removalEdit? source iso)).mergeSort Edit.precedes :=
    List.mem_mergeSort.mpr (List.mem_filterMap.mpr ⟨function, hfunction, hedit⟩)
  refine (List.mem_append.mp (hsifts.perm.mem_iff.mp hmem)).imp id fun hdropped => ?_
  -- It was not dropped for doing nothing or for lying outside of the text.
  obtain ⟨span, part, indent, -, hpart, hmade⟩ := Script.removalEdit?_spec hedit
  have hchanges : edit.isTrivial = false := by
    simp [hmade, Edit.isTrivial, Script.removalBlock]
  rw [hmade] at hdropped hchanges ⊢
  exact hsifts.exists_of_dropped (inOrder_mergeSort _).pairwise_start hdropped hchanges
    (slice?_bounds hpart).2

theorem fares_of_mem {iso : List Char} {functions : List Symbol} (read : String)
    (hfunction : function ∈ functions) :
    Fares read (chosenEdits read.toList (functions.filterMap (removalEdit? read.toList iso)))
      function := by
  cases hspan : function.span with
  | none => exact .unplaced hspan
  | some span =>
    cases hslice : slice? read.toList ⟨span.start, span.stop⟩ with
    | none => exact .outside span hspan hslice
    | some part =>
      obtain ⟨edit, hmade, hstart, hstop⟩ := Script.exists_removalEdit? hspan hslice iso
      rcases mem_or_exists_of_removalEdit? hfunction hmade with
        hedit | ⟨other, hother, hbefore, hinside⟩
      · exact .replaced span edit hspan hedit (by omega) (by omega)
      · by_cases hwithin : span.stop ≤ other.stop
        · exact .replaced span other hspan hother (by omega) hwithin
        · exact .crossing span other hspan hother (by omega) (by omega) (by omega)

/-- What is written in place of a script, by the edits that were made. -/
structure Edited (plan : Plan) (rewrite : Rewrite) (edits : List Edit) : Prop where
  replaces : Replaces 0 rewrite.read.toList edits rewrite.written.toList
  recorded : ∀ edit ∈ edits, ∃ function ∈ rewrite.functions, ∃ span,
    CommentsOut rewrite plan.stamp.iso edit function span
  fares : ∀ function ∈ rewrite.functions, Fares rewrite.read edits function

theorem exists_edited
    (hwritten : rewrite.written =
      (commentedScript rewrite.read rewrite.functions plan.stamp.iso).1) :
    ∃ edits, Edited plan rewrite edits := by
  have hresult : rewrite.written.toList = (Script.commentOut rewrite.read.toList
      rewrite.functions plan.stamp.iso.toList).1 := by
    rw [hwritten, commentedScript, String.toList_ofList]
  refine ⟨_, hresult ▸ (Script.commentOut_spec _ _ _).2, ?_,
    fun function hfunction => fares_of_mem _ hfunction⟩
  intro edit hedit
  obtain ⟨function, hfunction, hremoval⟩ := List.mem_filterMap.mp (mem_of_mem_chosenEdits hedit)
  exact ⟨function, hfunction, exists_commentsOut hremoval⟩

/-! ## Classes -/

/-- The rules of a stylesheet. -/
def rulesOf (text : String) : List RuleSpan :=
  Stylesheet.ruleSpans (Stylesheet.parse text)

/-- Whether a class is among those that go. -/
def goesIn (classes : List String) (name : List Char) : Bool :=
  classes.contains (String.ofList name)

/-- A rule of a stylesheet that was read without a repair has a selector that requires a
class. -/
structure Requires (text name : String) (rule : RuleSpan) : Prop where
  mem : rule ∈ rulesOf text
  sound : rule.broken = false
  selector : ∃ list, slice? text.toList rule.selectors = some list ∧
    ∃ selector ∈ split list, name.toList ∈ requiredClasses selector

/-- A stylesheet lost a selector that requires a class. Where its rules lie as they should,
the rule was taken out, by itself or within another, or its list was written anew without
that selector. -/
structure Loses (classes : List String) (name : String) (rewrite : Rewrite) : Prop where
  stripped : rewrite.written.toList =
    (strip (rulesOf rewrite.read) rewrite.read.toList (goesIn classes)).content
  requires : ∃ rule, Requires rewrite.read name rule ∧
    (LaidOut rewrite.read.toList (rulesOf rewrite.read) →
      ∃ edits, Replaces 0 rewrite.read.toList edits rewrite.written.toList ∧
        ((∃ edit ∈ edits, Asks (goesIn classes) rewrite.read.toList rule edit) ∨
          ∃ outer ∈ rulesOf rewrite.read,
            Deleted (goesIn classes) rewrite.read.toList (rulesOf rewrite.read) outer ∧
            Inside rule outer ∧ removal rewrite.read.toList outer ∈ edits))

/-- Why a stylesheet lost no selector that requires a class. -/
inductive Turn.Spares (turn : Turn) (name : String) : Prop
  | unread (error : SourceError) (hload : turn.workspace.disk.loadSource turn.path = .error error)
  | unrequired (text : String) (hload : turn.workspace.disk.loadSource turn.path = .ok text)
      (hnone : ∀ rule, ¬ Requires text name rule)
  | unwritten (rewrite : Rewrite) (hrewrite : turn.rewrite = some rewrite)
      (hdone : turn.done = none)

/-- A rule with a selector that requires a class that goes asks for an edit. -/
theorem Requires.exists_asks (hrequires : Requires text name rule) (hname : name ∈ classes) :
    ∃ edit, Asks (goesIn classes) text.toList rule edit := by
  obtain ⟨-, hsound, list, hlist, selector, hselector, hmem⟩ := hrequires
  have hgoes : (requiredClasses selector).any (goesIn classes) = true := by
    refine List.any_eq_true.mpr ⟨name.toList, hmem, ?_⟩
    simpa [goesIn] using hname
  by_cases hkept : Stylesheet.survivors (goesIn classes) list = []
  · refine ⟨_, .removal ⟨hsound, list, hlist, fun other hother => ?_⟩⟩
    simpa using List.filter_eq_nil_iff.mp hkept other hother
  · exact ⟨_, .shortening ⟨hsound, hlist, ⟨selector, hselector, hgoes⟩, hkept⟩⟩

/-- A stylesheet with a rule that asks for an edit is changed. -/
theorem changed_of_asks {rules : List RuleSpan} {source : List Char} {goes : List Char → Bool}
    {edit : Edit} (hrule : rule ∈ rules) (hasks : Asks goes source rule edit) :
    (strip rules source goes).changed = true := by
  by_contra hchanged
  have hnone := Stylesheet.askedEdits_of_not_changed (Bool.eq_false_iff.mpr hchanged)
  have hmem := Stylesheet.mem_askedEdits_iff.mpr ⟨rule, hrule, hasks⟩
  rw [hnone] at hmem
  exact absurd hmem List.not_mem_nil

theorem strippedSheet?_of_requires {disk : Disk} (hload : disk.loadSource path = .ok text)
    (hrequires : Requires text name rule) (hname : name ∈ classes) :
    strippedSheet? disk path classes =
      some (text, String.ofList (strip (rulesOf text) text.toList (goesIn classes)).content) := by
  obtain ⟨edit, hasks⟩ := hrequires.exists_asks hname
  have hchanged := changed_of_asks hrequires.mem hasks
  unfold strippedSheet?
  rw [hload]
  exact if_pos hchanged

/-- What becomes of a rule that asks for an edit, in a sheet whose rules lie as they
should. -/
theorem takes_of_asks {rules : List RuleSpan} {source : List Char} {goes : List Char → Bool}
    {edit : Edit} (hlaid : LaidOut source rules) (hrule : rule ∈ rules)
    (hasks : Asks goes source rule edit) :
    edit ∈ chosenEdits source (askedEdits goes source rules) ∨
      ∃ outer ∈ rules, Deleted goes source rules outer ∧ Inside rule outer ∧
        removal source outer ∈ chosenEdits source (askedEdits goes source rules) := by
  by_cases hexposed : ∀ other ∈ rules, LosesAll goes source other → ¬ Inside rule other
  · exact .inl (hlaid.mem_chosenEdits hrule hasks hexposed)
  · simp only [not_forall, not_not] at hexposed
    obtain ⟨other, hother, hloses, hinside⟩ := hexposed
    obtain ⟨outer, houter, hdeleted, hwithin⟩ := hlaid.exists_deleted hother hloses hinside
    exact .inr ⟨outer, houter, hdeleted, hwithin,
      hlaid.mem_chosenEdits houter (.removal hdeleted.1) hdeleted.2⟩

theorem loses_of_requires (hrequires : Requires rewrite.read name rule) (hname : name ∈ classes)
    (hwritten : rewrite.written.toList =
      (strip (rulesOf rewrite.read) rewrite.read.toList (goesIn classes)).content) :
    Loses classes name rewrite := by
  obtain ⟨edit, hasks⟩ := hrequires.exists_asks hname
  refine ⟨hwritten, rule, hrequires, fun hlaid => ⟨_, ?_,
    (takes_of_asks hlaid hrequires.mem hasks).imp (fun hedit => ⟨edit, hedit, hasks⟩) id⟩⟩
  rw [hwritten]
  refine Css.replaces_strip (fun rule hrule hsound => ?_) (goesIn classes)
  exact Option.isSome_iff_exists.mp (hlaid.placed rule hrule hsound).cut

/-- At its turn a stylesheet loses a selector that requires a class that goes, or there is a
reason why not. -/
theorem loses_or_spares (hname : name ∈ classes) (fixing : Fixing) (path : Path) :
    (∃ rewrite, (Plan.sheetTurn classes fixing path).done = some rewrite ∧
      Loses classes name rewrite) ∨ (Plan.sheetTurn classes fixing path).Spares name := by
  cases hload : fixing.disk.loadSource path with
  | error error => exact .inr (.unread error hload)
  | ok text =>
    by_cases hrequires : ∃ rule, Requires text name rule
    · obtain ⟨rule, hrequires⟩ := hrequires
      have hstripped := strippedSheet?_of_requires hload hrequires hname
      have hrewrite : (Plan.sheetTurn classes fixing path).rewrite =
          some ⟨path, text, [],
            String.ofList (strip (rulesOf text) text.toList (goesIn classes)).content⟩ := by
        simp [Plan.sheetTurn, hstripped]
      cases hdone : (Plan.sheetTurn classes fixing path).done with
      | none => exact .inr (.unwritten _ hrewrite hdone)
      | some rewrite =>
        left
        refine ⟨rewrite, rfl, ?_⟩
        rw [Turn.done, hrewrite] at hdone
        obtain ⟨hown, -⟩ := Option.filter_eq_some_iff.mp hdone
        obtain rfl := Option.some.inj hown
        exact loses_of_requires hrequires hname String.toList_ofList
    · exact .inr (.unrequired text hload (not_exists.mp hrequires))

/-! ## The whole report -/

/-- What a script becomes at its turn is made of the functions that were chosen in it, which
are safe candidates that name the script. -/
theorem spec_of_mem_scriptTurns {candidates : List Candidate} {turn : Turn}
    (hturn : turn ∈ plan.scriptTurns decider sources (safeByFile candidates) progress)
    (hrewrite : turn.rewrite = some rewrite) :
    (∀ function ∈ rewrite.functions, ⟨function, .safe⟩ ∈ candidates ∧
      function.file.map sources.resolve = some rewrite.path) ∧
    ∃ edits, Edited plan rewrite edits := by
  obtain ⟨entry, hentry, progress, rfl⟩ := Plan.mem_scriptTurns hturn
  obtain ⟨hpath, hchosen, hwritten⟩ := Plan.rewrite?_spec hrewrite
  refine ⟨fun function hfunction => ?_, exists_edited hwritten⟩
  obtain ⟨hcandidate, hfile⟩ :=
    mem_candidates_of_mem_safeByFile hentry (hchosen function hfunction)
  exact ⟨hcandidate, by rw [hfile, hpath]; rfl⟩

/-- The turns of stylesheets are about no functions. -/
theorem flatMap_functions_sheetsOf (plan : Plan) (scan : Scan) (classes : List String)
    (disk : Disk) :
    ((plan.sheetsOf scan classes disk).filterMap Turn.done).flatMap
      (fun rewrite => rewrite.functions.map (·.id)) = [] := by
  rw [List.flatMap_eq_nil_iff]
  intro rewrite hrewrite
  obtain ⟨turn, hturn, hdone⟩ := List.mem_filterMap.mp hrewrite
  unfold Plan.sheetsOf at hturn
  split at hturn
  · simp at hturn
  · obtain ⟨path, fixing, rfl⟩ := Plan.mem_sheetTurns hturn
    obtain ⟨hown, -⟩ := Option.filter_eq_some_iff.mp hdone
    obtain ⟨stripped, -, rfl⟩ := Option.map_eq_some_iff.mp hown
    rfl

/-- If there are classes to go, each stylesheet has its turn, to lose them or to spare them. -/
theorem forall_loses_or_spares (plan : Plan) (scan : Scan) (disk : Disk)
    (hname : name ∈ classes) :
    (plan.sheetsOf scan classes disk).map (·.path) = scan.sources.stylesheets ∧
      ∀ turn ∈ plan.sheetsOf scan classes disk,
        (∃ rewrite, turn.done = some rewrite ∧ Loses classes name rewrite) ∨ turn.Spares name := by
  have hsome : classes.isEmpty = false :=
    List.isEmpty_eq_false_iff.mpr (List.ne_nil_of_mem hname)
  rw [Plan.sheetsOf, hsome, if_neg Bool.false_ne_true]
  refine ⟨plan.map_path_sheetTurns classes _ _, fun turn hturn => ?_⟩
  obtain ⟨path, fixing, rfl⟩ := Plan.mem_sheetTurns hturn
  exact loses_or_spares hname fixing path

/-- What a report says of the turns of stylesheets and scripts, and what became of the
functions and classes that it tells. -/
structure Report.Tells (report : Report) (plan : Plan) (scan : Scan) (candidates : List Candidate)
    (accepted : List String) (sheets scripts : List Turn) : Prop where
  /-- The files are those that were written. -/
  changed : Names report.changed (((sheets ++ scripts).filterMap Turn.done).map (·.path))
  /-- The functions are all that were chosen in scripts that were written. -/
  functions : report.functions = (scripts.filterMap Turn.done).flatMap
    fun rewrite => rewrite.functions.map (·.id)
  /-- These are safe candidates that name the script, and it is said how they fare. -/
  chosen : ∀ rewrite ∈ scripts.filterMap Turn.done,
    (∀ function ∈ rewrite.functions, ⟨function, .safe⟩ ∈ candidates ∧
      function.file.map scan.sources.resolve = some rewrite.path) ∧
    ∃ edits, Edited plan rewrite edits
  /-- The classes are all that were accepted. -/
  classes : report.classes = accepted
  /-- Each stylesheet was written and lost a selector that requires the class, or there is a
  reason why it did not. -/
  lost : ∀ name ∈ report.classes, sheets.map (·.path) = scan.sources.stylesheets ∧
    ∀ turn ∈ sheets,
      (∃ rewrite, turn.done = some rewrite ∧ Loses accepted name rewrite) ∨ turn.Spares name

/-- What a run reports of what it did. It goes through its turns one after the other, first
those of the stylesheets and then those of the scripts; each writes a text or leaves the disk
as it was, but for backups. The files are told as they were written, the functions and the
classes as they were chosen. -/
theorem run_tells_turns (plan : Plan) (decider : Decider σ) (scan : Scan)
    (candidates : List Candidate) (disk : Disk) (state : σ) (hpolicy : plan.policy ≠ .patchOnly) :
    let accepted := (plan.acceptClasses decider scan.findings.unusedClasses state).1
    let sheets := plan.sheetsOf scan accepted disk
    let scripts := plan.scriptTurns decider scan.sources (safeByFile candidates)
      (plan.beforeScripts decider scan disk state)
    ∃ report editor, (plan.run decider scan candidates disk state).1 = .ok report ∧
      Turn.Chain ⟨disk, { stamp := plan.stamp }⟩ (sheets ++ scripts)
        ⟨(plan.run decider scan candidates disk state).2.1, editor⟩ ∧
      (∀ turn ∈ sheets ++ scripts, turn.Effect) ∧
      report.Tells plan scan candidates accepted sheets scripts := by
  intro accepted sheets scripts
  -- The classes are entered behind the stylesheets, whatever became of these.
  obtain ⟨folded, hsheets, hbegun⟩ := plan.books_fixSheets scan accepted disk
  have hscripts := plan.books_scripts decider scan.sources (safeByFile candidates)
    (plan.beforeScripts decider scan disk state)
  have hstart : (plan.beforeScripts decider scan disk state).1 =
      { folded with report := { folded.report with classes := accepted } } := hbegun
  have hclasses := hscripts.classes
  have hchanged := hscripts.changed
  have hfunctions := hscripts.functions
  have hchain := hscripts.chain
  rw [hstart] at hclasses hchanged hfunctions hchain
  dsimp only at hclasses hchanged hfunctions
  rw [Plan.run, if_neg hpolicy]
  refine ⟨_, _, rfl, hsheets.chain.append hchain, fun turn _ => turn.effect, ?_⟩
  constructor
  · rw [hsheets.changed, listed_append, ← List.map_append, ← List.filterMap_append] at hchanged
    have hlisted : (plan.apply decider scan candidates disk state).1.report.changed =
        listed [] (((sheets ++ scripts).filterMap Turn.done).map (·.path)) := hchanged
    rw [hlisted]
    exact names_listed _
  · rw [hsheets.functions, flatMap_functions_sheetsOf] at hfunctions
    exact hfunctions
  · intro rewrite hrewrite
    obtain ⟨turn, hturn, hdone⟩ := List.mem_filterMap.mp hrewrite
    exact spec_of_mem_scriptTurns hturn (Option.filter_eq_some_iff.mp hdone).1
  · exact hclasses
  · intro name hname
    exact forall_loses_or_spares plan scan disk (hclasses ▸ hname)

/-- A function that the script had before it was edited. -/
def lostFunction : Symbol :=
  .ofFunction "lost" "app.js" ⟨30, 40, 2, 2⟩

/-- A scan from when there still was a stylesheet. -/
def staleScan : Scan where
  sources :=
    { root := Verdict.helpRoot
      stylesheets := [.ofLocation ["gone.css"]]
      scripts := [Verdict.helpRoot.down ["app.js"]] }
  findings := { unusedClasses := ["dead"] }

def staleCandidates : List Candidate :=
  [⟨Verdict.helperFunction, .safe⟩, ⟨lostFunction, .safe⟩]

/-- What becomes of the script, with one function replaced of two. -/
def staleRewrite : Rewrite :=
  { helpRewrite with functions := [Verdict.helperFunction, lostFunction] }

theorem editedDisk_linkless (location : Location) (target : String) :
    editedDisk.get? location ≠ some (.link target) :=
  Disk.linkless_of_entries (by simp [editedDisk]) location target

theorem loadSource_gone (text : String) :
    editedDisk.loadSource (.ofLocation ["gone.css"]) ≠ .ok text := by
  intro hload
  have hsource : IsSource [] ["gone.css"] :=
    ⟨[], "gone.css", rfl, by decide, 's', by decide, by decide⟩
  unfold Disk.loadSource at hload
  cases hfind : editedDisk.find (.ofLocation ["gone.css"]) with
  | error error => simp [hfind] at hload
  | ok found =>
    obtain ⟨-, hentry⟩ := (find_source editedDisk_project hsource
      fun front _ => editedDisk_linkless front).mp hfind
    have hnone : editedDisk.get? ["gone.css"] = none := by decide
    simp [hnone] at hentry

theorem safeByFile_staleCandidates :
    safeByFile staleCandidates = [("app.js", [Verdict.helperFunction, lostFunction])] := by
  have hfiles : sortedNames ["app.js", "app.js"] = ["app.js"] := by
    rw [← sortedNames_singleton]
    exact sortedNames_congr (by simp)
  exact congrArg (List.map _) hfiles

theorem helpPlan_acceptClasses (decider : Decider σ) (state : σ) :
    helpPlan.acceptClasses decider staleScan.findings.unusedClasses state = (["dead"], state) := by
  simp [Plan.acceptClasses, helpPlan, staleScan]

theorem workspace_beforeScripts_stale (decider : Decider σ) (state : σ) :
    (helpPlan.beforeScripts decider staleScan editedDisk state).1.workspace =
      ⟨editedDisk, { stamp := helpPlan.stamp }⟩ := by
  have hstripped : strippedSheet? editedDisk (.ofLocation ["gone.css"]) ["dead"] = none := by
    rw [Option.eq_none_iff_forall_ne_some]
    intro stripped hstripped
    exact loadSource_gone stripped.1 (loadSource_of_strippedSheet? hstripped)
  rw [Plan.beforeScripts, helpPlan_acceptClasses]
  simp [Plan.fixSheets, Plan.fixSheet, staleScan, hstripped, Fixing.workspace]

theorem takes_staleRewrite :
    (⟨editedDisk, { stamp := helpPlan.stamp }⟩ : Workspace).takes staleRewrite = true := by
  have hsource : IsSource [] ["app.js"] :=
    ⟨[], "app.js", rfl, by decide, 's', by decide, by decide⟩
  have hpath : staleRewrite.path = .ofLocation ["app.js"] :=
    Path.down_ofLocation (by simp) (by decide)
  have hnew : ¬ ({ stamp := helpPlan.stamp } : Editor).Has (.ofLocation ["app.js"]) := by
    simp [Editor.has_iff]
  have hroom : editedDisk.CanHold (backupPlace helpPlan.stamp.millis ["app.js"]) :=
    ⟨by decide, by decide, by decide⟩
  have hdigit : EndsWithDigit helpPlan.stamp.millis := ⟨'0', by decide, by decide⟩
  have heditable := hsource.isEditable (fun front _ => editedDisk_linkless front)
    (editedDisk_linkless (backupPlace helpPlan.stamp.millis ["app.js"])) (by decide) hdigit
  rw [Workspace.takes, hpath, overwrite_calm editedDisk_project rfl heditable hnew (show editedDisk.get? ["app.js"] = some _ from rfl) hroom]
  rfl

theorem done_scriptTurns_stale (decider : Decider σ) (state : σ) :
    (helpPlan.scriptTurns decider staleScan.sources (safeByFile staleCandidates)
      (helpPlan.beforeScripts decider staleScan editedDisk state)).filterMap Turn.done =
        [staleRewrite] := by
  have hworkspace := workspace_beforeScripts_stale decider state
  have hordered : Plan.inOrder [Verdict.helperFunction, lostFunction] =
      [Verdict.helperFunction, lostFunction] := by
    apply List.mergeSort_of_pairwise
    simp [Verdict.helperFunction, lostFunction, Symbol.ofFunction]
  have hrewrite := helpPlan_rewrite? decider (show staleScan.sources.root = _ from rfl)
    (congrArg Workspace.disk hworkspace) rfl hordered (by decide +kernel)
  have hdone : (helpPlan.scriptTurn decider staleScan.sources
      (helpPlan.beforeScripts decider staleScan editedDisk state)
      ("app.js", [Verdict.helperFunction, lostFunction])).done = some staleRewrite := by
    simp only [Turn.done, Plan.scriptTurn, hrewrite, hworkspace]
    exact Option.filter_eq_some_iff.mpr ⟨rfl, takes_staleRewrite⟩
  rw [safeByFile_staleCandidates, Plan.scriptTurns, Plan.scriptTurns,
    List.filterMap_cons_some hdone, List.filterMap_nil]

theorem run_tells_turns_stale :
    helpPlan.policy ≠ .patchOnly ∧ ∃ report,
      (helpPlan.run scripted staleScan staleCandidates editedDisk {}).1 = .ok report ∧
      report.classes = ["dead"] ∧
      (∀ turn ∈ helpPlan.sheetsOf staleScan ["dead"] editedDisk, turn.Spares "dead") ∧
      report.functions = ["app.js::helper", "app.js::lost"] ∧
      slice? staleRewrite.read.toList ⟨30, 40⟩ = none ∧
      ∃ edits, Edited helpPlan staleRewrite edits ∧ ∀ edit ∈ edits, edit.stop = 19 := by
  have hpolicy : helpPlan.policy ≠ .patchOnly := by decide
  have htells := run_tells_turns helpPlan scripted staleScan staleCandidates editedDisk {} hpolicy
  dsimp only at htells
  obtain ⟨report, editor, hreport, -, -, htells⟩ := htells
  rw [helpPlan_acceptClasses] at htells
  have hdone := done_scriptTurns_stale scripted {}
  have hslice : slice? staleRewrite.read.toList ⟨30, 40⟩ = none := by decide
  refine ⟨hpolicy, report, hreport, htells.classes, ?_, ?_, hslice, ?_⟩
  · intro turn hturn
    have hname : "dead" ∈ report.classes := by simp [htells.classes]
    refine ((htells.lost "dead" hname).2 turn hturn).resolve_left ?_
    rintro ⟨rewrite, hwritten, -⟩
    obtain rfl := List.mem_singleton.mp hturn
    obtain ⟨hrewrite, -⟩ := Option.filter_eq_some_iff.mp hwritten
    exact loadSource_gone rewrite.read (Turn.reads _ rewrite hrewrite).2
  · rw [htells.functions, hdone]
    decide
  · obtain ⟨-, edits, hedited⟩ := htells.chosen staleRewrite (by simp [hdone])
    refine ⟨edits, hedited, fun edit hedit => ?_⟩
    obtain ⟨function, hfunction, span, hcomments⟩ := hedited.recorded edit hedit
    have hfunction : function = Verdict.helperFunction ∨ function = lostFunction := by
      simpa [staleRewrite] using hfunction
    rcases hfunction with rfl | rfl
    · obtain rfl : span = ⟨0, 19, 1, 1⟩ := (Option.some.inj hcomments.recorded).symm
      exact hcomments.stop
    · obtain rfl : span = ⟨30, 40, 2, 2⟩ := (Option.some.inj hcomments.recorded).symm
      obtain ⟨part, -, hpart, -⟩ := hcomments.block
      exact absurd (hslice.symm.trans hpart) (by simp)

end Deadwood.Fix
