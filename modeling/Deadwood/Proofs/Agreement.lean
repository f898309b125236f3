/-
# Proposing and applying agree

A run that only proposes says exactly what a run that applies everything does from
the same disk: the files that it suggests to change are those that the other changes,
in the same order, and each patch reads back as the text that its file holds and the
text that applying leaves there.

Scripts are found again by how they are shown. That goes wrong where a name has a
backslash, so such scripts are kept out by a premise. So are links in the places that
the runs write to, which are the files of the one run in the directory for patches, and
the backups of the other.
-/

import Deadwood.Proofs.Fix.Job
import Deadwood.Proofs.Fix.Proposed
import Deadwood.Proofs.Text.LineDiff
import Mathlib.Data.List.Nodup

namespace Deadwood

open Deadwood.Fix
open Deadwood.Text (readDiff)

variable {disk proposedDisk appliedDisk : Disk} {root : Path} {here : Location} {scan : Scan}
  {candidates : List Candidate} {plan : Plan} {iso : String}

/-! ## The removals of a scan -/

/-- A script some of whose functions can go. -/
def HasRemovals (scan : Scan) (candidates : List Candidate) (source : Location) : Prop :=
  (∀ name ∈ source, Path.IsName name) ∧ .ofLocation source ∈ scan.sources.scripts ∧
    ∃ entry ∈ safeByFile candidates, entry.1 = scan.sources.shown (.ofLocation source)

/-- The path by which a run finds a script is that of the script. -/
private theorem exists_resolve (found : FromProject scan candidates disk root here)
    (hplain : ∀ source, HasRemovals scan candidates source → IsPlain here source)
    {entry : String × List Symbol} (hentry : entry ∈ safeByFile candidates) :
    ∃ source, IsSource here source ∧ disk.Direct source ∧ HasRemovals scan candidates source ∧
      scan.sources.resolve entry.1 = .ofLocation source ∧
      entry.1 = scan.sources.shown (.ofLocation source) := by
  obtain ⟨script, hscript, hshown⟩ := found.exists_script hentry
  obtain ⟨source, hsource, hdirect, rfl⟩ := found.stands (.inr hscript)
  have hremovals : HasRemovals scan candidates source :=
    ⟨hsource.named, hscript, entry, hentry, hshown⟩
  refine ⟨source, hsource, hdirect, hremovals, ?_, hshown⟩
  rw [hshown]
  exact found.resolve_shown hsource (hplain source hremovals)

/-- The removals of a scan are from its stylesheets and scripts. -/
private theorem exists_of_mem_removals (found : FromProject scan candidates disk root here)
    (hplain : ∀ source, HasRemovals scan candidates source → IsPlain here source)
    {removal : Removal} (hremoval : removal ∈ removals iso scan candidates) :
    ∃ source, IsSource here source ∧ disk.Direct source ∧ removal.path = .ofLocation source ∧
      (.ofLocation source ∈ scan.sources.stylesheets ∨ HasRemovals scan candidates source) := by
  rw [removals, List.mem_append, List.mem_map, List.mem_map] at hremoval
  rcases hremoval with ⟨path, hpath, rfl⟩ | ⟨entry, hentry, rfl⟩
  · have hsheet : path ∈ scan.sources.stylesheets := by
      split at hpath
      · simp at hpath
      · exact hpath
    obtain ⟨source, hsource, hdirect, rfl⟩ := found.stands (.inl hsheet)
    exact ⟨source, hsource, hdirect, rfl, .inl hsheet⟩
  · obtain ⟨source, hsource, hdirect, hremovals, hresolve, -⟩ := exists_resolve found hplain hentry
    exact ⟨source, hsource, hdirect, hresolve, .inr hremovals⟩

/-- The removals of a scan are from different files. -/
theorem areApart_removals {millis : Int} {stamp : Stamp}
    (found : FromProject scan candidates disk root here)
    (hstamp : Stamp.ofMillis? millis = some stamp)
    (hplain : ∀ source, HasRemovals scan candidates source → IsPlain here source)
    (hfree : ∀ source, .ofLocation source ∈ scan.sources.stylesheets ∨
      HasRemovals scan candidates source →
      ∀ target, disk.get? (backupPlace stamp.millis source) ≠ some (.link target)) (iso : String) :
    AreApart disk here stamp.millis (removals iso scan candidates) := by
  refine ⟨?_, ?_⟩
  · intro removal hremoval
    obtain ⟨source, hsource, hdirect, hpath, hmem⟩ := exists_of_mem_removals found hplain hremoval
    exact ⟨source, hsource.isEditable hdirect (hfree source hmem) (fitsInName_of_ofMillis? hstamp)
      (endsWithDigit_of_ofMillis? hstamp), hpath⟩
  have hpaths : (removals iso scan candidates).map (·.path) =
      (if scan.findings.unusedClasses.isEmpty then [] else scan.sources.stylesheets) ++
        ((safeByFile candidates).map (·.1)).map scan.sources.resolve := by
    rw [removals, List.map_append, List.map_map, List.map_map, List.map_map]
    exact congrArg (· ++ _) (List.map_id _)
  have hresolve : ∀ name ∈ (safeByFile candidates).map (·.1), ∃ source,
      .ofLocation source ∈ scan.sources.scripts ∧
        scan.sources.resolve name = .ofLocation source ∧
        name = scan.sources.shown (.ofLocation source) := by
    intro name hname
    obtain ⟨entry, hentry, rfl⟩ := List.mem_map.mp hname
    obtain ⟨source, -, -, hremovals, hresolve⟩ := exists_resolve found hplain hentry
    exact ⟨source, hremovals.2.1, hresolve⟩
  rw [hpaths]
  refine List.nodup_append.mpr ⟨?_, ?_, ?_⟩
  · split
    · exact List.nodup_nil
    · exact found.standIn.once
  · -- Different names are those of different scripts.
    refine List.Nodup.map_on ?_ (nodup_map_fst_safeByFile candidates)
    intro name hname other hother hsame
    obtain ⟨source, -, hpath, hshown⟩ := hresolve name hname
    obtain ⟨source', -, hpath', hshown'⟩ := hresolve other hother
    rw [hshown, ← hpath, hsame, hpath', ← hshown']
  · intro sheet hsheet script hscript hsame
    obtain ⟨name, hname, rfl⟩ := List.mem_map.mp hscript
    obtain ⟨source, hmem, hpath, -⟩ := hresolve name hname
    split at hsheet
    · simp at hsheet
    · rw [hsame, hpath] at hsheet
      exact found.standIn.apart _ hsheet hmem

/-- The scripts with functions to go that cannot be read. -/
def unreadable (scan : Scan) (candidates : List Candidate) (disk : Disk) : List String :=
  (safeByFile candidates).filterMap fun entry =>
    match disk.loadSource (scan.sources.resolve entry.1) with
    | .ok _ => none
    | .error _ => some entry.1

theorem filterMap_unread? (iso : String) (scan : Scan) (candidates : List Candidate) (disk : Disk) :
    (removals iso scan candidates).filterMap (·.unread? disk) = unreadable scan candidates disk := by
  have hsheet : ∀ path, (Removal.ofSheet scan.findings.unusedClasses path).unread? disk = none := by
    intro path
    simp [Removal.unread?, Removal.ofSheet]
  have hscript : ∀ entry, (Removal.ofScript scan.sources iso entry).unread? disk =
      match disk.loadSource (scan.sources.resolve entry.1) with
      | .ok _ => none
      | .error _ => some entry.1 := by
    intro entry
    cases hload : disk.loadSource (scan.sources.resolve entry.1) <;>
      simp [Removal.unread?, Removal.ofScript, hload, Except.toOption]
  rw [removals, List.filterMap_append, List.filterMap_map, List.filterMap_map]
  simp only [Function.comp_def, hsheet, hscript, List.filterMap_none, List.nil_append]
  rfl

/-! ## Both ways from one disk -/

section Runs

variable {σ : Type} {decider : Decider σ} {state last : σ} {report : Report} {after : Disk}

/-- What a run reports that only proposes, if it has no error. -/
private theorem exists_propose_of_run
    (hrun : { plan with policy := .patchOnly }.run decider scan candidates disk state =
      (.ok report, after, last)) :
    ∃ patching, propose plan.patchPlace scan candidates disk = (none, patching) ∧
      report.patches = patching.written ∧ after = patching.disk := by
  have hplace : ({ plan with policy := .patchOnly } : Plan).patchPlace = plan.patchPlace := rfl
  rw [Plan.run, if_pos rfl, hplace] at hrun
  rcases hpropose : propose plan.patchPlace scan candidates disk with ⟨_ | error, patching⟩
  · rw [hpropose] at hrun
    obtain ⟨hreport, hrest⟩ := Prod.mk.inj hrun
    obtain ⟨rfl, -⟩ := Prod.mk.inj hrest
    exact ⟨patching, rfl, congrArg Report.patches (Except.ok.inj hreport).symm, rfl⟩
  · simp [hpropose] at hrun

/-- What a run reports that applies everything. -/
private theorem exists_progress_of_run
    (hrun : { plan with policy := .applyAll }.run decider scan candidates disk state =
      (.ok report, after, last)) :
    ∃ progress, (removals plan.stamp.iso scan candidates).foldl (Progress.apply plan.root)
        ⟨disk, { stamp := plan.stamp }, [], []⟩ = progress ∧
      progress.disk = after ∧ progress.changed = report.changed ∧
      progress.skipped = report.skipped.map (·.file) := by
  have hprogress : (({ plan with policy := .applyAll } : Plan).apply decider scan candidates disk
      state).1.progress = (removals plan.stamp.iso scan candidates).foldl (Progress.apply plan.root)
        ⟨disk, { stamp := plan.stamp }, [], []⟩ := progress_apply rfl decider scan candidates disk state
  rw [Plan.run, if_neg (by simp)] at hrun
  obtain ⟨hreport, hrest⟩ := Prod.mk.inj hrun
  obtain ⟨rfl, -⟩ := Prod.mk.inj hrest
  obtain rfl := Except.ok.inj hreport
  exact ⟨_, hprogress.symm, rfl, rfl, rfl⟩

end Runs

/-- The patch for a proposal tells the text before and the text behind it. -/
private theorem readDiff_diff {proposal : Proposal}
    (hbreak : '\n' ∉ (proposal.path.shownIn root).toList) :
    readDiff [' ', '-'] (proposal.diff root).toList = proposal.old.toList ∧
      readDiff [' ', '+'] (proposal.diff root).toList = proposal.new.toList := by
  rw [Proposal.diff, String.toList_ofList]
  exact Text.readDiff_lineDiff hbreak proposal.old.toList proposal.new.toList

/-- What a proposal changes is what its file holds. -/
private theorem readText?_of_proposal? {removal : Removal} {proposal : Proposal}
    (hproposal : removal.proposal? disk = some proposal) :
    disk.readText? proposal.path = some proposal.old := by
  obtain ⟨text, hload, htext⟩ := Option.bind_eq_some_iff.mp hproposal
  obtain ⟨content, -, rfl⟩ := Option.map_eq_some_iff.mp htext
  exact readText?_of_loadSource hload

/-- A patch on one disk holds the diff of a file between two others: read with the
deleted lines it is the text before, with the inserted ones the text behind. -/
def IsPatchOf (patches before after : Disk) (patch file : Path) : Prop :=
  ∃ diff old new, patches.readText? patch = some diff ∧ before.readText? file = some old ∧
    after.readText? file = some new ∧ readDiff [' ', '-'] diff.toList = old.toList ∧
    readDiff [' ', '+'] diff.toList = new.toList

/-- Where a run that proposes has no error and a run that applies everything skips
nothing but what it cannot read, the first suggests what the second does. -/
theorem suggestions_eq_changed {σ : Type} {decider : Decider σ} {state : σ} {millis : Int}
    {proposed applied : Report}
    (project : disk.Project root here) (found : FromProject scan candidates disk root here)
    (hroot : plan.root = scan.sources.root)
    (hstamp : Stamp.ofMillis? millis = some plan.stamp)
    (hplain : ∀ source, HasRemovals scan candidates source → IsPlain here source)
    (hbreak : ∀ path, path ∈ scan.sources.stylesheets ∨ path ∈ scan.sources.scripts →
      '\n' ∉ (scan.sources.shown path).toList)
    (hproposed : ∃ last, { plan with policy := .patchOnly }.run decider scan candidates disk state =
      (.ok proposed, proposedDisk, last))
    (happlied : ∃ last, { plan with policy := .applyAll }.run decider scan candidates disk state =
      (.ok applied, appliedDisk, last))
    (hskipped : applied.skipped.map (·.file) = unreadable scan candidates disk)
    (hunlinked : plan.patchPlace.Unlinked disk proposedDisk)
    (hfree : ∀ source, .ofLocation source ∈ scan.sources.stylesheets ∨
      HasRemovals scan candidates source →
      ∀ target, disk.get? (backupPlace plan.stamp.millis source) ≠ some (.link target)) :
    proposed.patches.suggestions.map (·.file) = applied.changed.map (·.shownIn plan.root) ∧
      proposed.patches.suggestions.map (·.patch) =
        proposed.patches.patches.map (·.shownIn plan.root) ∧
      List.Forall₂ (IsPatchOf proposedDisk disk appliedDisk) proposed.patches.patches
        applied.changed := by
  have hapart := areApart_removals found hstamp hplain hfree plan.stamp.iso
  obtain ⟨last, hproposed⟩ := hproposed
  obtain ⟨last', happlied⟩ := happlied
  obtain ⟨patching, hpropose, hpatches, rfl⟩ := exists_propose_of_run hproposed
  obtain ⟨progress, hprogress, rfl, hreported, hlisted⟩ := exists_progress_of_run happlied
  have filed : Filed plan.patchPlace
      ((removals plan.stamp.iso scan candidates).filterMap (·.proposal? disk)) patching := by
    refine filed_of_propose (fitsInName_of_ofMillis? hstamp) ?_ hpropose hunlinked
    intro removal hremoval
    obtain ⟨source, heditable, hpath⟩ := hapart.editable removal hremoval
    exact .of_project project heditable.isSource heditable.direct hpath
  have happly : Applied root here (removals plan.stamp.iso scan candidates)
      ⟨disk, { stamp := plan.stamp }, [], []⟩ progress := by
    subst hprogress
    exact applied_foldl project hapart
  have hlength : progress.skipped.length =
      ((removals plan.stamp.iso scan candidates).filterMap (·.unread? disk)).length := by
    rw [hlisted, hskipped, filterMap_unread?]
  obtain ⟨hchanged, hstored⟩ := happly.written (by simpa using hlength) (by simp)
  rw [hreported, List.nil_append] at hchanged
  rw [hpatches, hchanged]
  refine ⟨?_, filed.shown, ?_⟩
  · rw [filed.files, List.map_map]
    rfl
  · rw [List.forall₂_map_right_iff, List.forall₂_iff_zip]
    refine ⟨filed.diffs.length_eq, ?_⟩
    intro patch proposal hpair
    obtain ⟨removal, hremoval, hproposal⟩ := List.mem_filterMap.mp (List.of_mem_zip hpair).2
    obtain ⟨source, hsource, hdirect, hpath, hmem⟩ := exists_of_mem_removals found hplain hremoval
    have hnew := hstored removal hremoval source proposal hsource hpath hproposal
    have hbreak : '\n' ∉ (proposal.path.shownIn plan.root).toList := by
      rw [Removal.path_of_proposal? hproposal, hpath, hroot]
      exact hbreak _ (hmem.imp_right fun hremovals => hremovals.2.1)
    refine ⟨proposal.diff plan.root, proposal.old, proposal.new, ?_,
      readText?_of_proposal? hproposal, ?_, readDiff_diff hbreak⟩
    · exact List.forall₂_zip filed.diffs hpair
    · rw [Removal.path_of_proposal? hproposal, hpath]
      exact readText?_of_find ((find_source happly.project hsource
        (happly.links.direct hdirect)).mpr ⟨rfl, hnew⟩)

/-! ## Both ways from the project with one script -/

/-- A run on the project, by its policy. -/
def soloOutcome (policy : Policy) : Except FixError Report × Disk × soloJob.σ :=
  { soloJob.plan with policy }.run soloJob.decider soloScan soloCandidates soloDisk soloJob.state

theorem solo_unlinked (after : Disk) : soloJob.plan.patchPlace.Unlinked soloDisk after :=
  fun _ _ target _ _ => soloDisk_linkless _ target

/-- There is room for the patch and the manifest. -/
theorem solo_proposes : ∃ patching,
    propose soloJob.plan.patchPlace soloScan soloCandidates soloDisk = (none, patching) := by
  have hready : Ready soloJob.plan.patchPlace ["deadwatcher_patches"]
      { disk := soloDisk, ready := true } := by
    refine ⟨rfl, ?_, rfl⟩
    have hdirectory : soloJob.plan.patchPlace.directory = .ofLocation ["deadwatcher_patches"] := by
      decide
    rw [hdirectory]
    exact .ofTree soloDisk_project.tree rfl
  have hnaming : soloJob.plan.patchPlace.patchName [] soloProposal.path =
      ("100_app.js.diff", [("100_app.js", 1)]) := by decide
  obtain ⟨patched, hemit, hpatched, -, hothers⟩ := hready.exists_emit hnaming (by decide)
    (by decide) soloRemoval.kind soloProposal.old soloProposal.new
  rw [← PatchPlace.emit_of_ready hready] at hemit
  have hremovals : removals soloJob.plan.patchPlace.stamp.iso soloScan soloCandidates =
      [soloRemoval] := solo_removals
  rw [propose_eq, hremovals, Patching.each, PatchPlace.patch, soloRemoval_proposal?]
  dsimp only
  rw [hemit]
  exact hpatched.exists_emitManifest (by decide) (by rw [hothers _ (by decide)]; decide)

/-- The script is suggested and changed. -/
theorem suggestions_eq_changed_solo : ∃ proposed applied : Report,
    (soloOutcome .patchOnly).1 = .ok proposed ∧ (soloOutcome .applyAll).1 = .ok applied ∧
      applied.skipped = [] ∧ proposed.patches.suggestions.map (·.file) = ["app.js"] ∧
      applied.changed = [.ofLocation ["app.js"]] ∧
      List.Forall₂ (IsPatchOf (soloOutcome .patchOnly).2.1 soloDisk (soloOutcome .applyAll).2.1)
        proposed.patches.patches applied.changed := by
  obtain ⟨patching, hpropose⟩ := solo_proposes
  have hproposed : soloOutcome .patchOnly =
      (.ok { patches := patching.written }, patching.disk, soloJob.state) := by
    have hplace : ({ soloJob.plan with policy := .patchOnly } : Plan).patchPlace =
      soloJob.plan.patchPlace := rfl
    rw [soloOutcome, Plan.run, if_pos rfl, hplace, hpropose]
  have happlied : soloOutcome .applyAll =
      (.ok (soloJob.report soloDisk), soloJob.after soloDisk, soloJob.state) := rfl
  obtain ⟨hchanged, hskipped⟩ := soloJob_report
  have hunread : unreadable soloScan soloCandidates soloDisk = [] := by
    obtain ⟨text, hload, -⟩ := Option.bind_eq_some_iff.mp soloRemoval_proposal?
    rw [← filterMap_unread? soloJob.plan.stamp.iso, solo_removals]
    simp [Removal.unread?, hload]
  have hunbroken : ∀ path, path ∈ soloScan.sources.stylesheets ∨ path ∈ soloScan.sources.scripts →
      '\n' ∉ (soloScan.sources.shown path).toList := by
    simp only [soloScan, List.not_mem_nil, false_or, List.mem_singleton, forall_eq]
    decide
  have hplain : ∀ source, HasRemovals soloScan soloCandidates source → IsPlain [] source := by
    rintro source ⟨hnames, hscript, -⟩
    rw [mem_soloScan hnames hscript]
    exact soloSource_isPlain
  have hfound := solo_found fun _ _ hlink => hlink
  obtain ⟨hfiles, -, hpatches⟩ := suggestions_eq_changed soloDisk_project hfound rfl solo_stamp
    hplain hunbroken ⟨_, hproposed⟩ ⟨_, happlied⟩ (by rw [hskipped, hunread]; rfl) (solo_unlinked _)
    (fun _ _ => soloDisk_linkless _)
  rw [hchanged] at hfiles hpatches
  rw [hproposed, happlied]
  refine ⟨_, _, rfl, rfl, hskipped, hfiles.trans (by decide), hchanged, ?_⟩
  rwa [hchanged]

end Deadwood
