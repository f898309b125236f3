/-
# A patch for each file

The names that a run hands out for its patches differ from each other and from that of
the manifest, so at the end each patch holds the diff of its own file.

A suggestion names its patch the way paths are shown. That leads to the patch unless
there is a backslash in it.
-/

import Deadwood.Proofs.Fix.Proposed
import Deadwood.Proofs.Relative
import Mathlib.Data.List.Induction

namespace Deadwood.Fix

open Deadwood.Path (IsName)

/-! ## Names for many files -/

/-- Handing out a name more keeps the names apart: all that were handed out count as
issued, and the new one does not. -/
theorem PatchPlace.handOut_spec (place : PatchPlace) {targets : List Path}
    (htargets : ∀ target ∈ targets, (FileKind.ofPath? target).isSome = true) :
    (∀ name ∈ (place.handOut targets).1, Issued (place.handOut targets).2 name) ∧
      (place.handOut targets).1.Nodup := by
  induction targets using List.reverseRecOn with
  | nil => exact ⟨by simp [handOut], by simp [handOut]⟩
  | append_singleton targets target ih =>
    obtain ⟨hissued, hdistinct⟩ := ih fun other hother =>
      htargets other (List.mem_append_left _ hother)
    have hends := endsAsCode_baseName (htargets target (by simp))
    rw [handOut_concat]
    constructor
    · intro name hname
      rcases List.mem_append.mp hname with hname | hname
      · exact place.issued_of_issued (hissued name hname) target
      · rw [List.mem_singleton.mp hname]
        exact place.issued_patchName _ hends
    · refine List.nodup_append.mpr ⟨hdistinct, List.nodup_singleton _, ?_⟩
      rintro name hname other hother rfl
      rw [List.mem_singleton.mp hother] at hname
      exact place.not_issued_patchName _ hends (hissued _ hname)

/-! ## A run -/

/-- Patches of analysed files have names that differ from each other and from that of
the manifest. So a run that proposes has for each file out of which something is to be
taken, in order, a patch under the name handed out for it, and the patch holds the diff
of that file, as long as no link in the directory has a name of the run. The suggestion
names the patch as it is shown. That is its path behind the root exactly if there is no
backslash in it, and then it leads from the root to the patch. -/
theorem patches_hold_own_diffs {place : PatchPlace} {millis : Int}
    (hstamp : Stamp.ofMillis? millis = some place.stamp) :
    (∀ targets : List Path, (∀ target ∈ targets, (FileKind.ofPath? target).isSome = true) →
      (place.handOut targets).1.Nodup ∧ place.manifestName ∉ (place.handOut targets).1) ∧
    ∀ (scan : Scan) (candidates : List Candidate) (disk : Disk) (patching : Patching)
      (proposals : List Proposal),
      proposals = (removals place.stamp.iso scan candidates).filterMap (·.proposal? disk) →
      propose place scan candidates disk = (none, patching) →
      (∀ removal ∈ removals place.stamp.iso scan candidates,
        (FileKind.ofPath? removal.path).isSome = true ∧
          ∃ location bytes, disk.place removal.path false = .ok (.found location (.file bytes))) →
      place.Unlinked disk patching.disk →
      patching.written.patches =
          (place.handOut (proposals.map (·.path))).1.map (place.directory.join ⟨·⟩) ∧
        patching.written.suggestions.map (·.file) = proposals.map (·.path.shownIn place.root) ∧
        patching.written.suggestions.map (·.patch) =
          patching.written.patches.map (·.shownIn place.root) ∧
        List.Forall₂ (fun patch proposal =>
            patching.disk.readText? patch = some (proposal.diff place.root) ∧
            (patch.shownIn place.root = ((patch.relativeTo? place.root).getD patch).text ↔
              '\\' ∉ ((patch.relativeTo? place.root).getD patch).text.toList) ∧
            ∀ here inner, place.root = .ofLocation here → (∀ name ∈ here, IsName name) →
              disk.LeadsInto place.root inner → place.directory.isAbsolute = true →
              '\\' ∉ ((patch.relativeTo? place.root).getD patch).text.toList →
              patching.disk.readText? (place.root.join ⟨patch.shownIn place.root⟩) =
                some (proposal.diff place.root))
          patching.written.patches proposals := by
  have hmillis := fitsInName_of_ofMillis? hstamp
  refine ⟨fun targets htargets => ?_, ?_⟩
  · obtain ⟨hissued, hdistinct⟩ := place.handOut_spec htargets
    exact ⟨hdistinct, fun hmem => place.not_issued_manifestName _ (hissued _ hmem)⟩
  rintro scan candidates disk patching proposals rfl hproposed hfiles hunlinked
  have hsteady : ∀ removal ∈ removals place.stamp.iso scan candidates, removal.Steady place disk := by
    intro removal hremoval
    obtain ⟨hkind, location, bytes, hplace⟩ := hfiles removal hremoval
    exact .of_place hkind hplace
  have filed := filed_of_propose hmillis hsteady hproposed hunlinked
  have confined := Confined.propose hmillis scan candidates disk
  rw [hproposed] at confined
  refine ⟨filed.patches, filed.files, filed.shown, ?_⟩
  rw [filed.patches, List.forall₂_map_left_iff]
  refine filed.held.imp ?_
  rintro name proposal ⟨-, holds⟩
  obtain ⟨location, hfind⟩ := holds.found
  refine ⟨readText?_of_find hfind, Path.shownIn_eq_iff _ _, ?_⟩
  intro here inner hroot hhere hleads habsolute hplain
  rw [hroot] at hleads hplain hfind ⊢
  refine readText?_of_find (Disk.find_join_shownIn hhere (leadsInto_of_confined confined hleads) ?_
    hplain hfind)
  rw [Path.isAbsolute_join holds.isName.isAbsolute_eq_false, habsolute]

/-! ## A project with two scripts of one name -/

def namesakeScript : String :=
  "function unused()\x7b\x7d"

def namesakeDisk : Disk where
  entries :=
    [(["deadwatcher_patches"], .directory), (["left"], .directory),
      (["left", "x.js"], .file namesakeScript.toUTF8), (["right"], .directory),
      (["right", "x.js"], .file namesakeScript.toUTF8)]

theorem namesakeDisk_project : namesakeDisk.Project (.ofLocation []) [] :=
  .ofEntries (by decide) (by decide) (by simp [namesakeDisk])

def namesakePlace : PatchPlace :=
  ⟨.ofLocation [], .ofLocation ["deadwatcher_patches"], ⟨"100", "1970-01-01T00:00:00.100Z"⟩⟩

def namesakeScan : Scan where
  sources := { root := .ofLocation [] }

def namesakeFunction (side : String) : Symbol :=
  .ofFunction "unused" (side ++ "/x.js") ⟨0, 19, 1, 1⟩

def namesakeCandidates : List Candidate :=
  [⟨namesakeFunction "left", .safe⟩, ⟨namesakeFunction "right", .safe⟩]

/-- The script with its function commented out. -/
def namesakeProposal (side : String) : Proposal where
  path := .ofLocation [side, "x.js"]
  old := namesakeScript
  new := "/* DEADWATCHER REMOVED FUNCTION: unused - 1970-01-01T00:00:00.100Z */\n" ++
    "// ORIGINAL (kept commented):\n// function unused()\x7b\x7d\n"

/-- Takes the function out of the script on a side. -/
def namesakeRemoval (side : String) : Removal :=
  .ofScript namesakeScan.sources namesakePlace.stamp.iso (side ++ "/x.js", [namesakeFunction side])

theorem namesake_removals : removals namesakePlace.stamp.iso namesakeScan namesakeCandidates =
    ["left", "right"].map namesakeRemoval := by
  have hfiles : sortedNames ["left/x.js", "right/x.js"] = ["left/x.js", "right/x.js"] :=
    sortedNames_of_ascending (by decide)
  exact congrArg (List.map (Removal.ofScript namesakeScan.sources namesakePlace.stamp.iso))
    (congrArg (List.map _) hfiles)

theorem namesake_place (side : String) (hside : side ∈ ["left", "right"]) :
    namesakeDisk.place (.ofLocation [side, "x.js"]) false =
      .ok (.found [side, "x.js"] (.file namesakeScript.toUTF8)) := by
  have hpath : Path.ofLocation [side, "x.js"] = (Path.ofLocation []).down [side, "x.js"] := by
    revert side
    decide
  have hfile : namesakeDisk.get? [side, "x.js"] = some (.file namesakeScript.toUTF8) := by
    simp only [List.mem_cons, List.not_mem_nil, or_false] at hside
    rcases hside with rfl | rfl <;> rfl
  rw [hpath]
  exact namesakeDisk_project.tree.place_down namesakeDisk_project.rooted (by simp) hfile false

theorem namesake_path (side : String) (hside : side ∈ ["left", "right"]) :
    namesakeScan.sources.resolve (side ++ "/x.js") = .ofLocation [side, "x.js"] := by
  revert side
  decide

theorem namesake_proposal? (side : String) (hside : side ∈ ["left", "right"]) :
    (namesakeRemoval side).proposal? namesakeDisk = some (namesakeProposal side) := by
  have hwritten : commentedScript namesakeScript [namesakeFunction side] namesakePlace.stamp.iso =
      ((namesakeProposal side).new, 1) := by
    revert side
    decide +kernel
  have hload : namesakeDisk.loadSource (.ofLocation [side, "x.js"]) = .ok namesakeScript := by
    rw [Disk.loadSource, Disk.find_of_place_file (namesake_place side hside)]
    have hread : String.fromUTF8? namesakeScript.toUTF8 = some namesakeScript := by decide +kernel
    simp only [hread]
    rfl
  rw [Removal.proposal?]
  dsimp only [namesakeRemoval, Removal.ofScript]
  rw [namesake_path side hside, hload]
  dsimp only [Except.toOption, Option.bind_some]
  rw [hwritten]
  rfl

theorem namesake_proposals : [namesakeProposal "left", namesakeProposal "right"] =
    (removals namesakePlace.stamp.iso namesakeScan namesakeCandidates).filterMap
      (·.proposal? namesakeDisk) := by
  rw [namesake_removals, List.filterMap_map]
  symm
  exact List.filterMap_eq_map_iff_forall_eq_some.mpr namesake_proposal?

theorem namesake_files (side : String) (hside : side ∈ ["left", "right"]) :
    (FileKind.ofPath? (namesakeRemoval side).path).isSome = true ∧ ∃ location bytes,
      namesakeDisk.place (namesakeRemoval side).path false =
        .ok (.found location (.file bytes)) := by
  dsimp only [namesakeRemoval, Removal.ofScript]
  rw [namesake_path side hside]
  refine ⟨?_, _, _, namesake_place side hside⟩
  revert side
  decide

theorem namesake_unlinked (after : Disk) : namesakePlace.Unlinked namesakeDisk after :=
  fun inner name target _ _ => Disk.linkless_of_entries (by simp [namesakeDisk]) _ target

theorem namesake_stamp : Stamp.ofMillis? 100 = some namesakePlace.stamp := by decide

theorem namesake_ready :
    Ready namesakePlace ["deadwatcher_patches"] { disk := namesakeDisk, ready := true } where
  ready := rfl
  directory := .ofTree namesakeDisk_project.tree rfl
  calm := rfl

/-- There is room for both patches and for the manifest. -/
theorem namesake_proposes : ∃ patching,
    propose namesakePlace namesakeScan namesakeCandidates namesakeDisk = (none, patching) := by
  have hfirst : namesakePlace.patchName [] (namesakeProposal "left").path =
      ("100_x.js.diff", [("100_x.js", 1)]) := by decide
  have hsecond : namesakePlace.patchName [("100_x.js", 1)] (namesakeProposal "right").path =
      ("100_x.js-2.diff", [("100_x.js", 2)]) := by decide
  obtain ⟨first, hemit, ready, hnames, hothers⟩ := namesake_ready.exists_emit hfirst
    (by decide) (by decide) .functionComment namesakeScript (namesakeProposal "left").new
  rw [← hnames] at hsecond
  obtain ⟨second, hemit', ready', -, hothers'⟩ := ready.exists_emit hsecond
    (by decide) (by rw [hothers _ (by decide)]; decide) .functionComment namesakeScript
    (namesakeProposal "right").new
  have hleft : namesakePlace.patch (namesakeRemoval "left") { disk := namesakeDisk } =
      (none, first) := by
    rw [PatchPlace.patch, namesake_proposal? "left" (by simp), ← hemit]
    exact PatchPlace.emit_of_ready namesake_ready _ _ _ _
  -- The second script is read after the first patch has been written.
  have hconfined := Confined.patch (fitsInName_of_ofMillis? namesake_stamp) (namesakeRemoval "left")
    { disk := namesakeDisk }
  rw [hleft] at hconfined
  obtain ⟨hkind, location, bytes, hplace⟩ := namesake_files "right" (by simp)
  have hlater := (Removal.Steady.of_place hkind hplace).same hconfined (namesake_unlinked _)
  rw [namesake_proposal? "right" (by simp)] at hlater
  have hboth : namesakePlace.patch (namesakeRemoval "right") first = (none, second) := by
    rw [PatchPlace.patch, hlater]
    exact hemit'
  rw [propose_eq, namesake_removals]
  simp only [List.map_cons, List.map_nil, Patching.each, hleft, hboth]
  refine ready'.exists_emitManifest (by decide) ?_
  rw [hothers' _ (by decide), hothers _ (by decide)]
  decide

/-- Each suggestion leads to the diff of its script, though both scripts have one name. -/
theorem patches_hold_own_diffs_namesakes : ∃ patching,
    propose namesakePlace namesakeScan namesakeCandidates namesakeDisk = (none, patching) ∧
      patching.written.suggestions.map (·.file) = ["left/x.js", "right/x.js"] ∧
      patching.written.suggestions.map (·.patch) =
        ["deadwatcher_patches/100_x.js.diff", "deadwatcher_patches/100_x.js-2.diff"] ∧
      patching.disk.readText? (namesakePlace.root.join ⟨"deadwatcher_patches/100_x.js.diff"⟩) =
        some ((namesakeProposal "left").diff namesakePlace.root) ∧
      patching.disk.readText? (namesakePlace.root.join ⟨"deadwatcher_patches/100_x.js-2.diff"⟩) =
        some ((namesakeProposal "right").diff namesakePlace.root) := by
  obtain ⟨patching, hproposed⟩ := namesake_proposes
  have hhanded : (namesakePlace.handOut
      ([namesakeProposal "left", namesakeProposal "right"].map (·.path))).1 =
        ["100_x.js.diff", "100_x.js-2.diff"] := by decide
  have hfiles : ∀ removal ∈ removals namesakePlace.stamp.iso namesakeScan namesakeCandidates,
      (FileKind.ofPath? removal.path).isSome = true ∧ ∃ location bytes,
        namesakeDisk.place removal.path false = .ok (.found location (.file bytes)) := by
    intro removal hremoval
    rw [namesake_removals] at hremoval
    obtain ⟨side, hside, rfl⟩ := List.mem_map.mp hremoval
    exact namesake_files side hside
  obtain ⟨hpatches, hshown, hpaths, hheld⟩ := (patches_hold_own_diffs namesake_stamp).2
    namesakeScan namesakeCandidates namesakeDisk patching _ namesake_proposals hproposed hfiles
    (namesake_unlinked patching.disk)
  rw [hhanded] at hpatches
  rw [hpatches] at hpaths hheld
  have hleads : namesakeDisk.LeadsInto namesakePlace.root [] :=
    (Disk.place_eq_ok_iff.mp (Disk.find_eq_ok_iff_place.mp namesakeDisk_project.rooted)).2.2
  simp only [List.map_cons, List.map_nil, List.forall₂_cons] at hheld
  obtain ⟨⟨-, -, hleft⟩, ⟨-, -, hright⟩, -⟩ := hheld
  have hfirst : (namesakePlace.directory.join ⟨"100_x.js.diff"⟩).shownIn namesakePlace.root =
      "deadwatcher_patches/100_x.js.diff" := by decide
  have hsecond : (namesakePlace.directory.join ⟨"100_x.js-2.diff"⟩).shownIn namesakePlace.root =
      "deadwatcher_patches/100_x.js-2.diff" := by decide
  rw [hfirst] at hleft
  rw [hsecond] at hright
  simp only [List.map_cons, List.map_nil, hfirst, hsecond] at hpaths
  refine ⟨patching, hproposed, hshown.trans (by decide), hpaths, ?_, ?_⟩
  · exact hleft [] [] rfl (by simp) hleads (by decide) (by decide)
  · exact hright [] [] rfl (by simp) hleads (by decide) (by decide)

end Deadwood.Fix
