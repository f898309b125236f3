/-
# What proposing can change

A run that only proposes makes a directory and writes there, under names that tell
the run. `Confined` says so of a disk before and after, for any disk: whatever has
changed is a directory where nothing was, or the file that one of these names leads
to. Each step of a run is confined, those that fail included, and so is the run.

A name leads to a file of that name, unless a link has it. Without such links all
that a run writes stands in its directory, and no name of an analysed file or of a
backup is among its names.
-/

import Deadwood.Proofs.Disk.Make
import Deadwood.Proofs.Fix.PatchNames
import Deadwood.Proofs.Fix.Removals
import Deadwood.Proofs.Identity

namespace Deadwood.Fix

open Deadwood.Path (IsName)

variable {disk middle after : Disk} {place : PatchPlace} {patching done : Patching} {path : Path}
  {location inner : Location} {name : String} {bytes : ByteArray}

/-! ## Names of a run -/

/-- The names under which a run writes: its patches and their manifest. -/
def PatchPlace.IsOwn (place : PatchPlace) (name : String) : Prop :=
  (∃ base, name = place.stamp.millis ++ "_" ++ base ++ ".diff") ∨
    name = "suggested-changes." ++ place.stamp.millis ++ ".json"

namespace PatchPlace.IsOwn

theorem manifestName (place : PatchPlace) : place.IsOwn place.manifestName :=
  .inr rfl

theorem patchName (place : PatchPlace) (names : List (String × Nat)) (target : Path) :
    place.IsOwn (place.patchName names target).1 := by
  rw [patchName_fst, numbered]
  split
  · exact .inl ⟨target.baseName, rfl⟩
  · exact .inl ⟨target.baseName ++ "-" ++
      toString (timesSeen names (place.stem target) + 1), by simp [stem, String.append_assoc]⟩

/-- Such a name ends with a letter that ends no other name of interest. -/
theorem exists_getLast? (hown : place.IsOwn name) :
    ∃ c ∈ ['f', 'n'], name.toList.getLast? = some c := by
  rcases hown with ⟨base, rfl⟩ | rfl
  · exact ⟨'f', by simp, getLast?_toList_append (by decide) _⟩
  · exact ⟨'n', by simp, getLast?_toList_append (by decide) _⟩

theorem not_endsAsCode (hown : place.IsOwn name) : ¬ EndsAsCode name := by
  rintro ⟨c, hlast, hmem⟩
  obtain ⟨d, hd, hown⟩ := hown.exists_getLast?
  obtain rfl : c = d := Option.some.inj (hlast.symm.trans hown)
  rcases List.mem_pair.mp hd with rfl | rfl <;> exact absurd hmem (by decide)

theorem not_endsWithDigit (hown : place.IsOwn name) : ¬ EndsWithDigit name := by
  rintro ⟨c, hlast, hdecimal⟩
  obtain ⟨d, hd, hown⟩ := hown.exists_getLast?
  obtain rfl : c = d := Option.some.inj (hlast.symm.trans hown)
  rcases List.mem_pair.mp hd with rfl | rfl <;> exact absurd hdecimal (by decide)

end PatchPlace.IsOwn

/-- No link in the directory of the patches has a name of the run. -/
def PatchPlace.Unlinked (place : PatchPlace) (disk after : Disk) : Prop :=
  ∀ inner name target, after.LeadsInto place.directory inner → place.IsOwn name →
    disk.get? (inner ++ [name]) ≠ some (.link target)

/-- The name of a file that is read can stand in a name. -/
theorem fitsInName_baseName (hzero : path.NoZero) : FitsInName path.baseName := by
  unfold Path.baseName
  cases hname : path.name? with
  | none => decide
  | some name =>
    have hmem := Path.mem_segments_of_name? hname
    exact ⟨Path.slash_not_mem_of_mem_segments hmem, hzero name hmem⟩

/-! ## Confined changes -/

/-- All that has changed on a disk is a directory where nothing was, or a file that
a name of the run leads to. -/
structure Confined (place : PatchPlace) (disk after : Disk) : Prop where
  working : after.workingDir = disk.workingDir
  keeps : disk.Keeps after
  changes : ∀ location, after.get? location = disk.get? location ∨
    (disk.get? location = none ∧ after.get? location = some .directory) ∨
    ∃ name bytes, place.IsOwn name ∧ IsName name ∧
      after.find (place.directory.join ⟨name⟩) = .ok (location, .file bytes)

namespace Confined

theorem of_grown (grown : disk.Grown after) : Confined place disk after where
  working := grown.working
  keeps := grown.keeps
  changes location := (grown.entries location).imp_right .inl

theorem of_alike (halike : disk.Alike after) : Confined place disk after where
  working := halike.2
  keeps location entry hentry _ := by rw [halike.get?, hentry]
  changes location := .inl (halike.get? location)

/-- What a name of the run leads to is a file that stands there. -/
theorem get?_of_find (hfind : disk.find path = .ok (location, .file bytes)) :
    disk.get? location = some (.file bytes) :=
  (Disk.get?_of_lookUp_file (Disk.place_eq_ok_iff.mp (Disk.find_eq_ok_iff_place.mp hfind)).2.2).2

theorem trans (first : Confined place disk middle) (second : Confined place middle after) :
    Confined place disk after where
  working := second.working.trans first.working
  keeps := first.keeps.trans second.keeps
  changes := by
    intro location
    rcases second.changes location with hsame | ⟨hnone, hmade⟩ | hown
    · rcases first.changes location with hfirst | ⟨hnone, hmade⟩ | ⟨name, bytes, hown, hname, hfind⟩
      · exact .inl (hsame.trans hfirst)
      · exact .inr (.inl ⟨hnone, hsame.trans hmade⟩)
      · -- The name still leads there.
        have hfile := hsame.trans (get?_of_find hfind)
        refine .inr (.inr ⟨name, bytes, hown, hname, Disk.find_eq_ok_iff_place.mpr ?_⟩)
        exact second.keeps.place_file second.working (Disk.find_eq_ok_iff_place.mp hfind) hfile
    · rcases first.changes location with hfirst | ⟨-, hdirectory⟩ | ⟨name, bytes, -, -, hfind⟩
      · exact .inr (.inl ⟨hfirst ▸ hnone, hmade⟩)
      · simp [hdirectory] at hnone
      · simp [get?_of_find hfind] at hnone
    · exact .inr (.inr hown)

/-- Writing under a name of the run is confined, whether it succeeds or not. -/
theorem write (hown : place.IsOwn name) (hname : IsName name) (disk : Disk) (bytes : ByteArray) :
    Confined place disk (disk.write (place.directory.join ⟨name⟩) bytes).2 := by
  rcases disk.write_cases (place.directory.join ⟨name⟩) bytes with
    ⟨error, failed, hwrite, halike⟩ | ⟨location, stored, hwrite, htarget, hstored⟩
  · rw [hwrite]
    exact of_alike halike
  · rw [hwrite]
    refine ⟨hstored.workingDir, hstored.keeps htarget, fun other => ?_⟩
    rw [hstored.get? (Disk.get?_of_target htarget).1]
    split
    · rename_i hsame
      subst hsame
      exact .inr (.inr ⟨name, bytes, hown, hname, hstored.find htarget⟩)
    · exact .inl rfl

theorem ensureDirectory (place : PatchPlace) (patching : Patching) :
    Confined place patching.disk (place.ensureDirectory patching).2.disk := by
  unfold PatchPlace.ensureDirectory
  split
  · exact of_alike (.refl _)
  · have grown := Disk.grown_makePath patching.disk place.directory
    split
    · rename_i made hmade
      rw [hmade] at grown
      exact of_grown grown
    · rename_i error made hmade
      rw [hmade] at grown
      exact of_grown grown

theorem writeInto (hown : place.IsOwn name) (hname : IsName name) (patching : Patching)
    (content : String) :
    Confined place patching.disk (place.writeInto patching name content).2.disk :=
  write hown hname patching.disk content.toUTF8

theorem emit (hmillis : FitsInName place.stamp.millis) (hbase : FitsInName path.baseName)
    (kind : PatchKind) (old new : String) (patching : Patching) :
    Confined place patching.disk (place.emit kind path old new patching).2.disk := by
  have hmade := ensureDirectory place patching
  unfold PatchPlace.emit
  rcases hensure : place.ensureDirectory patching with ⟨_ | error, made⟩
  · rw [hensure] at hmade
    have hstem : FitsInName (place.stem path) := (hmillis.append (by decide)).append hbase
    have hname : IsName (place.patchName made.names path).1 := isName_numbered hstem _
    have hwritten := hmade.trans (writeInto (.patchName place made.names path) hname
      { made with names := (place.patchName made.names path).2 }
      (String.ofList (Text.lineDiff (path.shownIn place.root).toList old.toList new.toList)))
    dsimp only
    split
    all_goals
      rename_i hwrite
      rwa [hwrite] at hwritten
  · rwa [hensure] at hmade

theorem emitManifest (hmillis : FitsInName place.stamp.millis) (patching : Patching) :
    Confined place patching.disk (place.emitManifest patching).2.disk := by
  have hmade := ensureDirectory place patching
  unfold PatchPlace.emitManifest
  split
  · exact of_alike (.refl _)
  rcases hensure : place.ensureDirectory patching with ⟨_ | error, made⟩
  · rw [hensure] at hmade
    have hwritten := hmade.trans (writeInto (.manifestName place)
      (place.isName_manifestName hmillis) made
      (Manifest.mk place.stamp.millis made.written.suggestions).toJson.toPretty)
    dsimp only
    split
    all_goals
      rename_i hwrite
      rwa [hwrite] at hwritten
  · rwa [hensure] at hmade

/-- A file that has text is at a path without zeros. -/
theorem noZero_of_loadSource {text : String}
    (hload : (disk.loadSource path).toOption = some text) : path.NoZero := by
  unfold Disk.loadSource at hload
  split at hload
  · simp [Except.toOption] at hload
  · rename_i location bytes hfind
    exact Path.noZero_of_any_eq_false
      (Disk.place_eq_ok_iff.mp (Disk.find_eq_ok_iff_place.mp hfind)).2.1
  · simp [Except.toOption] at hload

theorem patch (hmillis : FitsInName place.stamp.millis) (removal : Removal)
    (patching : Patching) :
    Confined place patching.disk (place.patch removal patching).2.disk := by
  unfold PatchPlace.patch
  split
  · rename_i proposal hproposal
    obtain ⟨source, hload, -⟩ := Option.bind_eq_some_iff.mp hproposal
    rw [Removal.path_of_proposal? hproposal]
    exact emit hmillis (fitsInName_baseName (noZero_of_loadSource hload)) _ _ _ _
  · exact of_alike (.refl _)

/-- One step after the other is confined if each is. -/
theorem each {α : Type} {step : α → Patching → Option FixError × Patching}
    (hstep : ∀ item patching, Confined place patching.disk (step item patching).2.disk)
    (items : List α) (patching : Patching) :
    Confined place patching.disk (Patching.each step items patching).2.disk := by
  induction items generalizing patching with
  | nil => exact of_alike (.refl _)
  | cons item items ih =>
    have hfirst := hstep item patching
    rw [Patching.each]
    split
    · rename_i hone
      rwa [hone] at hfirst
    · rename_i stepped hone
      rw [hone] at hfirst
      exact hfirst.trans (ih stepped)

theorem propose (hmillis : FitsInName place.stamp.millis) (scan : Scan)
    (candidates : List Candidate) (disk : Disk) :
    Confined place disk (propose place scan candidates disk).2.disk := by
  have hpatches := each (patch hmillis) (removals place.stamp.iso scan candidates) { disk }
  rw [propose_eq]
  split
  · rename_i heach
    rwa [heach] at hpatches
  · rename_i patching heach
    rw [heach] at hpatches
    exact hpatches.trans (emitManifest hmillis patching)

/-! ## Without links under the names of the run -/

/-- Links are neither made nor changed. -/
theorem get?_link (confined : Confined place disk after) {target : String}
    (hlink : after.get? location = some (.link target)) :
    disk.get? location = some (.link target) := by
  rcases confined.changes location with hsame | ⟨-, hmade⟩ | ⟨name, bytes, -, -, hfind⟩
  · rw [← hsame, hlink]
  · simp [hmade] at hlink
  · simp [get?_of_find hfind] at hlink

/-- Where no link has a name of the run, all files that have changed stand in the
directory of the run, under a name of the run. -/
theorem changes_of_linkless (confined : Confined place disk after)
    (hlinks : place.Unlinked disk after) (location : Location) :
    after.get? location = disk.get? location ∨
      (disk.get? location = none ∧ after.get? location = some .directory) ∨
      ∃ inner name bytes, location = inner ++ [name] ∧
        after.LeadsInto place.directory inner ∧ place.IsOwn name ∧
        after.get? location = some (.file bytes) := by
  rcases confined.changes location with hsame | hmade | ⟨name, bytes, hown, hname, hfind⟩
  · exact .inl hsame
  · exact .inr (.inl hmade)
  · obtain ⟨inner, hinner, hplace | ⟨target, hlink⟩⟩ := Disk.exists_leadsInto_of_find hname hfind
    · exact .inr (.inr ⟨inner, name, bytes, hplace, hinner, hown, get?_of_find hfind⟩)
    · exact absurd (confined.get?_link hlink) (hlinks inner name target hinner hown)

/-- Then no file of another name has changed. -/
theorem get?_of_not_isOwn (confined : Confined place disk after)
    (hlinks : place.Unlinked disk after) {front : Location}
    (hname : ¬ place.IsOwn name) :
    after.get? (front ++ [name]) = some (.file bytes) ↔
      disk.get? (front ++ [name]) = some (.file bytes) := by
  rcases confined.changes_of_linkless hlinks (front ++ [name]) with
    hsame | ⟨hnone, hmade⟩ | ⟨inner, other, _, hplace, -, hown, -⟩
  · rw [hsame]
  · simp [hnone, hmade]
  · obtain rfl : name = other := by simpa using congrArg List.getLast? hplace
    exact absurd hown hname

/-- A path to an analysed file still leads there. -/
theorem place_file (confined : Confined place disk after)
    (hlinks : place.Unlinked disk after)
    (hkind : (FileKind.ofPath? path).isSome = true)
    (hplace : disk.place path false = .ok (.found location (.file bytes))) :
    after.place path false = .ok (.found location (.file bytes)) := by
  obtain ⟨front, name, rfl, hname⟩ := Disk.exists_name_of_place_file hplace
  obtain ⟨kind, hkind⟩ := Option.isSome_iff_exists.mp hkind
  have hcode : ¬ place.IsOwn name := fun hown =>
    hown.not_endsAsCode (endsAsCode_of_kind hkind hname)
  have hfile := (confined.get?_of_not_isOwn hlinks hcode).mpr
    (Disk.get?_of_lookUp_file (Disk.place_eq_ok_iff.mp hplace).2.2).2
  exact confined.keeps.place_file confined.working hplace hfile

end Confined

/-- A run that only proposes, and whatever it comes to, changes nothing but this: it
makes directories where nothing was, and it writes where the names of its patches and
its manifest lead in the directory for patches. If none of these is the name of a
link there, all that it writes stands in that directory; every analysed file keeps
its bytes, and there are no new backups. -/
theorem proposing_confined {σ : Type} {plan : Plan} {millis : Int}
    (hpolicy : plan.policy = .patchOnly) (hstamp : Stamp.ofMillis? millis = some plan.stamp)
    (decider : Decider σ) (scan : Scan) (candidates : List Candidate) (disk after : Disk)
    (state last : σ) (outcome : Except FixError Report)
    (hrun : plan.run decider scan candidates disk state = (outcome, after, last)) :
    (∀ location, after.get? location = disk.get? location ∨
      (disk.get? location = none ∧ after.get? location = some .directory) ∨
      ∃ name bytes, plan.patchPlace.IsOwn name ∧
        after.find ((plan.settings.patchesPath plan.root).join ⟨name⟩) =
          .ok (location, .file bytes)) ∧
    ((∀ inner name target, after.LeadsInto (plan.settings.patchesPath plan.root) inner →
        plan.patchPlace.IsOwn name → disk.get? (inner ++ [name]) ≠ some (.link target)) →
      (∀ location, after.get? location = disk.get? location ∨
        (disk.get? location = none ∧ after.get? location = some .directory) ∨
        ∃ inner name bytes, location = inner ++ [name] ∧
          after.LeadsInto (plan.settings.patchesPath plan.root) inner ∧
          plan.patchPlace.IsOwn name ∧ after.get? location = some (.file bytes)) ∧
      (∀ path location bytes, (FileKind.ofPath? path).isSome = true →
        disk.place path false = .ok (.found location (.file bytes)) →
        after.place path false = .ok (.found location (.file bytes)) ∧
          after.read path = .ok bytes) ∧
      (∀ before root settings, Sources.discover before root settings = .ok scan.sources →
        ∀ path ∈ scan.sources.listed, ∀ location bytes,
          disk.place path false = .ok (.found location (.file bytes)) →
          after.read path = .ok bytes) ∧
      ∀ front own bytes,
        after.get? (front ++ [backupName own plan.stamp.millis]) = some (.file bytes) →
        disk.get? (front ++ [backupName own plan.stamp.millis]) = some (.file bytes)) := by
  have hmillis := fitsInName_of_ofMillis? hstamp
  have confined : Confined plan.patchPlace disk after := by
    have hproposed : Confined plan.patchPlace disk
        (propose plan.patchPlace scan candidates disk).2.disk :=
      .propose hmillis scan candidates disk
    rw [Plan.run, if_pos hpolicy] at hrun
    split at hrun
    · rename_i hpropose
      rw [hpropose] at hproposed
      obtain ⟨-, rfl, -⟩ := hrun
      exact hproposed
    · rename_i hpropose
      rw [hpropose] at hproposed
      obtain ⟨-, rfl, -⟩ := hrun
      exact hproposed
  refine ⟨fun location => ?_, fun hlinks => ?_⟩
  · refine (confined.changes location).imp_right (.imp_right ?_)
    rintro ⟨name, bytes, hown, -, hfind⟩
    exact ⟨name, bytes, hown, hfind⟩
  have hkept : ∀ path location bytes, (FileKind.ofPath? path).isSome = true →
      disk.place path false = .ok (.found location (.file bytes)) →
      after.place path false = .ok (.found location (.file bytes)) ∧ after.read path = .ok bytes := by
    intro path location bytes hkind hplace
    have hagain := confined.place_file hlinks hkind hplace
    refine ⟨hagain, ?_⟩
    rw [Disk.read, Disk.find_of_place_file hagain]
    rfl
  refine ⟨confined.changes_of_linkless hlinks, hkept, ?_, ?_⟩
  · intro before root settings hsources path hpath location bytes hplace
    obtain ⟨here, entry, -, hfiles⟩ := Sources.exists_ofFiles_of_discover hsources
    rw [hfiles, Sources.mem_listed_ofFiles] at hpath
    exact (hkept path location bytes hpath.2 hplace).2
  · intro front own bytes hfile
    have hdigit := (endsWithDigit_of_ofMillis? hstamp).append (own ++ ".bak.")
    exact (confined.get?_of_not_isOwn hlinks fun hown => hown.not_endsWithDigit hdigit).mp hfile

/-! ## A project with one stylesheet -/

def sheetDisk : Disk where
  entries := [(["app.css"], .file ".dead \x7b color: red; \x7d".toUTF8)]

theorem sheetDisk_project : sheetDisk.Project (.ofLocation []) [] :=
  .ofEntries (by decide) (by decide) (by simp [sheetDisk])

theorem sheetDisk_place : sheetDisk.place (.ofLocation ["app.css"]) false =
    .ok (.found ["app.css"] (.file ".dead \x7b color: red; \x7d".toUTF8)) := by
  have hpath : Path.ofLocation ["app.css"] = (Path.ofLocation []).down ["app.css"] := by decide
  rw [hpath]
  exact sheetDisk_project.tree.place_down sheetDisk_project.rooted (by simp) rfl false

def sheetPlan : Plan :=
  ⟨.ofLocation [], {}, ⟨"100", "1970-01-01T00:00:00.100Z"⟩, .patchOnly⟩

def sheetScan : Scan where
  sources := { root := .ofLocation [], stylesheets := [.ofLocation ["app.css"]] }
  findings := { unusedClasses := ["dead"] }

/-- A stylesheet out of which something is to be taken keeps its bytes. -/
theorem proposing_confined_sheet :
    (sheetPlan.run scripted sheetScan [] sheetDisk {}).2.1.read (.ofLocation ["app.css"]) =
      .ok ".dead \x7b color: red; \x7d".toUTF8 := by
  have hstamp : Stamp.ofMillis? 100 = some sheetPlan.stamp := by decide
  have hconfined := proposing_confined rfl hstamp scripted sheetScan [] sheetDisk _ {} _ _ rfl
  exact ((hconfined.2 fun inner name target _ _ =>
    Disk.linkless_of_entries (by simp [sheetDisk]) (inner ++ [name]) target).2.1 _ _ _ (by decide) sheetDisk_place).2

end Deadwood.Fix
