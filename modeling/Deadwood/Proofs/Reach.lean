/-
# Which backups reverting can see

Discovery and reverting walk the same tree and keep out of different directories.
Discovery leaves out those that the settings name and those that the tool writes;
reverting leaves out a fixed list. A backup beside a discovered file is therefore
visited exactly if no directory on the way is on that list and no link has stood
under its name, through which it would have gone elsewhere. Settings that exclude
all of the list, as they do unless they say otherwise, make sure of the former.
-/

import Deadwood.Proofs.Disk.Ends
import Deadwood.Proofs.Restore
import Deadwood.Proofs.Scanned

namespace Deadwood

open Deadwood.Fix
open Disk (NoNewLinks)

variable {disk editing after last : Disk} {root path backup : Path} {here place : Location}
  {settings : Settings} {sources : Sources} {editor editor' : Editor}

namespace Revert

/-- The walk of a revert comes by a place. -/
def Visits (disk : Disk) (root : Path) (place : Location) : Prop :=
  ∃ path ∈ disk.filesBelow root fun _ name => skippedDirs.contains name,
    ∃ entry, disk.find path = .ok (place, entry)

/-- A place below the root is visited exactly if a file stands there and no directory
on the way is skipped. -/
theorem visits_iff (project : last.Project root here) (names : List String) :
    Visits last root (here ++ names) ↔
      (∃ bytes, last.get? (here ++ names) = some (.file bytes)) ∧
        ∀ name ∈ names.dropLast, name ∉ skippedDirs := by
  rw [← isPruned_skippedDirs_iff root]
  constructor
  · rintro ⟨path, hpath, entry, hfound⟩
    obtain ⟨others, held, hheld, hpruned, rfl⟩ := project.mem_filesBelow_iff.mp hpath
    rw [project.find_down hheld, Except.ok.injEq, Prod.mk.injEq] at hfound
    rw [← List.append_cancel_left hfound.1]
    exact ⟨⟨held, hheld⟩, hpruned⟩
  · rintro ⟨⟨bytes, hfile⟩, hpruned⟩
    exact ⟨root.down names, project.mem_filesBelow_iff.mpr ⟨names, bytes, hfile, hpruned, rfl⟩,
      .file bytes, project.find_down hfile⟩

end Revert

/-- A new backup is stored where its path leads. -/
theorem stored_of_ensureBackup (hnew : ¬ editor.Has path)
    (hbackup : editor.ensureBackup editing path = (.ok backup, editor', after)) :
    backup = path.backup editor.stamp.millis ∧ ∃ location bytes,
      editing.target backup = .ok location ∧ Disk.Stored editing location bytes after := by
  rcases editor.ensureBackup_cases editing path with
    ⟨hhas, -⟩ | ⟨error, failed, hfailed, -⟩ |
      ⟨-, origin, bytes, location, stored, hmade, -, htarget, hstored⟩
  · exact absurd hhas hnew
  · simp [hfailed] at hbackup
  · obtain ⟨rfl, -, rfl⟩ : _ = backup ∧ _ ∧ stored = after := by simpa [hmade] using hbackup
    exact ⟨rfl, location, _, htarget, hstored⟩

/-- A new backup of a source stands beside it. -/
theorem ensureBackup_source {source : Location} (project : editing.Project root here)
    (heditable : IsEditable editing here editor.stamp.millis source)
    (hnew : ¬ editor.Has (.ofLocation source))
    (hbackup : editor.ensureBackup editing (.ofLocation source) = (.ok backup, editor', after)) :
    after.Project root here ∧ ∃ bytes,
      after.get? (backupPlace editor.stamp.millis source) = some (.file bytes) ∧
        after.find backup = .ok (backupPlace editor.stamp.millis source, .file bytes) := by
  obtain ⟨rfl, location, bytes, htarget, hstored⟩ := stored_of_ensureBackup hnew hbackup
  have hfound := hstored.find htarget
  obtain ⟨rfl, hhold⟩ := (target_backup project heditable).mp htarget
  exact ⟨project_stored_backup project heditable hhold hstored, bytes,
    (Disk.get?_of_find_file hfound).2, hfound⟩

/-- A link under the name of a new backup stays there. -/
theorem ensureBackup_link {target : String} (hnew : ¬ editor.Has path)
    (hlink : editing.get? place = some (.link target))
    (hbackup : editor.ensureBackup editing path = (.ok backup, editor', after)) :
    after.get? place = some (.link target) := by
  obtain ⟨-, location, bytes, htarget, hstored⟩ := stored_of_ensureBackup hnew hbackup
  exact hstored.keeps htarget _ _ hlink (by simp)

/-- Discovery goes into no directory that the settings exclude. -/
theorem not_mem_skippedDirs_of_isPruned {names : List String}
    (hexcluded : ∀ name ∈ Revert.skippedDirs, settings.excludesDir name = true)
    (hpruned : Disk.isPruned (isOutside root settings) root names = false) :
    ∀ name ∈ names.dropLast, name ∉ Revert.skippedDirs := by
  rw [← Revert.isPruned_skippedDirs_iff root, ← Bool.not_eq_true]
  intro hskipped
  have himp : ∀ path name, Revert.skippedDirs.contains name = true →
      isOutside root settings path name = true := by
    intro path name hname
    simp [isOutside, hexcluded name (List.contains_iff_mem.mp hname)]
  simp [Disk.isPruned_of_imp himp hskipped] at hpruned

/-- The backup that a run takes of a discovered stylesheet or script is visited, for
as long as its place stays as it is, exactly if no directory between the root and the
file is skipped when reverting and no link stood in its place. If the settings exclude
the skipped directories, only such a link keeps it from being visited. -/
theorem backup_visited_iff (project : disk.Project root here)
    (hsources : Sources.discover disk root settings = .ok sources)
    (hpath : path ∈ sources.stylesheets ∨ path ∈ sources.scripts)
    (hediting : editing.Project root here) (links : NoNewLinks disk editing) {millis : Int}
    (hstamp : Stamp.ofMillis? millis = some editor.stamp) (hnew : ¬ editor.Has path)
    (hbackup : editor.ensureBackup editing path = (.ok backup, editor', after)) :
    ∃ names place, (∀ name ∈ names, Path.IsName name) ∧ path = .ofLocation (here ++ names) ∧
      place = backupPlace editor.stamp.millis (here ++ names) ∧
      ((∀ target, editing.get? place ≠ some (.link target)) →
        after.Project root here ∧ ∃ bytes, after.find backup = .ok (place, .file bytes)) ∧
      ∀ last, last.Project root here → last.get? place = after.get? place →
        (Revert.Visits last root place ↔ (∀ name ∈ names.dropLast, name ∉ Revert.skippedDirs) ∧
          ∀ target, editing.get? place ≠ some (.link target)) ∧
          ((∀ name ∈ Revert.skippedDirs, settings.excludesDir name = true) →
            (Revert.Visits last root place ↔
              ∀ target, editing.get? place ≠ some (.link target))) := by
  obtain ⟨names, held, hfile, hpruned, rfl, hsource⟩ := mem_discovered project hsources hpath
  have hdirect := links.direct (project.tree.direct hfile (by simp))
  have hmade := fun hfree => ensureBackup_source hediting (hsource.isEditable hdirect hfree
    (fitsInName_of_ofMillis? hstamp) (endsWithDigit_of_ofMillis? hstamp)) hnew hbackup
  refine ⟨names, _, fun name hname => hsource.named name (List.mem_append_right _ hname), rfl, rfl,
    fun hfree => ?_, ?_⟩
  · obtain ⟨hafter, bytes, -, hfound⟩ := hmade hfree
    exact ⟨hafter, bytes, hfound⟩
  intro last hlast hplace
  obtain ⟨front, name, rfl⟩ := Path.exists_append_singleton (project.ne_nil_of_file hfile)
  -- A file stands under the name of the backup unless a link does.
  have hstands : (∃ bytes, last.get? (backupPlace editor.stamp.millis (here ++ (front ++ [name]))) =
        some (.file bytes)) ↔
      ∀ target, editing.get? (backupPlace editor.stamp.millis (here ++ (front ++ [name]))) ≠
        some (.link target) := by
    rw [hplace]
    constructor
    · rintro ⟨bytes, hfile⟩ target hlink
      cases (ensureBackup_link hnew hlink hbackup).symm.trans hfile
    · intro hfree
      obtain ⟨-, bytes, hfile, -⟩ := hmade hfree
      exact ⟨bytes, hfile⟩
  rw [backupPlace_below] at hstands ⊢
  have hvisits := Revert.visits_iff hlast (front ++ [backupName name editor.stamp.millis])
  rw [List.dropLast_concat, hstands, and_comm] at hvisits
  rw [List.dropLast_concat]
  refine ⟨hvisits, fun hexcluded => hvisits.trans (and_iff_right ?_)⟩
  have hskipped := not_mem_skippedDirs_of_isPruned hexcluded hpruned
  rwa [List.dropLast_concat] at hskipped

/-! ## A project with installed packages -/

/-- A stylesheet of the project, and one of a package. -/
def packageDisk : Disk where
  entries :=
    [(["css"], .directory),
      (["css", "site.css"], .file ".unused { color: red; }\n".toUTF8),
      (["node_modules"], .directory),
      (["node_modules", "site.css"], .file ".unused { color: red; }\n".toUTF8)]

theorem packageDisk_project : packageDisk.Project (.ofLocation []) [] :=
  .ofEntries (by decide) (by decide) (by simp [packageDisk])

theorem packageDisk_linkless (location : Location) (target : String) :
    packageDisk.get? location ≠ some (.link target) :=
  Disk.linkless_of_entries (by simp [packageDisk]) location target

/-- Settings that look into every directory. -/
def openSettings : Settings := { excludeDirs := [] }

/-- An editor at the beginning of a run. -/
def freshEditor : Editor := { stamp := ⟨"100", Stamp.isoText 100⟩ }

theorem not_has_freshEditor (path : Path) : ¬ freshEditor.Has path := by
  simp [Editor.has_iff, freshEditor]

section

variable {directory : String} (hdirectory : directory = "css" ∨ directory = "node_modules")

include hdirectory

theorem packageDisk_discovers :
    ∃ sources, Sources.discover packageDisk (.ofLocation []) openSettings = .ok sources ∧
      .ofLocation [directory, "site.css"] ∈ sources.stylesheets := by
  refine ⟨_, discover_eq packageDisk_project openSettings, ?_⟩
  simp only [Sources.ofFiles, List.mem_filter, mem_projectFiles_iff packageDisk_project]
  rcases hdirectory with rfl | rfl
  · exact ⟨⟨⟨["css", "site.css"], _, rfl, by decide +kernel, rfl⟩, by decide +kernel⟩,
      by decide +kernel⟩
  · exact ⟨⟨⟨["node_modules", "site.css"], _, rfl, by decide +kernel, rfl⟩, by decide +kernel⟩,
      by decide +kernel⟩

theorem isEditable_packageDisk :
    IsEditable packageDisk [] freshEditor.stamp.millis [directory, "site.css"] := by
  obtain ⟨sources, hsources, hsheet⟩ := packageDisk_discovers hdirectory
  obtain ⟨names, -, -, -, hsame, hsource⟩ :=
    mem_discovered packageDisk_project hsources (.inl hsheet)
  have hdigits : IsDigits freshEditor.stamp.millis := isDigits_toString 100
  rw [Path.ofLocation_inj ?_ hsource.named hsame]
  · exact hsource.isEditable (fun front _ => packageDisk_linkless front) (packageDisk_linkless _)
      hdigits.fitsInName hdigits.endsWithDigit
  · rcases hdirectory with rfl | rfl <;> decide

theorem packageDisk_backsUp :
    ∃ backup editor' after, freshEditor.ensureBackup packageDisk
      (.ofLocation [directory, "site.css"]) = (.ok backup, editor', after) := by
  have heditable := isEditable_packageDisk hdirectory
  have hfile : packageDisk.get? [directory, "site.css"] =
      some (.file ".unused { color: red; }\n".toUTF8) := by
    rcases hdirectory with rfl | rfl <;> rfl
  have hhold : packageDisk.CanHold (backupPlace freshEditor.stamp.millis
      [directory, "site.css"]) := by
    rcases hdirectory with rfl | rfl
    · exact ⟨by decide, by decide, by decide⟩
    · exact ⟨by decide, by decide, by decide⟩
  exact ⟨_, _, _, Editor.ensureBackup_calm rfl (not_has_freshEditor _)
    ((find_source packageDisk_project heditable.isSource heditable.direct).mpr ⟨rfl, hfile⟩)
    ((target_backup packageDisk_project heditable).mpr ⟨rfl, hhold⟩)
    (heditable.isSource.backupPlace_ne _)⟩

end

/-- Packages that are scanned are not seen when reverting. -/
theorem package_backup_not_visited :
    ∃ sources backup editor' after place bytes,
      Sources.discover packageDisk (.ofLocation []) openSettings = .ok sources ∧
        .ofLocation ["node_modules", "site.css"] ∈ sources.stylesheets ∧
        freshEditor.ensureBackup packageDisk (.ofLocation ["node_modules", "site.css"]) =
          (.ok backup, editor', after) ∧
        after.find backup = .ok (place, .file bytes) ∧
        ¬ Revert.Visits after (.ofLocation []) place := by
  obtain ⟨sources, hsources, hsheet⟩ := packageDisk_discovers (.inr rfl)
  obtain ⟨backup, editor', after, hbackup⟩ := packageDisk_backsUp (.inr rfl)
  obtain ⟨hafter, bytes, hplace, hfound⟩ := ensureBackup_source packageDisk_project
    (isEditable_packageDisk (.inr rfl)) (not_has_freshEditor _) hbackup
  refine ⟨sources, backup, editor', after, _, bytes, hsources, hsheet, hbackup, hfound, ?_⟩
  intro hvisited
  have hskipped : ∀ name ∈ ["node_modules", "site.css.bak.100"].dropLast, name ∉ Revert.skippedDirs :=
    ((Revert.visits_iff hafter ["node_modules", "site.css.bak.100"]).mp hvisited).2
  exact absurd hskipped (by decide)

theorem backup_visited_iff_css :
    ∃ backup editor' after place,
      freshEditor.ensureBackup packageDisk (.ofLocation ["css", "site.css"]) =
          (.ok backup, editor', after) ∧
        (∃ bytes, after.find backup = .ok (place, .file bytes)) ∧
        Revert.Visits after (.ofLocation []) place := by
  obtain ⟨sources, hsources, hsheet⟩ := packageDisk_discovers (.inl rfl)
  obtain ⟨backup, editor', after, hbackup⟩ := packageDisk_backsUp (.inl rfl)
  obtain ⟨names, place, hnames, hsame, -, hmade, hvisits⟩ :=
    backup_visited_iff packageDisk_project hsources (.inl hsheet) packageDisk_project
      (fun _ _ => id) (show Stamp.ofMillis? 100 = some freshEditor.stamp from rfl)
      (not_has_freshEditor _) hbackup
  obtain ⟨hafter, hfound⟩ := hmade (packageDisk_linkless _)
  obtain rfl := Path.ofLocation_inj (by decide) hnames hsame
  exact ⟨backup, editor', after, place, hbackup, hfound,
    (hvisits after hafter rfl).1.mpr ⟨by decide, packageDisk_linkless _⟩⟩

end Deadwood
