/-
# Restoring from backups

Reverting finds backups by walking below the root, selects some, and copies them
back one after the other. In a project without trouble the last selected backup of a
source decides what it holds, and everything else is as it was.

Backups are not looked for in some directories, nor under names with line breaks, so
not every source with a backup gets back what that holds.
-/

import Deadwood.Proofs.Disk.Project
import Deadwood.Proofs.Fix.Edits
import Deadwood.Proofs.Repeat

namespace Deadwood.Revert

open Deadwood.Fix
open Deadwood.Path (IsName)

variable {disk : Disk} {root : Path} {here source : Location} {backup : Backup}
  {backups : List Backup} {bytes : ByteArray} {stamp : String}

/-! ## Finding backups -/

/-- A file whose backups are looked for: no line break in its names, and no
directory on the way that is skipped. -/
def IsReachable (here source : Location) : Prop :=
  ∀ names, source = here ++ names → (∀ name ∈ names, '\n' ∉ name.toList) ∧
    ∀ name ∈ names.dropLast, name ∉ skippedDirs

theorem isPruned_skippedDirs_iff (root : Path) {names : List String} :
    Disk.isPruned (fun _ name => skippedDirs.contains name) root names = false ↔
      ∀ name ∈ names.dropLast, name ∉ skippedDirs := by
  rw [Disk.isPruned_names]
  simp

/-- In a project, backups and their originals stand below its directory. -/
theorem exists_of_stands (project : disk.Project root here)
    (hbackup : backup ∈ findBackups disk root) (hstands : Stands disk backup source bytes) :
    ∃ front own, source = here ++ (front ++ [own]) ∧
      ReadsAsBackup (backupName own backup.stamp) ∧
      disk.get? (here ++ (front ++ [backupName own backup.stamp])) = some (.file bytes) := by
  obtain ⟨inner, own, held, kept⟩ := exists_kept project.tree hbackup
  obtain ⟨rfl, rfl⟩ := hstands.unique kept.stands
  obtain ⟨names, held, hfile, -, hpath⟩ :=
    project.mem_filesBelow_iff.mp (walked_of_mem_findBackups hbackup).1
  have hne := project.ne_nil_of_file hfile
  have hfound := kept.found
  rw [hpath, project.tree.place_down project.rooted hne hfile false] at hfound
  obtain ⟨front, name, rfl⟩ := Path.exists_append_singleton hne
  rw [← List.append_assoc] at hfound hfile
  obtain ⟨⟨rfl, rfl⟩, rfl⟩ : (here ++ front = inner ∧ name = backupName own backup.stamp) ∧
      held = bytes := by simpa [-List.append_assoc] using hfound
  refine ⟨front, own, List.append_assoc _ _ _, kept.reads, ?_⟩
  rwa [← List.append_assoc]

/-- A backup of a file that can be reached is found. -/
theorem exists_mem_findBackups (project : disk.Project root here) (his : IsSource here source)
    (hreachable : IsReachable here source) (hdigits : IsDigits stamp)
    (hfile : disk.get? (backupPlace stamp source) = some (.file bytes)) :
    ∃ backup ∈ findBackups disk root, Stands disk backup source bytes ∧ backup.stamp = stamp := by
  have hnamed := his.named
  obtain ⟨front, own, rfl, -, -⟩ := id his
  obtain ⟨hbreak, hdirs⟩ := hreachable _ rfl
  have hplace := backupPlace_below stamp own here front
  rw [hplace] at hfile
  have hnames : ∀ part ∈ front ++ [backupName own stamp], IsName part := fun part hpart =>
    project.tree.named_of_mem hfile part (List.mem_append_right _ hpart)
  have hname := (Path.isBelow_down project.noZero_root (by simp) hnames).name? (hnames _ (by simp))
  let path := root.down (front ++ [backupName own stamp])
  let backup : Backup := ⟨path, path.withName own, stamp⟩
  refine ⟨backup, ?_, ⟨by simp, ?_⟩, rfl⟩
  · apply List.mem_filterMap.mpr
    refine ⟨path, project.mem_filesBelow_iff.mpr ⟨_, bytes, hfile, ?_, rfl⟩,
      ofPath?_eq_some_iff.mpr ⟨own, (hnamed own (by simp)).notEmpty, hbreak own (by simp), hdigits,
        hname, rfl, rfl⟩⟩
    rw [isPruned_skippedDirs_iff]
    simpa using hdirs
  · rw [hplace]
    exact project.tree.place_down project.rooted (by simp) hfile false

/-! ## Copying backups back -/

theorem mem_select_digits (hdigits : IsDigits stamp) :
    backup ∈ select stamp backups ↔ backup ∈ backups ∧ backup.stamp = stamp := by
  have hne : stamp ≠ allRuns := by
    rintro rfl
    exact absurd (hdigits.decimal 'a' (by decide)) (by decide)
  rw [mem_select, or_iff_right hne]

/-- Splits a list at the first element that has a property. -/
theorem exists_first {α : Type _} {P : α → Prop} {items : List α} (hex : ∃ item ∈ items, P item) :
    ∃ front item back, items = front ++ item :: back ∧ (∀ other ∈ front, ¬ P other) ∧ P item := by
  classical
  have hfind : (items.find? fun item => decide (P item)).isSome := by simpa using hex
  obtain ⟨item, hitem⟩ := Option.isSome_iff_exists.mp hfind
  obtain ⟨hholds, front, back, hsplit, hfront⟩ := List.find?_eq_some_iff_append.mp hitem
  exact ⟨front, item, back, hsplit, by simpa using hfront, by simpa using hholds⟩

/-- If the selected backups are those of sources in whose place no link stands, a revert
without trouble keeps all other files, and a source with such backups holds what the last
of them holds, unless a directory has taken its place. -/
theorem get?_run_sources (project : disk.Project root here) (hcalm : disk.Calm)
    (hsources : ∀ backup ∈ select stamp (findBackups disk root), ∀ source bytes,
      Stands disk backup source bytes →
        IsSource here source ∧ ∀ target, disk.get? source ≠ some (.link target)) :
    (∀ location, (∀ backup ∈ select stamp (findBackups disk root), ∀ bytes,
          ¬ Stands disk backup location bytes) →
        (run disk root stamp).2.get? location = disk.get? location) ∧
      ∀ source, disk.get? source ≠ some .directory →
        (∃ backup ∈ select stamp (findBackups disk root), ∃ bytes,
          Stands disk backup source bytes) →
        ∃ front backup back bytes,
          select stamp (findBackups disk root) = front ++ backup :: back ∧
          Stands disk backup source bytes ∧
          (∀ later ∈ back, ∀ held, ¬ Stands disk later source held) ∧
          (run disk root stamp).2.get? source = some (.file bytes) := by
  have hclear : AllClear disk (select stamp (findBackups disk root)) := by
    intro backup hbackup
    have hfound := (mem_select.mp hbackup).1
    obtain ⟨inner, own, bytes, kept⟩ := exists_kept project.tree hfound
    obtain ⟨hsource, hlink⟩ := hsources backup hbackup _ _ kept.stands
    refine ⟨⟨inner, own, bytes, kept⟩, kept.clear project.tree (isDigits_of_mem_findBackups hfound)
      (hsource.named own (by simp)) (fun hreads => ?_) hlink⟩
    obtain ⟨other, digits, -, -, hdigits, rfl⟩ := readsAsBackup_iff.mp hreads
    exact hsource.ne_backupName hdigits.endsWithDigit inner other rfl
  refine ⟨fun location => get?_run_of_not_stands project.tree hclear, fun source hfree hsome => ?_⟩
  have hreverse : ∃ backup ∈ (select stamp (findBackups disk root)).reverse, ∃ bytes,
      Stands disk backup source bytes := by simpa using hsome
  obtain ⟨back, last, front, hsplit, hback, bytes, hstands⟩ := exists_first hreverse
  rw [List.reverse_eq_append_iff, List.reverse_cons, List.append_assoc] at hsplit
  have hlast : ∀ later ∈ back.reverse, ∀ held, ¬ Stands disk later source held :=
    fun later hlater held hstands => hback later (List.mem_reverse.mp hlater) ⟨held, hstands⟩
  refine ⟨front.reverse, last, back.reverse, bytes, hsplit, hstands, hlast, ?_⟩
  have hnamed := (hsources last (by simp [hsplit]) source bytes hstands).1.named
  obtain ⟨inner, own, rfl⟩ := Path.exists_append_singleton hstands.1
  exact get?_run_of_last project.tree hcalm hclear hsplit hstands (hnamed own (by simp)) hfree hlast

end Deadwood.Revert
