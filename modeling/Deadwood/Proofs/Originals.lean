/-
# Backups and their originals

A backup is found by its name alone, wherever it stands below the root. So two disks that
are laid out alike and hold the same under all names of backups have the same backups
found on them, whatever their other files hold.

An original is written beside its backup under the name in front of the mark, unless a
directory or a link stands there.
-/

import Deadwood.Proofs.Disk.Outline
import Deadwood.Proofs.Fix.Naming
import Deadwood.Revert

namespace Deadwood.Revert

open Deadwood.Fix
open Deadwood.Path (IsName)
open Disk (SameOutline)

variable {disk other : Disk} {root path : Path} {here inner location : Location}
  {own name : String} {bytes : ByteArray} {backup : Backup}

/-! ## Disks with the same backups -/

/-- Two disks of one outline that hold the same under all names of backups. -/
structure SameBackups (disk other : Disk) : Prop extends SameOutline disk other where
  held : ∀ inner name, ReadsAsBackup name →
    other.get? (inner ++ [name]) = disk.get? (inner ++ [name])

namespace SameBackups

theorem refl (disk : Disk) : SameBackups disk disk :=
  ⟨.refl disk, fun _ _ _ => rfl⟩

theorem symm (same : SameBackups disk other) : SameBackups other disk :=
  ⟨same.toSameOutline.symm, fun inner name hreads => (same.held inner name hreads).symm⟩

theorem trans {middle : Disk} (first : SameBackups disk middle) (second : SameBackups middle other) :
    SameBackups disk other :=
  ⟨first.toSameOutline.trans second.toSameOutline, fun inner name hreads =>
    (second.held inner name hreads).trans (first.held inner name hreads)⟩

theorem of_alike (halike : Disk.Alike disk other) : SameBackups disk other :=
  ⟨.of_alike halike, fun inner name _ => halike.get? (inner ++ [name])⟩

/-- A file under another name changes no backup. -/
theorem put (hname : ¬ ReadsAsBackup name)
    (hfree : disk.get? (inner ++ [name]) = none ∨
      ∃ old, disk.get? (inner ++ [name]) = some (.file old)) :
    SameBackups disk (disk.put (inner ++ [name]) (.file bytes)) := by
  refine ⟨.put (by simp) hfree, fun inner' other hreads => ?_⟩
  rw [Disk.get?_put_of_ne (by simp)]
  intro hsame
  obtain ⟨-, rfl⟩ : inner' = inner ∧ other = name := by simpa using hsame
  exact hname hreads

/-- A backup is found on both. -/
theorem place_file (same : SameBackups disk other) (hname : path.name? = some name)
    (hreads : ReadsAsBackup name)
    (hplace : disk.place path false = .ok (.found location (.file bytes))) :
    other.place path false = .ok (.found location (.file bytes)) := by
  obtain ⟨front, last, rfl, hlast⟩ := Disk.exists_name_of_place_file hplace
  obtain rfl : name = last := Option.some.inj (hname.symm.trans hlast)
  refine same.toSameOutline.place_file hplace ?_
  rw [same.held _ _ hreads]
  exact (Disk.get?_of_lookUp_file (Disk.place_eq_ok_iff.mp hplace).2.2).2

end SameBackups

theorem readsAsBackup_of_ofPath? (hbackup : Backup.ofPath? path = some backup) :
    ∃ name, path.name? = some name ∧ ReadsAsBackup name := by
  obtain ⟨name, hname, hparts⟩ := Option.bind_eq_some_iff.mp hbackup
  obtain ⟨parts, hparts, -⟩ := Option.map_eq_some_iff.mp hparts
  exact ⟨name, hname, Option.isSome_of_eq_some hparts⟩

/-- The backup that an entry of the table is, as it is found from a root. -/
def backupAt? (root : Path) (here : Location) : Location × Entry → Option Backup
  | (location, .file _) =>
    if here.isPrefixOf location && here.length < location.length then
      if Disk.isPruned (fun _ name => skippedDirs.contains name) root
        (location.drop here.length) then none
      else Backup.ofPath? (root.down (location.drop here.length))
    else none
  | _ => none

theorem findBackups_eq (hroot : disk.find root = .ok (here, .directory)) :
    findBackups disk root = disk.entries.filterMap (backupAt? root here) := by
  rw [findBackups, Disk.filesBelow, Disk.walk_eq hroot, Disk.below, List.filterMap_map,
    List.filter_filterMap, List.filterMap_filterMap, List.filterMap_filterMap]
  apply List.filterMap_congr
  rintro ⟨location, entry⟩ -
  dsimp only
  by_cases hbelow : here.isPrefixOf location && here.length < location.length
  · rw [if_pos hbelow, Option.filter_some]
    cases entry with
    | file bytes =>
      rw [backupAt?, if_pos hbelow]
      cases Disk.isPruned (fun _ name => skippedDirs.contains name) root
        (location.drop here.length) <;> rfl
    | directory => split <;> rfl
    | link target => split <;> rfl
  · rw [if_neg hbelow]
    cases entry with
    | file bytes => rw [backupAt?, if_neg hbelow]; rfl
    | directory => rfl
    | link target => rfl

/-- Whether the last name of a location is read as that of a backup. -/
def isNamedAsBackup (location : Location) : Bool :=
  location.getLast?.any fun name => (backupParts? name.toList).isSome

theorem isNamedAsBackup_append_iff :
    isNamedAsBackup (inner ++ [name]) = true ↔ ReadsAsBackup name := by
  simp [isNamedAsBackup, ReadsAsBackup]

/-- All that is found as a backup is named as one. -/
theorem isNamedAsBackup_of_backupAt? (tree : disk.IsTree) (hzero : root.NoZero)
    {item : Location × Entry} (hitem : item ∈ disk.entries)
    (hbackup : backupAt? root here item = some backup) : isNamedAsBackup item.1 = true := by
  obtain ⟨location, entry⟩ := item
  obtain ⟨-, hentry⟩ := tree.mem_entries_iff.mp hitem
  cases entry with
  | directory => simp [backupAt?] at hbackup
  | link target => simp [backupAt?] at hbackup
  | file bytes =>
    rw [backupAt?] at hbackup
    split at hbackup
    · rename_i hbelow
      simp only [Bool.and_eq_true, List.isPrefixOf_iff_prefix, decide_eq_true_eq] at hbelow
      obtain ⟨⟨names, rfl⟩, hlength⟩ := hbelow
      rw [List.drop_left] at hbackup
      split at hbackup
      · simp at hbackup
      have hne : names ≠ [] := by
        rintro rfl
        simp at hlength
      have hnames : ∀ name ∈ names, IsName name := fun name hname =>
        tree.named_of_mem hentry name (List.mem_append_right _ hname)
      have hbelow := Path.isBelow_down hzero hne hnames
      obtain ⟨front, name, rfl⟩ := Path.exists_append_singleton hne
      obtain ⟨last, hlast, hreads⟩ := readsAsBackup_of_ofPath? hbackup
      obtain rfl : name = last :=
        Option.some.inj ((hbelow.name? (hnames name (by simp))).symm.trans hlast)
      dsimp only
      rw [← List.append_assoc]
      exact isNamedAsBackup_append_iff.mpr hreads
    · simp at hbackup

/-- From a root that leads to a directory, only what is named as a backup counts. -/
private theorem findBackups_eq_filter (tree : disk.IsTree)
    (hroot : disk.find root = .ok (here, .directory)) :
    findBackups disk root =
      (disk.entries.filter (isNamedAsBackup ·.1)).filterMap (backupAt? root here) := by
  rw [findBackups_eq hroot, List.filterMap_filter]
  apply List.filterMap_congr
  intro item hitem
  split
  · rfl
  · rename_i hnot
    cases hbackup : backupAt? root here item with
    | none => rfl
    | some backup =>
      exact absurd (isNamedAsBackup_of_backupAt? tree (Disk.noZero_of_find_directory hroot) hitem
        hbackup) hnot

/-- If a root is a file, only the root itself can be a backup. -/
private theorem findBackups_of_file
    (hfile : disk.place root false = .ok (.found location (.file bytes))) :
    findBackups disk root = (Backup.ofPath? root).toList := by
  rw [findBackups, Disk.filesBelow_of_file hfile]
  cases hbackup : Backup.ofPath? root <;> simp [hbackup]

private theorem findBackups_of_neither
    (hdirectory : ∀ here, disk.find root ≠ .ok (here, .directory))
    (hfile : ∀ location bytes, disk.place root false ≠ .ok (.found location (.file bytes))) :
    findBackups disk root = [] := by
  rw [findBackups, Disk.filesBelow_of_neither hdirectory hfile]
  rfl

private theorem findBackups_congr_of_file (same : SameBackups disk other)
    (hdirectory : ∀ here, other.find root ≠ .ok (here, .directory))
    (hfile : disk.place root false = .ok (.found location (.file bytes))) :
    findBackups other root = findBackups disk root := by
  rw [findBackups_of_file hfile]
  cases hbackup : Backup.ofPath? root with
  | some backup =>
    obtain ⟨name, hname, hreads⟩ := readsAsBackup_of_ofPath? hbackup
    rw [findBackups_of_file (same.place_file hname hreads hfile), hbackup]
  | none =>
    by_cases hother : ∃ location bytes, other.place root false = .ok (.found location (.file bytes))
    · obtain ⟨location, bytes, hother⟩ := hother
      rw [findBackups_of_file hother, hbackup]
    · simp only [not_exists] at hother
      rw [findBackups_of_neither hdirectory hother]
      rfl

/-- Disks with the same backups have the same found. -/
theorem findBackups_congr (tree : disk.IsTree) (htree : other.IsTree) (same : SameBackups disk other)
    (root : Path) : findBackups other root = findBackups disk root := by
  by_cases hdirectory : ∃ here, disk.find root = .ok (here, .directory)
  · obtain ⟨here, hroot⟩ := hdirectory
    rw [findBackups_eq_filter tree hroot,
      findBackups_eq_filter htree (same.toSameOutline.find_directory hroot),
      tree.filter_entries htree isNamedAsBackup]
    intro location hnamed
    by_cases hne : location = []
    · subst hne
      simp [isNamedAsBackup] at hnamed
    · obtain ⟨front, name, rfl⟩ := Path.exists_append_singleton hne
      exact same.held front name (isNamedAsBackup_append_iff.mp hnamed)
  rw [not_exists] at hdirectory
  have hother : ∀ here, other.find root ≠ .ok (here, .directory) := fun here hroot =>
    hdirectory here (same.toSameOutline.symm.find_directory hroot)
  by_cases hfile : ∃ location bytes, disk.place root false = .ok (.found location (.file bytes))
  · obtain ⟨location, bytes, hfile⟩ := hfile
    exact findBackups_congr_of_file same hother hfile
  by_cases hfile' : ∃ location bytes, other.place root false = .ok (.found location (.file bytes))
  · obtain ⟨location, bytes, hfile'⟩ := hfile'
    exact (findBackups_congr_of_file same.symm hdirectory hfile').symm
  simp only [not_exists] at hfile hfile'
  rw [findBackups_of_neither hdirectory hfile, findBackups_of_neither hother hfile']

/-! ## Backups and their originals -/

/-- A backup that was found, in its directory. -/
structure Kept (disk : Disk) (backup : Backup) (inner : Location) (own : String)
    (bytes : ByteArray) : Prop where
  reads : ReadsAsBackup (backupName own backup.stamp)
  named : backup.path.name? = some (backupName own backup.stamp)
  source : backup.source = backup.path.withName own
  names : disk.NamesIn backup.path inner (backupName own backup.stamp)
  found : disk.place backup.path false =
    .ok (.found (inner ++ [backupName own backup.stamp]) (.file bytes))

theorem walked_of_mem_findBackups (hbackup : backup ∈ findBackups disk root) :
    backup.path ∈ disk.filesBelow root (fun _ name => skippedDirs.contains name) ∧
      Backup.ofPath? backup.path = some backup := by
  obtain ⟨path, hpath, hof⟩ := List.mem_filterMap.mp hbackup
  obtain ⟨name, -, hmap⟩ := Option.bind_eq_some_iff.mp hof
  obtain ⟨parts, -, rfl⟩ := Option.map_eq_some_iff.mp hmap
  exact ⟨hpath, hof⟩

/-- A backup is told by its path. -/
theorem eq_of_path_eq {first second : Backup} (hfirst : first ∈ findBackups disk root)
    (hsecond : second ∈ findBackups disk root) (hpath : first.path = second.path) :
    first = second := by
  have hsame := (walked_of_mem_findBackups hsecond).2
  rw [← hpath, (walked_of_mem_findBackups hfirst).2] at hsame
  exact Option.some.inj hsame

theorem exists_kept (tree : disk.IsTree) (hbackup : backup ∈ findBackups disk root) :
    ∃ inner own bytes, Kept disk backup inner own bytes := by
  obtain ⟨hwalked, hof⟩ := walked_of_mem_findBackups hbackup
  obtain ⟨own, hown, hbreak, hdigits, hname, -, hsource⟩ := ofPath?_eq_some_iff.mp hof
  obtain ⟨location, bytes, hplace, -⟩ := tree.place_of_mem_filesBelow hwalked
  obtain ⟨inner, last, hnames, hlast⟩ :=
    Disk.exists_namesIn_of_target (Disk.target_of_find_file (Disk.find_of_place_file hplace))
  obtain rfl := Option.some.inj (hlast.symm.trans hname)
  obtain rfl := hnames.eq_of_place_file hplace
  exact ⟨inner, own, bytes, readsAsBackup_iff.mpr ⟨own, _, hown, hbreak, hdigits, rfl⟩, hname,
    hsource, hnames, hplace⟩

theorem isDigits_of_mem_findBackups (hbackup : backup ∈ findBackups disk root) :
    IsDigits backup.stamp := by
  obtain ⟨-, -, -, hdigits, -⟩ :=
    ofPath?_eq_some_iff.mp (walked_of_mem_findBackups hbackup).2
  exact hdigits

namespace Kept

theorem get? (kept : Kept disk backup inner own bytes) :
    disk.get? (inner ++ [backupName own backup.stamp]) = some (.file bytes) :=
  (Disk.get?_of_lookUp_file (Disk.place_eq_ok_iff.mp kept.found).2.2).2

/-- A name in front of the mark is shorter than that of the backup. -/
theorem fits_own (tree : disk.IsTree) (kept : Kept disk backup inner own bytes) :
    own.utf8ByteSize ≤ 255 := by
  have hfits := (tree.named _ _ kept.get? (backupName own backup.stamp) (by simp)).2
  simp only [backupName, String.utf8ByteSize_append] at hfits
  omega

/-- The original is looked up beside the backup, if its name is one. -/
theorem exists_place_source (kept : Kept disk backup inner own bytes) (hown : IsName own) :
    ∃ left, ∀ follow,
      disk.place backup.source follow = Disk.lookUp disk follow left inner [own] := by
  have hzero := Path.noZero_of_any_eq_false (Disk.place_eq_ok_iff.mp kept.found).2.1
  rw [kept.source]
  exact (kept.names.withName hown).exists_place (kept.names.noZero_withName hzero hown)

/-- Nothing can be written over an original whose name is none. -/
theorem isName_of_target (kept : Kept disk backup inner own bytes)
    (htarget : disk.target backup.source = .ok location) : IsName own := by
  obtain ⟨inner', last, hnames, -⟩ := Disk.exists_namesIn_of_target htarget
  have hslash : '/' ∉ own.toList := by
    intro hmem
    apply kept.names.isName.noSlash
    simp [toList_backupName, hmem]
  have hlast := hnames.last
  rw [kept.source, kept.names.last_withName hslash] at hlast
  rw [Option.some.inj hlast]
  exact hnames.isName

end Kept

/-- An original that is not itself named as a backup, and no link. -/
structure Clear (disk : Disk) (backup : Backup) : Prop where
  named : ∀ own, backup.path.name? = some (backupName own backup.stamp) → ¬ ReadsAsBackup own
  noLink : ∀ location target, disk.place backup.source false ≠ .ok (.found location (.link target))

theorem Kept.clear (tree : disk.IsTree) (kept : Kept disk backup inner own bytes)
    (hdigits : IsDigits backup.stamp) (hown : IsName own) (hreads : ¬ ReadsAsBackup own)
    (hlink : ∀ target, disk.get? (inner ++ [own]) ≠ some (.link target)) : Clear disk backup where
  named other hother := by
    obtain ⟨rfl, -⟩ :=
      backupName_inj hdigits hdigits (Option.some.inj (kept.named.symm.trans hother))
    exact hreads
  noLink location target hplace := by
    obtain ⟨left, hleft⟩ := kept.exists_place_source hown
    rw [hleft, Disk.lookUp_cons_name hown.not_isIdle hown.notUp,
      if_neg (Nat.not_lt.mpr (kept.fits_own tree))] at hplace
    rcases hentry : disk.get? (inner ++ [own]) with _ | _ | _ | inner
    · simp [hentry] at hplace
    · simp [hentry] at hplace
    · simp [hentry, Disk.lookUp_nil] at hplace
    · exact hlink inner hentry

/-- Where such an original is written: beside the backup under its own name, unless a
directory stands there. -/
theorem Kept.target_iff (tree : disk.IsTree) (kept : Kept disk backup inner own bytes)
    (clear : Clear disk backup) :
    disk.target backup.source = .ok location ↔
      IsName own ∧ location = inner ++ [own] ∧ disk.get? location ≠ some .directory := by
  have hlink : IsName own → ∀ target, disk.get? (inner ++ [own]) ≠ some (.link target) := by
    intro hown target hlink
    obtain ⟨left, hleft⟩ := kept.exists_place_source hown
    apply clear.noLink (inner ++ [own]) target
    rw [hleft, Disk.lookUp_cons_name hown.not_isIdle hown.notUp,
      if_neg (Nat.not_lt.mpr (kept.fits_own tree))]
    simp [hlink]
  constructor
  · intro htarget
    have hown := kept.isName_of_target htarget
    have hnames : disk.NamesIn backup.source inner own := kept.source ▸ kept.names.withName hown
    refine ⟨hown, hnames.target (hlink hown) htarget, ?_⟩
    rcases (Disk.get?_of_target htarget).2 with hnone | ⟨old, hfile⟩
    · simp [hnone]
    · simp [hfile]
  · rintro ⟨hown, rfl, hfree⟩
    obtain ⟨left, hleft⟩ := kept.exists_place_source hown
    rw [Disk.target_eq_ok_iff_place, hleft, Disk.lookUp_cons_name hown.not_isIdle hown.notUp,
      if_neg (Nat.not_lt.mpr (kept.fits_own tree))]
    cases hentry : disk.get? (inner ++ [own]) with
    | none => simp
    | some entry =>
      cases entry with
      | file old => simp
      | directory => exact absurd hentry hfree
      | link target => exact absurd hentry (hlink hown target)

end Deadwood.Revert
