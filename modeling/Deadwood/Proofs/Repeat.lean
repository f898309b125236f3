/-
# Reverting again

A revert copies backups over the originals beside them. As long as no original is itself
named as a backup, and none is a link, nothing but these originals changes: the backups
stay as they are. So a second revert finds the same backups, copies the same bytes to
the same places, and leaves the disk as it found it.

This holds on every tree, whatever links stand elsewhere and whatever the copies run
into.
-/

import Deadwood.Proofs.Originals

namespace Deadwood.Revert

open Deadwood.Fix
open Deadwood.Path (IsName)

variable {disk other : Disk} {root : Path} {inner location : Location} {own : String}
  {bytes : ByteArray} {backup : Backup} {backups : List Backup}

/-! ## What is copied where -/

/-- Where a backup is copied to, if nothing stands in the way. -/
def landing? (disk : Disk) (trouble : Option (Option DiskError)) (backup : Backup) :
    Option Location :=
  if trouble.join.isSome then none else (disk.target backup.source).toOption

/-- The backups that are copied, in order, and where they are copied to. -/
def landings (disk : Disk) : List (Option DiskError) → List Backup → List (Backup × Location)
  | _, [] => []
  | troubles, backup :: others =>
    match landing? disk troubles.head? backup with
    | some location => (backup, location) :: landings disk troubles.tail others
    | none => landings disk troubles.tail others

/-- The bytes of a backup. -/
def heldIn (disk : Disk) (backup : Backup) : ByteArray :=
  (disk.read backup.path).toOption.getD .empty

/-- What is written where, when the backups are copied. -/
def writes (disk : Disk) (troubles : List (Option DiskError)) (backups : List Backup) :
    List (Location × ByteArray) :=
  (landings disk troubles backups).map fun (backup, location) => (location, heldIn disk backup)

theorem Kept.heldIn_eq (kept : Kept disk backup inner own bytes) : heldIn disk backup = bytes := by
  rw [heldIn, Disk.read, Disk.find_of_place_file kept.found]
  rfl

theorem sublist_landings (disk : Disk) (troubles : List (Option DiskError))
    (backups : List Backup) : ((landings disk troubles backups).map (·.1)).Sublist backups := by
  induction backups generalizing troubles with
  | nil => exact .slnil
  | cons backup others ih =>
    rw [landings]
    split
    · exact (ih troubles.tail).cons_cons backup
    · exact (ih troubles.tail).cons backup

theorem target_of_landing? {trouble : Option (Option DiskError)}
    (hlanding : landing? disk trouble backup = some location) :
    disk.target backup.source = .ok location := by
  unfold landing? at hlanding
  split at hlanding
  · simp at hlanding
  · cases htarget : disk.target backup.source with
    | error error => simp [htarget, Except.toOption] at hlanding
    | ok place => simpa [htarget, Except.toOption] using hlanding

theorem mem_landings {troubles : List (Option DiskError)}
    (hlanding : (backup, location) ∈ landings disk troubles backups) :
    backup ∈ backups ∧ disk.target backup.source = .ok location := by
  induction backups generalizing troubles with
  | nil => simp [landings] at hlanding
  | cons first others ih =>
    rw [landings] at hlanding
    split at hlanding
    · rename_i place hplace
      rcases List.mem_cons.mp hlanding with hsame | hlater
      · obtain ⟨rfl, rfl⟩ := Prod.mk.inj hsame
        exact ⟨List.mem_cons_self, target_of_landing? hplace⟩
      · exact (ih hlater).imp_left (List.mem_cons_of_mem first)
    · exact (ih hlanding).imp_left (List.mem_cons_of_mem first)

/-- Without trouble all backups are copied whose originals can be written. -/
theorem landings_calm (disk : Disk) (backups : List Backup) :
    landings disk [] backups =
      backups.filterMap fun backup => (disk.target backup.source).toOption.map (backup, ·) := by
  induction backups with
  | nil => rfl
  | cons first others ih =>
    have hlanding : landing? disk ([] : List (Option DiskError)).head? first =
        (disk.target first.source).toOption := rfl
    rw [landings, List.tail_nil, ih, List.filterMap_cons, hlanding]
    cases (disk.target first.source).toOption <;> rfl

/-- What is copied back on a disk with the same backups. -/
theorem copy_eq (tree : disk.IsTree) (kept : Kept disk backup inner own bytes)
    (clear : Clear disk backup) (same : SameBackups disk other) :
    ∃ error, other.copy backup.path backup.source =
      match landing? disk other.troubles.head? backup with
      | some location =>
        (none, { other with troubles := other.troubles.tail }.put location (.file bytes))
      | none => (some error, { other with troubles := other.troubles.tail }) := by
  have halike : Disk.Alike other { other with troubles := other.troubles.tail } := ⟨rfl, rfl⟩
  have hfind := Disk.find_of_place_file (same.place_file kept.named kept.reads kept.found)
  rw [Disk.copy, Disk.attempt]
  cases htrouble : other.troubles.head?.join with
  | some error => exact ⟨error, by simp [landing?, htrouble]⟩
  | none =>
    dsimp only
    rw [halike.find, halike.target, hfind]
    cases htarget : disk.target backup.source with
    | ok location =>
      obtain ⟨-, rfl, -⟩ := (kept.target_iff tree clear).mp htarget
      have hapart : inner ++ [own] ≠ inner ++ [backupName own backup.stamp] := by
        intro hsame
        have hown : own = backupName own backup.stamp := by simpa using hsame
        exact clear.named own kept.named (hown ▸ kept.reads)
      refine ⟨.notFound, ?_⟩
      simp [landing?, htrouble, htarget, same.toSameOutline.target htarget, Except.toOption, bind,
        Except.bind, Except.map, Disk.copied_of_ne hapart]
    | error error =>
      cases hother : other.target backup.source with
      | ok location => simp [same.toSameOutline.symm.target hother] at htarget
      | error failure =>
        refine ⟨failure, ?_⟩
        simp [landing?, htrouble, htarget, Except.toOption, bind, Except.bind, Except.map]

/-- The entry that is listed for a backup that was copied back. -/
def Restored.ofBackup (backup : Backup) : Restored :=
  ⟨backup.path, backup.source⟩

/-- Backups that were found and whose originals are clear. -/
def AllClear (disk : Disk) (backups : List Backup) : Prop :=
  ∀ backup ∈ backups, (∃ inner own bytes, Kept disk backup inner own bytes) ∧ Clear disk backup

/-- Copying back comes to writing what the backups hold over the originals, the same on
all disks with these backups. -/
theorem restore_eq (tree : disk.IsTree) (hclear : AllClear disk backups)
    (same : SameBackups disk other) :
    restore other backups =
      ((landings disk other.troubles backups).map (.ofBackup ·.1),
        { other with troubles := other.troubles.drop backups.length }.putAll
          (writes disk other.troubles backups)) := by
  induction backups generalizing other with
  | nil => rfl
  | cons backup others ih =>
    obtain ⟨⟨inner, own, bytes, kept⟩, clear⟩ := hclear backup List.mem_cons_self
    have hothers : AllClear disk others := fun other hother =>
      hclear other (List.mem_cons_of_mem _ hother)
    obtain ⟨error, hcopy⟩ := copy_eq tree kept clear same
    have hbehind : SameBackups disk { other with troubles := other.troubles.tail } :=
      same.trans (.of_alike ⟨rfl, rfl⟩)
    rw [restore, hcopy, writes, landings]
    cases hlanding : landing? disk other.troubles.head? backup with
    | none =>
      dsimp only
      rw [ih hothers hbehind, writes, List.drop_tail, List.length_cons]
    | some location =>
      have htarget := target_of_landing? hlanding
      obtain ⟨-, rfl, -⟩ := (kept.target_iff tree clear).mp htarget
      have hfree := (Disk.get?_of_target (hbehind.toSameOutline.target htarget)).2
      have hnext : SameBackups disk
          ({ other with troubles := other.troubles.tail }.put (inner ++ [own]) (.file bytes)) :=
        hbehind.trans (.put (clear.named own kept.named) hfree)
      dsimp only
      rw [ih hothers hnext]
      simp only [List.map_cons, kept.heldIn_eq]
      rw [writes, List.length_cons, ← List.drop_tail]
      rfl

/-- Each write goes to a spot beside its backup, and puts there what the backup holds. -/
theorem exists_of_mem_writes (tree : disk.IsTree) (hclear : AllClear disk backups)
    {troubles : List (Option DiskError)}
    (hwrite : (location, bytes) ∈ writes disk troubles backups) :
    ∃ backup inner own, (backup, location) ∈ landings disk troubles backups ∧
      Kept disk backup inner own bytes ∧ location = inner ++ [own] ∧ ¬ ReadsAsBackup own ∧
      disk.IsSpot inner own := by
  obtain ⟨⟨backup, place⟩, hlanding, hsame⟩ := List.mem_map.mp hwrite
  obtain ⟨rfl, rfl⟩ := Prod.mk.inj hsame
  obtain ⟨hbackup, htarget⟩ := mem_landings hlanding
  obtain ⟨⟨inner, own, bytes, kept⟩, clear⟩ := hclear backup hbackup
  obtain ⟨hown, rfl, -⟩ := (kept.target_iff tree clear).mp htarget
  rw [kept.heldIn_eq]
  exact ⟨backup, inner, own, hlanding, kept, rfl, clear.named own kept.named,
    tree.nested _ _ _ kept.get?, ⟨hown, kept.fits_own tree⟩, (Disk.get?_of_target htarget).2⟩

theorem ne_nil_of_mem_writes (tree : disk.IsTree) (hclear : AllClear disk backups)
    {troubles : List (Option DiskError)} {write : Location × ByteArray}
    (hwrite : write ∈ writes disk troubles backups) : write.1 ≠ [] := by
  obtain ⟨backup, inner, own, -, -, hplace, -, -⟩ := exists_of_mem_writes tree hclear hwrite
  simp [hplace]

/-- Copying back leaves a tree with the same backups. -/
theorem putAll_writes (tree : disk.IsTree) (hclear : AllClear disk backups)
    (troubles : List (Option DiskError)) (same : SameBackups disk other) (htree : other.IsTree) :
    (other.putAll (writes disk troubles backups)).IsTree ∧
      SameBackups disk (other.putAll (writes disk troubles backups)) := by
  have hspots : ∀ write ∈ writes disk troubles backups,
      ∃ inner name, write.1 = inner ++ [name] ∧ other.IsSpot inner name := by
    rintro ⟨location, bytes⟩ hwrite
    obtain ⟨backup, inner, own, -, -, rfl, -, spot⟩ := exists_of_mem_writes tree hclear hwrite
    exact ⟨inner, own, rfl, same.toSameOutline.isSpot spot⟩
  obtain ⟨htree, houtline⟩ := htree.putAll hspots
  refine ⟨htree, same.toSameOutline.trans houtline, fun inner name hreads => ?_⟩
  rw [Disk.get?_putAll _ fun _ hwrite => ne_nil_of_mem_writes tree hclear hwrite,
    same.held inner name hreads]
  cases hlast : (writes disk troubles backups).reverse.lookup (inner ++ [name]) with
  | none => rfl
  | some bytes =>
    obtain ⟨backup, inner', own, -, -, hplace, hown, -⟩ :=
      exists_of_mem_writes tree hclear (Disk.mem_of_lookup_reverse hlast)
    obtain ⟨-, rfl⟩ : inner = inner' ∧ name = own := by simpa using hplace
    exact absurd hreads hown

/-! ## Reverting -/

variable {stamp : String} {outcome : Outcome} {after : Disk} {files : List Restored}

/-- A backup stands on a disk, beside the place of its original. -/
def Stands (disk : Disk) (backup : Backup) (location : Location) (bytes : ByteArray) : Prop :=
  location ≠ [] ∧ disk.place backup.path false =
    .ok (.found (backupPlace backup.stamp location) (.file bytes))

/-- A backup stands beside one original. -/
theorem Stands.unique {other : Location} {held : ByteArray}
    (hstands : Stands disk backup location bytes) (hother : Stands disk backup other held) :
    location = other ∧ bytes = held := by
  obtain ⟨hne, hfound⟩ := hstands
  obtain ⟨hne', hfound'⟩ := hother
  obtain ⟨front, name, rfl⟩ := Path.exists_append_singleton hne
  obtain ⟨front', name', rfl⟩ := Path.exists_append_singleton hne'
  rw [hfound, backupPlace_append_singleton, backupPlace_append_singleton] at hfound'
  obtain ⟨⟨rfl, hname⟩, rfl⟩ : (front = front' ∧ backupName name backup.stamp =
      backupName name' backup.stamp) ∧ bytes = held := by simpa using hfound'
  have hchars := congrArg String.toList hname
  rw [toList_backupName, toList_backupName] at hchars
  rw [String.toList_injective (List.append_cancel_right (List.append_cancel_right hchars))]
  exact ⟨rfl, rfl⟩

theorem Kept.stands (kept : Kept disk backup inner own bytes) :
    Stands disk backup (inner ++ [own]) bytes :=
  ⟨by simp, by rw [backupPlace_append_singleton, kept.found]⟩

theorem select_allRuns (backups : List Backup) :
    select allRuns backups = backups.mergeSort fun a b => isLater a.stamp b.stamp := by
  rw [select, if_pos (by simp)]

theorem mem_select : backup ∈ select stamp backups ↔
    backup ∈ backups ∧ (stamp = allRuns ∨ backup.stamp = stamp) := by
  by_cases hall : stamp = allRuns
  · subst hall
    simp [select_allRuns]
  · rw [select, if_neg (by simpa using hall)]
    simp [hall]

/-- No two backups of one run are of the same original. -/
theorem eq_of_stands (tree : disk.IsTree) {first second : Backup} {held : ByteArray}
    (hfirst : first ∈ findBackups disk root) (hsecond : second ∈ findBackups disk root)
    (hstamp : first.stamp = second.stamp) (hstands : Stands disk first location bytes)
    (hother : Stands disk second location held) : first = second := by
  have hplace := hother.2
  rw [← hstamp] at hplace
  exact eq_of_path_eq hfirst hsecond (tree.eq_of_mem_filesBelow
    (walked_of_mem_findBackups hfirst).1 (walked_of_mem_findBackups hsecond).1 hstands.2 hplace)

theorem run_of_select_nil (hnone : select stamp (findBackups disk root) = []) :
    ∃ message, run disk root stamp = (.miss message, disk) := by
  rw [run]
  dsimp only
  split
  · exact ⟨_, rfl⟩
  · rw [hnone]
    exact ⟨_, rfl⟩

theorem run_of_select_ne_nil (hsome : select stamp (findBackups disk root) ≠ []) :
    run disk root stamp = (.restored (restore disk (select stamp (findBackups disk root))).1,
      (restore disk (select stamp (findBackups disk root))).2) := by
  have hfound : findBackups disk root ≠ [] := by
    intro hnone
    simp [hnone, select] at hsome
  rw [run]
  simp [hfound, hsome]

/-- Reverting comes to copying the selected backups back, even if there are none. -/
theorem run_disk (disk : Disk) (root : Path) (stamp : String) :
    (run disk root stamp).2 = (restore disk (select stamp (findBackups disk root))).2 := by
  by_cases hnone : select stamp (findBackups disk root) = []
  · obtain ⟨message, hrun⟩ := run_of_select_nil hnone
    rw [hrun, hnone]
    rfl
  · rw [run_of_select_ne_nil hnone]

/-- What a revert of a run, or of all runs, comes to. -/
structure Reverted (disk : Disk) (root : Path) (stamp : String) (outcome : Outcome)
    (after : Disk) : Prop where
  /-- It misses exactly if no backup is selected, and then changes nothing. -/
  missed : (∃ message, outcome = .miss message) ↔ select stamp (findBackups disk root) = []
  unchanged : (∃ message, outcome = .miss message) → after = disk
  /-- Nothing but originals of selected backups changes, and each holds what such a backup
  holds. -/
  others : ∀ location, after.get? location = disk.get? location ∨
    ∃ backup ∈ select stamp (findBackups disk root), ∃ bytes,
      Stands disk backup location bytes ∧ after.get? location = some (.file bytes)
  /-- All backups stay, with their bytes, and there are no others. -/
  backups : findBackups after root = findBackups disk root
  held : ∀ backup ∈ findBackups disk root, ∃ location bytes,
    Stands disk backup location bytes ∧ Stands after backup location bytes
  /-- Selected backups are listed in order; without trouble, all whose original has a name
  and is no directory. -/
  listed : ∀ files, outcome = .restored files →
    files.Sublist ((select stamp (findBackups disk root)).map .ofBackup)
  complete : disk.Calm → ∀ files, outcome = .restored files →
    ∀ backup ∈ select stamp (findBackups disk root), .ofBackup backup ∈ files ↔
      ∃ inner own bytes, Stands disk backup (inner ++ [own]) bytes ∧ IsName own ∧
        disk.get? (inner ++ [own]) ≠ some .directory
  /-- Each original that is listed for a single run reads as its backup, which is the only
  one of that run. -/
  originals : stamp ≠ allRuns → ∀ files, outcome = .restored files →
    ∀ backup ∈ select stamp (findBackups disk root), .ofBackup backup ∈ files →
      ∃ location bytes, Stands disk backup location bytes ∧
        after.find backup.source = .ok (location, .file bytes) ∧
        ∀ other ∈ findBackups disk root, other.stamp = stamp →
          ∀ held, Stands disk other location held → other = backup
  /-- The same revert once more, running into the same troubles, lists the same and leaves
  the disk as it is. -/
  again : run { after with troubles := disk.troubles } root stamp = (outcome, after)
  calm : disk.Calm → run after root stamp = (outcome, after)

/-- If no backup is selected, nothing happens. -/
private theorem reverted_of_select_nil (tree : disk.IsTree)
    (hnone : select stamp (findBackups disk root) = []) :
    Reverted disk root stamp (run disk root stamp).1 (run disk root stamp).2 := by
  obtain ⟨message, hrun⟩ := run_of_select_nil hnone
  rw [hrun]
  refine ⟨by simp [hnone], fun _ => rfl, fun _ => .inl rfl, rfl, ?_, nofun, nofun, nofun, hrun,
    fun _ => hrun⟩
  intro backup hbackup
  obtain ⟨inner, own, bytes, kept⟩ := exists_kept tree hbackup
  exact ⟨_, _, kept.stands, kept.stands⟩

/-- The disk behind a revert, put together from what is written. -/
private def written (disk : Disk) (backups : List Backup) : Disk :=
  { disk with troubles := disk.troubles.drop backups.length }.putAll
    (writes disk disk.troubles backups)

private theorem written_spec (tree : disk.IsTree) (hclear : AllClear disk backups) :
    (written disk backups).IsTree ∧ SameBackups disk (written disk backups) := by
  have halike : Disk.Alike disk { disk with troubles := disk.troubles.drop backups.length } :=
    ⟨rfl, rfl⟩
  exact putAll_writes tree hclear _ (.of_alike halike) (halike.isTree tree)

private theorem get?_written (tree : disk.IsTree) (hclear : AllClear disk backups)
    (location : Location) : (written disk backups).get? location =
      (((writes disk disk.troubles backups).reverse.lookup location).map .file).or
        (disk.get? location) :=
  Disk.get?_putAll _ (fun _ hwrite => ne_nil_of_mem_writes tree hclear hwrite) location

/-- Copying back once more, from what was left, writes the same over it. -/
private theorem restore_written (tree : disk.IsTree) (hclear : AllClear disk backups) :
    restore { written disk backups with troubles := disk.troubles } backups =
      restore disk backups := by
  obtain ⟨htree, same⟩ := written_spec tree hclear
  have hreset : SameBackups disk { written disk backups with troubles := disk.troubles } :=
    same.trans (.of_alike ⟨rfl, rfl⟩)
  have halike : Disk.Alike (written disk backups)
      { written disk backups with troubles := disk.troubles.drop backups.length } := ⟨rfl, rfl⟩
  rw [restore_eq tree hclear hreset, restore_eq tree hclear (.refl disk)]
  refine Prod.ext rfl (Disk.IsTree.eq_of_get? htree ?_ ?_ (by simp [written]) (by simp [written]))
  · exact (putAll_writes tree hclear _ (same.trans (.of_alike halike)) (halike.isTree htree)).1
  · exact Disk.get?_putAll_putAll (fun _ hwrite => ne_nil_of_mem_writes tree hclear hwrite)
      fun location => halike.get? location

/-- The backup of an entry that is listed was copied to where its original is written. -/
private theorem exists_landing {troubles : List (Option DiskError)}
    (hselected : ∀ other ∈ backups, other ∈ findBackups disk root) (hbackup : backup ∈ backups)
    (hlisted : .ofBackup backup ∈ (landings disk troubles backups).map (Restored.ofBackup ·.1)) :
    ∃ location, (backup, location) ∈ landings disk troubles backups := by
  obtain ⟨⟨other, location⟩, hlanding, hsame⟩ := List.mem_map.mp hlisted
  have hother := hselected other (mem_landings hlanding).1
  obtain rfl := eq_of_path_eq hother (hselected backup hbackup) (congrArg Restored.backup hsame)
  exact ⟨location, hlanding⟩

/-- Of the backups of one run, the one that is copied to a place decides what stands
there. -/
private theorem get?_written_of_landing (tree : disk.IsTree)
    (hselected : ∀ other ∈ backups, other ∈ findBackups disk root ∧ other.stamp = stamp)
    (hclear : AllClear disk backups) (kept : Kept disk backup inner own bytes)
    (hlanding : (backup, inner ++ [own]) ∈ landings disk disk.troubles backups) :
    (written disk backups).get? (inner ++ [own]) = some (.file bytes) := by
  have hwrite : (inner ++ [own], bytes) ∈ writes disk disk.troubles backups :=
    List.mem_map.mpr ⟨_, hlanding, by simp [kept.heldIn_eq]⟩
  rw [get?_written tree hclear]
  cases hlast : (writes disk disk.troubles backups).reverse.lookup (inner ++ [own]) with
  | none =>
    have hnone := List.lookup_eq_none_iff.mp hlast _ (List.mem_reverse.mpr hwrite)
    simp at hnone
  | some held =>
    obtain ⟨other, inner', own', hother, hkept, hplace, -, -⟩ :=
      exists_of_mem_writes tree hclear (Disk.mem_of_lookup_reverse hlast)
    have hfound := hselected backup (mem_landings hlanding).1
    have hfound' := hselected other (mem_landings hother).1
    obtain rfl := eq_of_stands tree hfound.1 hfound'.1 (hfound.2.trans hfound'.2.symm) kept.stands
      (hplace ▸ hkept.stands)
    obtain ⟨-, rfl⟩ := kept.stands.unique hkept.stands
    rfl

private theorem written_others (tree : disk.IsTree) (hclear : AllClear disk backups)
    (location : Location) : (written disk backups).get? location = disk.get? location ∨
      ∃ backup ∈ backups, ∃ bytes, Stands disk backup location bytes ∧
        (written disk backups).get? location = some (.file bytes) := by
  rw [get?_written tree hclear]
  cases hlast : (writes disk disk.troubles backups).reverse.lookup location with
  | none => exact .inl rfl
  | some bytes =>
    obtain ⟨backup, inner, own, hlanding, kept, rfl, -, -⟩ :=
      exists_of_mem_writes tree hclear (Disk.mem_of_lookup_reverse hlast)
    exact .inr ⟨backup, (mem_landings hlanding).1, bytes, kept.stands, rfl⟩

private theorem run_written (tree : disk.IsTree)
    (hclear : AllClear disk (select stamp (findBackups disk root))) :
    (run disk root stamp).2 = written disk (select stamp (findBackups disk root)) := by
  rw [run_disk, restore_eq tree hclear (.refl disk)]
  rfl

/-- Nothing changes that no selected backup stands beside. -/
theorem get?_run_of_not_stands (tree : disk.IsTree)
    (hclear : AllClear disk (select stamp (findBackups disk root)))
    (hnone : ∀ backup ∈ select stamp (findBackups disk root), ∀ bytes,
      ¬ Stands disk backup location bytes) :
    (run disk root stamp).2.get? location = disk.get? location := by
  rw [run_written tree hclear]
  rcases written_others tree hclear location with hsame | ⟨backup, hbackup, bytes, hstands, -⟩
  · exact hsame
  · exact absurd hstands (hnone backup hbackup bytes)

/-- Without trouble the last backup of an original decides what it holds, unless its name
is none or a directory stands there. -/
theorem get?_run_of_last (tree : disk.IsTree) (hcalm : disk.Calm)
    (hclear : AllClear disk (select stamp (findBackups disk root))) {front back : List Backup}
    (hsplit : select stamp (findBackups disk root) = front ++ backup :: back)
    (hstands : Stands disk backup (inner ++ [own]) bytes) (hown : IsName own)
    (hfree : disk.get? (inner ++ [own]) ≠ some .directory)
    (hlast : ∀ later ∈ back, ∀ held, ¬ Stands disk later (inner ++ [own]) held) :
    (run disk root stamp).2.get? (inner ++ [own]) = some (.file bytes) := by
  rw [run_written tree hclear]
  rw [hsplit] at hclear ⊢
  obtain ⟨⟨inner', own', held, kept⟩, clear⟩ := hclear backup (by simp)
  obtain ⟨hplace, rfl⟩ := kept.stands.unique hstands
  obtain ⟨rfl, rfl⟩ : inner' = inner ∧ own' = own := by simpa using hplace
  have htarget := (kept.target_iff tree clear).mpr ⟨hown, rfl, hfree⟩
  have hnone : (writes disk [] back).reverse.lookup (inner' ++ [own']) = none := by
    refine List.lookup_eq_none_iff.mpr ?_
    rintro ⟨place, bytes⟩ hwrite
    obtain ⟨later, front', name, hlanding, kept', rfl, -, -⟩ := exists_of_mem_writes tree
      (fun other hother => hclear other (by simp [hother])) (List.mem_reverse.mp hwrite)
    have hne : inner' ++ [own'] ≠ front' ++ [name] := fun hsame =>
      hlast later (mem_landings hlanding).1 bytes (hsame ▸ kept'.stands)
    simpa using hne
  have hwrites : writes disk [] (front ++ backup :: back) =
      writes disk [] front ++ (inner' ++ [own'], held) :: writes disk [] back := by
    simp [writes, landings_calm, htarget, Except.toOption, kept.heldIn_eq]
  rw [get?_written tree hclear, hcalm, hwrites, List.reverse_append, List.reverse_cons,
    List.append_assoc, List.lookup_append, hnone]
  simp

private theorem mem_listed_calm_iff (tree : disk.IsTree) (hclear : AllClear disk backups)
    (hfound : ∀ other ∈ backups, other ∈ findBackups disk root) (hbackup : backup ∈ backups) :
    .ofBackup backup ∈ (landings disk [] backups).map (Restored.ofBackup ·.1) ↔
      ∃ inner own bytes, Stands disk backup (inner ++ [own]) bytes ∧ IsName own ∧
        disk.get? (inner ++ [own]) ≠ some .directory := by
  obtain ⟨⟨inner, own, bytes, kept⟩, clear⟩ := hclear backup hbackup
  constructor
  · intro hlisted
    obtain ⟨location, hlanding⟩ := exists_landing hfound hbackup hlisted
    obtain ⟨hown, rfl, hfree⟩ := (kept.target_iff tree clear).mp (mem_landings hlanding).2
    exact ⟨inner, own, bytes, kept.stands, hown, hfree⟩
  · rintro ⟨inner', own', held, hstands, hown, hfree⟩
    obtain ⟨hplace, -⟩ := kept.stands.unique hstands
    obtain ⟨rfl, rfl⟩ : inner = inner' ∧ own = own' := by simpa using hplace
    have htarget := (kept.target_iff tree clear).mpr ⟨hown, rfl, hfree⟩
    refine List.mem_map.mpr ⟨(backup, inner ++ [own]), ?_, rfl⟩
    rw [landings_calm]
    exact List.mem_filterMap.mpr ⟨backup, hbackup, by simp [htarget, Except.toOption]⟩

private theorem written_originals (tree : disk.IsTree) (hclear : AllClear disk backups)
    (hfound : ∀ other ∈ backups, other ∈ findBackups disk root ∧ other.stamp = stamp)
    (hbackup : backup ∈ backups)
    (hlisted : .ofBackup backup ∈
      (landings disk disk.troubles backups).map (Restored.ofBackup ·.1)) :
    ∃ location bytes, Stands disk backup location bytes ∧
      (written disk backups).find backup.source = .ok (location, .file bytes) ∧
      ∀ other ∈ findBackups disk root, other.stamp = stamp →
        ∀ held, Stands disk other location held → other = backup := by
  obtain ⟨⟨inner, own, bytes, kept⟩, clear⟩ := hclear backup hbackup
  obtain ⟨location, hlanding⟩ :=
    exists_landing (fun other hother => (hfound other hother).1) hbackup hlisted
  have htarget := (mem_landings hlanding).2
  obtain ⟨-, rfl, -⟩ := (kept.target_iff tree clear).mp htarget
  have hget := get?_written_of_landing tree hfound hclear kept hlanding
  have same := (written_spec tree hclear).2
  refine ⟨_, bytes, kept.stands, same.toSameOutline.find_of_target htarget hget, ?_⟩
  intro other hother hsame held hstands
  exact eq_of_stands tree hother (hfound backup hbackup).1
    (hsame.trans (hfound backup hbackup).2.symm) hstands kept.stands

private theorem reverted_of_select_ne_nil (tree : disk.IsTree)
    (hsome : select stamp (findBackups disk root) ≠ [])
    (hclear : AllClear disk (select stamp (findBackups disk root))) :
    Reverted disk root stamp (run disk root stamp).1 (run disk root stamp).2 := by
  have hfound : ∀ backup ∈ select stamp (findBackups disk root), backup ∈ findBackups disk root :=
    fun backup hbackup => (mem_select.mp hbackup).1
  have hsingle : stamp ≠ allRuns → ∀ backup ∈ select stamp (findBackups disk root),
      backup ∈ findBackups disk root ∧ backup.stamp = stamp := fun hstamp backup hbackup =>
    (mem_select.mp hbackup).imp_right fun h => h.resolve_left hstamp
  generalize hselected : select stamp (findBackups disk root) = selected at *
  obtain ⟨htree, same⟩ := written_spec tree hclear
  have hrestore : restore disk selected =
      ((landings disk disk.troubles selected).map (.ofBackup ·.1), written disk selected) :=
    restore_eq tree hclear (.refl disk)
  have hrun : run disk root stamp =
      (.restored ((landings disk disk.troubles selected).map (.ofBackup ·.1)),
        written disk selected) := by
    rw [run_of_select_ne_nil (by rwa [hselected]), hselected, hrestore]
  have hagain : run { written disk selected with troubles := disk.troubles } root stamp =
      run disk root stamp := by
    have halike : Disk.Alike (written disk selected)
        { written disk selected with troubles := disk.troubles } := ⟨rfl, rfl⟩
    have hfound := findBackups_congr tree (halike.isTree htree) (same.trans (.of_alike halike)) root
    rw [run_of_select_ne_nil (by rwa [hfound, hselected]), hfound, hselected,
      restore_written tree hclear, hrestore, hrun]
  rw [hrun] at hagain ⊢
  refine ⟨by simp [hselected, hsome], by simp, ?_, findBackups_congr tree htree same root, ?_, ?_,
    ?_, ?_, hagain, ?_⟩
  · rw [hselected]
    exact written_others tree hclear
  · intro backup hbackup
    obtain ⟨inner, own, bytes, kept⟩ := exists_kept tree hbackup
    refine ⟨_, bytes, kept.stands, by simp, ?_⟩
    rw [backupPlace_append_singleton]
    exact same.place_file kept.named kept.reads kept.found
  · rintro files ⟨⟩
    have hsublist := (sublist_landings disk disk.troubles selected).map Restored.ofBackup
    rw [List.map_map] at hsublist
    rwa [hselected]
  · rintro hcalm files ⟨⟩ backup hbackup
    rw [hcalm]
    exact mem_listed_calm_iff tree hclear hfound (hselected ▸ hbackup)
  · rintro hstamp files ⟨⟩ backup hbackup hlisted
    exact written_originals tree hclear (hsingle hstamp) (hselected ▸ hbackup) hlisted
  · intro hcalm
    have htroubles : disk.troubles = (written disk selected).troubles := by
      simp [written, show disk.troubles = [] from hcalm]
    have hsame : { written disk selected with troubles := disk.troubles } =
        written disk selected := by rw [htroubles]
    rwa [hsame] at hagain

/-- A revert comes to what it is meant to, and so does the same revert again, on every
tree in which no original of a selected backup is itself named as a backup or is a
link. -/
theorem run_reverts (tree : disk.IsTree)
    (hnames : ∀ backup ∈ select stamp (findBackups disk root), ∀ own,
      backup.path.name? = some (backupName own backup.stamp) → ¬ ReadsAsBackup own)
    (hlinks : ∀ backup ∈ select stamp (findBackups disk root), ∀ location target,
      disk.place backup.source false ≠ .ok (.found location (.link target)))
    (hrun : run disk root stamp = (outcome, after)) : Reverted disk root stamp outcome after := by
  obtain ⟨rfl, rfl⟩ := Prod.mk.inj hrun
  by_cases hnone : select stamp (findBackups disk root) = []
  · exact reverted_of_select_nil tree hnone
  · refine reverted_of_select_ne_nil tree hnone fun backup hbackup => ?_
    exact ⟨exists_kept tree (mem_select.mp hbackup).1, hnames backup hbackup, hlinks backup hbackup⟩

/-! ## A disk with a link -/

/-- Two backups of one original, a third beside a directory, and a link to a backup. -/
def mixedDisk : Disk where
  entries :=
    [(["a.css.bak.1"], .file "one".toUTF8), (["a.css.bak.2"], .file "two".toUTF8),
      (["b.css"], .directory), (["b.css.bak.1"], .file "three".toUTF8),
      (["latest"], .link "a.css.bak.2")]

theorem mixedDisk_project : mixedDisk.Project (.ofLocation []) [] :=
  .ofEntries (by decide) (by decide) (by simp [mixedDisk])

def mixedBackup (own : String) : Backup :=
  ⟨(Path.ofLocation []).down [backupName own "1"], (Path.ofLocation []).down [own], "1"⟩

theorem select_mixedDisk :
    select "1" (findBackups mixedDisk (.ofLocation [])) = ["a.css", "b.css"].map mixedBackup := by
  rw [findBackups_eq mixedDisk_project.rooted]
  decide

theorem stands_mixedBackup {own : String} {bytes : ByteArray}
    (hfile : mixedDisk.get? [backupName own "1"] = some (.file bytes)) :
    Stands mixedDisk (mixedBackup own) ([] ++ [own]) bytes :=
  ⟨by simp, mixedDisk_project.tree.place_down mixedDisk_project.rooted (List.cons_ne_nil _ []) hfile false⟩

theorem mixedDisk_clear
    (hbackup : backup ∈ select "1" (findBackups mixedDisk (.ofLocation []))) :
    Clear mixedDisk backup := by
  have hfacts : ∀ own ∈ ["a.css", "b.css"], IsName own ∧
      (backupParts? own.toList).isSome = false ∧
      (mixedDisk.get? [own] = none ∨ mixedDisk.get? [own] = some .directory) ∧
      ∃ bytes, mixedDisk.get? [backupName own "1"] = some (.file bytes) := by
    simp only [List.mem_cons, List.not_mem_nil, or_false, forall_eq_or_imp, forall_eq]
    exact ⟨⟨by decide, by decide, by decide, _, rfl⟩, by decide, by decide, by decide, _, rfl⟩
  have hfound := (mem_select.mp hbackup).1
  obtain ⟨inner, own, bytes, kept⟩ := exists_kept mixedDisk_project.tree hfound
  rw [select_mixedDisk] at hbackup
  obtain ⟨other, hother, rfl⟩ := List.mem_map.mp hbackup
  obtain ⟨hname, hparts, hentry, held, hfile⟩ := hfacts other hother
  obtain ⟨hplace, -⟩ := kept.stands.unique (stands_mixedBackup hfile)
  obtain ⟨rfl, hlast⟩ := List.append_inj' hplace rfl
  obtain rfl := List.singleton_inj.mp hlast
  refine kept.clear mixedDisk_project.tree (isDigits_of_mem_findBackups hfound) hname ?_ ?_
  · simp [ReadsAsBackup, hparts]
  · rcases hentry with hnone | hdirectory
    · simp [hnone]
    · simp [hdirectory]

/-- The stylesheet is put back and stays so, and the directory stays. -/
theorem run_reverts_mixed : ∃ files after,
    run mixedDisk (.ofLocation []) "1" = (.restored files, after) ∧
      .ofBackup (mixedBackup "a.css") ∈ files ∧ .ofBackup (mixedBackup "b.css") ∉ files ∧
      after.find (mixedBackup "a.css").source = .ok (["a.css"], .file "one".toUTF8) ∧
      run after (.ofLocation []) "1" = (.restored files, after) := by
  have hselected := select_mixedDisk
  obtain ⟨outcome, after, hrun⟩ : ∃ outcome after,
      run mixedDisk (.ofLocation []) "1" = (outcome, after) := ⟨_, _, rfl⟩
  have hreverted := run_reverts mixedDisk_project.tree
    (fun _ hbackup => (mixedDisk_clear hbackup).named)
    (fun _ hbackup => (mixedDisk_clear hbackup).noLink) hrun
  cases outcome with
  | miss message => simpa [hselected] using hreverted.missed.mp ⟨message, rfl⟩
  | restored files =>
    have hcomplete := hreverted.complete rfl files rfl
    have horiginals := hreverted.originals (by decide) files rfl
    rw [hselected] at hcomplete horiginals
    have hfirst : Stands mixedDisk (mixedBackup "a.css") ([] ++ ["a.css"]) "one".toUTF8 :=
      stands_mixedBackup rfl
    have hsecond : Stands mixedDisk (mixedBackup "b.css") ([] ++ ["b.css"]) "three".toUTF8 :=
      stands_mixedBackup rfl
    have hlisted : .ofBackup (mixedBackup "a.css") ∈ files :=
      (hcomplete _ (by simp)).mpr ⟨[], "a.css", _, hfirst, by decide, by decide⟩
    refine ⟨files, after, hrun, hlisted, fun hmem => ?_, ?_, hreverted.calm rfl⟩
    · obtain ⟨inner, own, bytes, hstands, -, hfree⟩ := (hcomplete _ (by simp)).mp hmem
      rw [(hstands.unique hsecond).1] at hfree
      exact hfree rfl
    · obtain ⟨location, bytes, hstands, hfind, -⟩ := horiginals _ (by simp) hlisted
      obtain ⟨rfl, rfl⟩ := hstands.unique hfirst
      exact hfind

end Deadwood.Revert
