/-
# Edits behind backups

A run writes files through its editor, which takes a backup of each file before
it writes it for the first time. `Tracks` is what that comes to on the disk: the
files touched so far each have a backup that holds what they held at first, and
everything else is as it was. One edit keeps `Tracks`, whether its copy or its
write succeeds or not, and so does any sequence of edits.

The paths of an edit are those of sources. Where the editor is handed a path that
leads to a source by another way, it takes two backups of one file; such paths
are kept out by a premise on the paths touched, and so are links on the way to a
source, in its place, or in that of its backup.
-/

import Deadwood.Proofs.Disk.Project
import Deadwood.Proofs.Fix.Naming

namespace Deadwood.Fix

open Disk (Alike NoNewLinks Stored)
open Deadwood.Path (IsName IsBelow)

variable {before disk after : Disk} {root path : Path} {here location source other : Location}
  {editor : Editor} {millis : String} {bytes : ByteArray}

/-! ## Sources and their backups -/

/-- A place below a directory whose name ends as those of analysed files do. -/
def IsSource (here location : Location) : Prop :=
  ∃ front name, location = here ++ (front ++ [name]) ∧ (∀ part ∈ location, IsName part) ∧
    EndsAsCode name

namespace IsSource

theorem named (hsource : IsSource here source) : ∀ part ∈ source, IsName part := by
  obtain ⟨-, -, -, hnames, -⟩ := hsource
  exact hnames

theorem ne_nil (hsource : IsSource here source) : source ≠ [] := by
  obtain ⟨front, name, rfl, -, -⟩ := hsource
  simp

/-- What is named in another way is no source. -/
theorem ne_of_not_endsAsCode (hsource : IsSource here source) {front : Location} {name : String}
    (hname : ¬ EndsAsCode name) : source ≠ front ++ [name] := by
  rintro rfl
  obtain ⟨inner, own, hsame, -, hends⟩ := hsource
  rw [← List.append_assoc] at hsame
  obtain ⟨-, hlast⟩ := List.append_inj' hsame rfl
  exact hname (List.singleton_inj.mp hlast ▸ hends)

/-- A backup of a run is no source. -/
theorem ne_backupName (hsource : IsSource here source) (hmillis : EndsWithDigit millis)
    (front : Location) (own : String) : source ≠ front ++ [backupName own millis] :=
  hsource.ne_of_not_endsAsCode fun hcode =>
    hcode.not_endsWithDigit (hmillis.append (own ++ ".bak."))

theorem ne_backupPlace (hsource : IsSource here source) (hmillis : EndsWithDigit millis)
    (hother : IsSource here other) : source ≠ backupPlace millis other := by
  obtain ⟨front, name, rfl⟩ := Path.exists_append_singleton hother.ne_nil
  rw [backupPlace_append_singleton]
  exact hsource.ne_backupName hmillis front name

theorem backupPlace_ne_nil (hsource : IsSource here source) : backupPlace millis source ≠ [] := by
  obtain ⟨front, name, rfl, -, -⟩ := hsource
  simp

/-- A backup stands at another place than its source, whatever its stamp. -/
theorem backupPlace_ne (hsource : IsSource here source) (millis : String) :
    backupPlace millis source ≠ source := by
  obtain ⟨front, name, rfl, -, -⟩ := hsource
  rw [backupPlace_below]
  simp [backupName, String.append_assoc]

end IsSource

/-- Backups of different runs, or of different files, have different places. -/
theorem backupPlace_inj {millis' : String} (hmillis : IsDigits millis) (hmillis' : IsDigits millis')
    (hsource : source ≠ []) (hother : other ≠ [])
    (hsame : backupPlace millis source = backupPlace millis' other) :
    source = other ∧ millis = millis' := by
  obtain ⟨front, name, rfl⟩ := Path.exists_append_singleton hsource
  obtain ⟨front', name', rfl⟩ := Path.exists_append_singleton hother
  rw [backupPlace_append_singleton, backupPlace_append_singleton] at hsame
  obtain ⟨rfl, hlast⟩ := List.append_inj' hsame rfl
  obtain ⟨rfl, rfl⟩ := backupName_inj hmillis hmillis' (by simpa using hlast)
  exact ⟨rfl, rfl⟩

/-- A source that a run edits where it stands: no link is on the way to it, in its place,
or in that of its backup. -/
structure IsEditable (disk : Disk) (here : Location) (millis : String) (source : Location) :
    Prop where
  isSource : IsSource here source
  direct : disk.Direct source
  beside : disk.Direct (backupPlace millis source)
  fits : FitsInName millis
  digit : EndsWithDigit millis

theorem IsEditable.later (heditable : IsEditable before here millis source)
    (links : NoNewLinks before disk) : IsEditable disk here millis source :=
  { heditable with
    direct := links.direct heditable.direct
    beside := links.direct heditable.beside }

/-- On the way to a backup is what is on the way to its source. -/
theorem IsSource.isEditable (hsource : IsSource here source) (hdirect : disk.Direct source)
    (hfree : ∀ target, disk.get? (backupPlace millis source) ≠ some (.link target))
    (hfits : FitsInName millis) (hdigit : EndsWithDigit millis) :
    IsEditable disk here millis source := by
  refine ⟨hsource, hdirect, ?_, hfits, hdigit⟩
  obtain ⟨front, name, rfl⟩ := Path.exists_append_singleton hsource.ne_nil
  rw [backupPlace_append_singleton] at hfree ⊢
  exact Disk.direct_concat_iff.mpr ⟨(Disk.direct_concat_iff.mp hdirect).1, hfree⟩

/-- The path of a source, seen from its directory. -/
theorem IsSource.isBelow {front : List String} {name : String}
    (hsource : IsSource here (here ++ (front ++ [name]))) :
    IsBelow (.ofLocation (here ++ (front ++ [name]))) (.ofLocation here) (front ++ [name]) ∧
      ∀ part ∈ front ++ [name], IsName part := by
  have hparts : ∀ part ∈ front ++ [name], IsName part := fun part hpart =>
    hsource.named part (List.mem_append_right _ hpart)
  exact ⟨Path.isBelow_ofLocation (by simp)
    (fun part hpart => hsource.named part (List.mem_append_left _ hpart)) hparts, hparts⟩

section Paths

variable (project : disk.Project root here)

include project

/-- The path of a source finds the source. -/
theorem find_source (hsource : IsSource here source) (hdirect : disk.Direct source)
    {found : Location} {entry : Entry} :
    disk.find (.ofLocation source) = .ok (found, entry) ↔
      found = source ∧ disk.get? source = some entry := by
  obtain ⟨front, name, rfl, -, -⟩ := id hsource
  obtain ⟨hpath, hparts⟩ := hsource.isBelow
  exact project.canonical.find_eq_ok_iff hpath (by simp) hparts hdirect

/-- The path of a source is written at the source. -/
theorem target_source (hsource : IsSource here source) (hdirect : disk.Direct source) :
    disk.target (.ofLocation source) = .ok location ↔
      location = source ∧ disk.CanHold source := by
  obtain ⟨front, name, rfl, -, -⟩ := id hsource
  obtain ⟨hpath, hparts⟩ := hsource.isBelow
  exact project.canonical.target_eq_ok_iff hpath (by simp) hparts hdirect

omit project in
private theorem isBelow_backup {front : List String} {name : String}
    (hmillis : FitsInName millis) (hsource : IsSource here (here ++ (front ++ [name]))) :
    IsBelow (Path.backup (.ofLocation (here ++ (front ++ [name]))) millis) (.ofLocation here)
        (front ++ [backupName name millis]) ∧
      ∀ part ∈ front ++ [backupName name millis], IsName part := by
  obtain ⟨hpath, hparts⟩ := hsource.isBelow
  have hname := hparts name (by simp)
  have hbackup := isName_backupName hname hmillis
  refine ⟨?_, ?_⟩
  · rw [Path.backup, hpath.name? hname]
    exact hpath.withName hname hbackup
  · intro part hpart
    rcases List.mem_append.mp hpart with hpart | hpart
    · exact hparts part (by simp [hpart])
    · rwa [List.mem_singleton.mp hpart]

/-- The backup of a source is written at its place. -/
theorem target_backup (heditable : IsEditable disk here millis source) :
    disk.target (Path.backup (.ofLocation source) millis) = .ok location ↔
      location = backupPlace millis source ∧ disk.CanHold (backupPlace millis source) := by
  obtain ⟨hsource, -, hbeside, hfits, -⟩ := heditable
  obtain ⟨front, name, rfl, -, -⟩ := id hsource
  obtain ⟨hbelow, hparts⟩ := isBelow_backup hfits hsource
  rw [backupPlace_below] at hbeside ⊢
  exact project.canonical.target_eq_ok_iff hbelow (by simp) hparts hbeside

/-- Storing a source or its backup keeps a project. -/
theorem project_stored_source (hsource : IsSource here source) (hdirect : disk.Direct source)
    (hhold : disk.CanHold source) (hstored : Stored disk source bytes after) :
    after.Project root here := by
  obtain ⟨front, name, rfl, -, -⟩ := id hsource
  exact project.stored hsource.isBelow.2 hdirect hhold hstored

theorem project_stored_backup (heditable : IsEditable disk here millis source)
    (hhold : disk.CanHold (backupPlace millis source))
    (hstored : Stored disk (backupPlace millis source) bytes after) : after.Project root here := by
  obtain ⟨hsource, -, hbeside, hfits, -⟩ := heditable
  obtain ⟨front, name, rfl, -, -⟩ := id hsource
  rw [backupPlace_below] at hbeside hhold hstored
  exact project.stored (isBelow_backup hfits hsource).2 hbeside hhold hstored

end Paths

/-! ## One edit -/

namespace Editor

/-- The editor has a backup of what a path names. -/
def Has (editor : Editor) (path : Path) : Prop :=
  (editor.backupOf? path).isSome = true

theorem has_iff : editor.Has path ↔ ∃ entry ∈ editor.backups, entry.1.isSame path = true := by
  simp [Has, backupOf?]

/-- The editor with a backup of one more path. -/
def noting (editor : Editor) (path : Path) : Editor :=
  { editor with backups := editor.backups ++ [(path, path.backup editor.stamp.millis)] }

theorem stamp_noting (editor : Editor) (path : Path) : (editor.noting path).stamp = editor.stamp :=
  rfl

theorem has_noting_iff {other : Path} :
    (editor.noting path).Has other ↔ editor.Has other ∨ path.isSame other = true := by
  simp [has_iff, noting, or_and_right, exists_or]

theorem has_noting (editor : Editor) (path : Path) : (editor.noting path).Has path :=
  has_noting_iff.mpr (.inr (by simp [Path.isSame]))

/-- What seeing to a backup comes to: there is one already, the copy fails, or a
new one is stored beside the file. -/
theorem ensureBackup_cases (editor : Editor) (disk : Disk) (path : Path) :
    (editor.Has path ∧ ∃ backup, editor.ensureBackup disk path = (.ok backup, editor, disk)) ∨
      (∃ error after, editor.ensureBackup disk path = (.error error, editor, after) ∧
        Alike disk after) ∨
      (¬ editor.Has path ∧ ∃ origin bytes location after,
        editor.ensureBackup disk path =
          (.ok (path.backup editor.stamp.millis), editor.noting path, after) ∧
        disk.find path = .ok (origin, .file bytes) ∧
        disk.target (path.backup editor.stamp.millis) = .ok location ∧
        Stored disk location (Disk.copied origin location bytes) after) := by
  unfold ensureBackup Has
  cases hbackup : editor.backupOf? path with
  | some backup => exact .inl ⟨rfl, backup, rfl⟩
  | none =>
    rcases disk.copy_cases path (path.backup editor.stamp.millis) with
      ⟨error, after, hcopy, halike⟩ | ⟨origin, bytes, location, after, hcopy, hfind, htarget, hstored⟩
    · exact .inr (.inl ⟨error, after, by simp [hcopy], halike⟩)
    · exact .inr (.inr ⟨by simp, origin, bytes, location, after, by simp [hcopy, noting], hfind,
        htarget, hstored⟩)

/-- On a calm disk a new backup is stored wherever its path leads. -/
theorem ensureBackup_calm {origin location : Location} {bytes : ByteArray} (hcalm : disk.Calm)
    (hnew : ¬ editor.Has path) (hfind : disk.find path = .ok (origin, .file bytes))
    (htarget : disk.target (path.backup editor.stamp.millis) = .ok location)
    (hapart : location ≠ origin) :
    editor.ensureBackup disk path =
      (.ok (path.backup editor.stamp.millis), editor.noting path,
        disk.put location (.file bytes)) := by
  have hnone : editor.backupOf? path = none := by simpa [Has] using hnew
  simp only [ensureBackup, hnone, hcalm.copy hfind htarget, Disk.copied_of_ne hapart, noting]

/-- What an edit comes to: it fails for want of a backup, or a write follows. -/
theorem overwrite_cases (editor : Editor) (disk : Disk) (path : Path) (content : String) :
    (∃ error after, editor.ensureBackup disk path = (.error error, editor, after) ∧
        Alike disk after ∧ (editor.overwrite disk path content).2 = (editor, after)) ∨
      ∃ backup editor' disk', editor.ensureBackup disk path = (.ok backup, editor', disk') ∧
        (editor.overwrite disk path content).2 = (editor', (disk'.write path content.toUTF8).2) := by
  unfold overwrite
  rcases editor.ensureBackup_cases disk path with
    ⟨-, backup, hensure⟩ | ⟨error, after, hensure, halike⟩ | ⟨-, _, _, _, after, hensure, -⟩
  · exact .inr ⟨backup, editor, disk, hensure, by rw [hensure]⟩
  · exact .inl ⟨error, after, hensure, halike, by rw [hensure]⟩
  · exact .inr ⟨_, _, after, hensure, by rw [hensure]⟩

/-- An edit keeps the run and the backups taken so far, and adds none but that of
its path. -/
theorem overwrite_grows (editor : Editor) (disk : Disk) (path : Path) (content : String) :
    (editor.overwrite disk path content).2.1.stamp = editor.stamp ∧
      ∃ more, (editor.overwrite disk path content).2.1.backups = editor.backups ++ more ∧
        ∀ entry ∈ more, entry.1 = path := by
  rcases editor.overwrite_cases disk path content with
    ⟨_, _, -, -, hresult⟩ | ⟨_, editor', _, hensure, hresult⟩
  · rw [hresult]
    exact ⟨rfl, [], by simp⟩
  · rw [hresult]
    rcases editor.ensureBackup_cases disk path with
      ⟨-, _, hkept⟩ | ⟨_, _, hfailed, -⟩ | ⟨-, _, _, _, _, hnew, -⟩
    · obtain ⟨-, rfl, -⟩ : _ ∧ editor = editor' ∧ _ := by simpa [hkept] using hensure
      exact ⟨rfl, [], by simp⟩
    · simp [hfailed] at hensure
    · obtain ⟨-, rfl, -⟩ : _ ∧ _ = editor' ∧ _ := by simpa [hnew] using hensure
      exact ⟨rfl, [(path, path.backup editor.stamp.millis)], rfl, by simp⟩

/-- A file that was written has a backup. -/
theorem has_of_overwrite {editor' : Editor} {content : String}
    (hwritten : editor.overwrite disk path content = (none, editor', after)) : editor'.Has path := by
  unfold overwrite at hwritten
  rcases editor.ensureBackup_cases disk path with
    ⟨hhas, _, hkept⟩ | ⟨_, _, hfailed, -⟩ | ⟨-, _, _, _, _, hnew, -⟩
  · obtain ⟨-, rfl, -⟩ : _ ∧ editor = editor' ∧ _ := by simpa [hkept] using hwritten
    exact hhas
  · simp [hfailed] at hwritten
  · obtain ⟨-, rfl, -⟩ : _ ∧ _ = editor' ∧ _ := by simpa [hnew] using hwritten
    exact has_noting editor path

theorem Has.grow {editor' : Editor} {more : List (Path × Path)} (hhas : editor.Has path)
    (hmore : editor'.backups = editor.backups ++ more) : editor'.Has path := by
  obtain ⟨entry, hentry, hsame⟩ := has_iff.mp hhas
  exact has_iff.mpr ⟨entry, hmore ▸ List.mem_append_left _ hentry, hsame⟩

end Editor

/-! ## What edits leave -/

/-- The sources of which the editor has a backup. -/
def Touched (here : Location) (editor : Editor) (source : Location) : Prop :=
  IsSource here source ∧ editor.Has (.ofLocation source)

/-- How a disk looks behind some edits: a touched file has a backup that holds
what the file held before, and all but touched files and their backups is as it
was. -/
structure Tracks (before : Disk) (here : Location) (editor : Editor) (disk : Disk) : Prop where
  named : ∀ entry ∈ editor.backups, ∃ source, IsSource here source ∧ entry.1 = .ofLocation source
  kept : ∀ location, ¬ Touched here editor location →
    (∀ source, Touched here editor source → location ≠ backupPlace editor.stamp.millis source) →
    disk.get? location = before.get? location
  saved : ∀ source, Touched here editor source → ∃ bytes,
    before.get? source = some (.file bytes) ∧
      before.get? (backupPlace editor.stamp.millis source) ≠ some .directory ∧
      disk.get? (backupPlace editor.stamp.millis source) = some (.file bytes)
  present : ∀ source, Touched here editor source → ∃ bytes, disk.get? source = some (.file bytes)

namespace Tracks

theorem start (before : Disk) (here : Location) (stamp : Stamp) :
    Tracks before here { stamp } before := by
  have hnone : ∀ source, ¬ Touched here { stamp } source := fun source htouched => by
    simpa [Editor.has_iff] using htouched.2
  exact ⟨by simp, fun _ _ _ => rfl, fun source h => absurd h (hnone source),
    fun source h => absurd h (hnone source)⟩

theorem alike (tracks : Tracks before here editor disk) (halike : Alike disk after) :
    Tracks before here editor after := by
  refine ⟨tracks.named, ?_, ?_, ?_⟩
  · intro location hplace hbackup
    rw [halike.get?]
    exact tracks.kept location hplace hbackup
  · intro source hsource
    rw [halike.get?]
    exact tracks.saved source hsource
  · intro source hsource
    rw [halike.get?]
    exact tracks.present source hsource

/-- No link comes about. -/
theorem noNewLinks (tracks : Tracks before here editor disk) : NoNewLinks before disk := by
  intro location target hlink
  by_cases htouched : Touched here editor location
  · obtain ⟨bytes, hfile⟩ := tracks.present location htouched
    simp [hfile] at hlink
  by_cases hbackup : ∃ source, Touched here editor source ∧
      location = backupPlace editor.stamp.millis source
  · obtain ⟨source, hsource, rfl⟩ := hbackup
    obtain ⟨bytes, -, -, hfile⟩ := tracks.saved source hsource
    simp [hfile] at hlink
  · rwa [← tracks.kept location htouched fun source h hsame => hbackup ⟨source, h, hsame⟩]

/-- Writing a touched file keeps track. -/
theorem write (tracks : Tracks before here editor disk) (hmillis : IsDigits editor.stamp.millis)
    (htouched : Touched here editor source) (hstored : Stored disk source bytes after) :
    Tracks before here editor after := by
  have hget := hstored.get? htouched.1.ne_nil
  refine ⟨tracks.named, ?_, ?_, ?_⟩
  · intro location hplace hbackup
    have hne : location ≠ source := by
      rintro rfl
      exact hplace htouched
    rw [hget, if_neg hne]
    exact tracks.kept location hplace hbackup
  · intro other hother
    rw [hget, if_neg (htouched.1.ne_backupPlace hmillis.endsWithDigit hother.1).symm]
    exact tracks.saved other hother
  · intro other hother
    rw [hget]
    split
    · exact ⟨bytes, rfl⟩
    · exact tracks.present other hother

/-- A new backup beside an untouched file keeps track. -/
theorem backUp (tracks : Tracks before here editor disk) (hmillis : IsDigits editor.stamp.millis)
    (hsource : IsSource here source) (hnew : ¬ editor.Has (.ofLocation source))
    (hfile : disk.get? source = some (.file bytes))
    (hhold : disk.CanHold (backupPlace editor.stamp.millis source))
    (hstored : Stored disk (backupPlace editor.stamp.millis source) bytes after) :
    Tracks before here (editor.noting (.ofLocation source)) after := by
  have hget := hstored.get? hsource.backupPlace_ne_nil
  -- The file and the place of its backup have not been touched, so they are as before.
  have huntouched : ¬ Touched here editor source := fun htouched => hnew htouched.2
  have hbefore : before.get? source = some (.file bytes) := by
    rw [← tracks.kept source huntouched fun other hother =>
      hsource.ne_backupPlace hmillis.endsWithDigit hother.1]
    exact hfile
  have hfree : before.get? (backupPlace editor.stamp.millis source) ≠ some .directory := by
    rw [← tracks.kept]
    · exact hhold.free
    · exact fun htouched => htouched.1.ne_backupPlace hmillis.endsWithDigit hsource rfl
    · intro other hother hsame
      obtain ⟨rfl, -⟩ := backupPlace_inj hmillis hmillis hsource.ne_nil hother.1.ne_nil hsame
      exact huntouched hother
  have hcases : ∀ other, Touched here (editor.noting (.ofLocation source)) other →
      Touched here editor other ∨ other = source := by
    rintro other ⟨hother, hhas⟩
    rcases Editor.has_noting_iff.mp hhas with hhas | hsame
    · exact .inl ⟨hother, hhas⟩
    · exact .inr ((Path.isSame_ofLocation_iff hsource.named hother.named).mp hsame).symm
  refine ⟨?_, ?_, ?_, ?_⟩
  · intro entry hentry
    rcases List.mem_append.mp hentry with hentry | hentry
    · exact tracks.named entry hentry
    · rw [List.mem_singleton.mp hentry]
      exact ⟨source, hsource, rfl⟩
  · intro location hplace hbackup
    have hgrow : ∀ other, Touched here editor other →
        Touched here (editor.noting (.ofLocation source)) other :=
      fun other hother => ⟨hother.1, Editor.has_noting_iff.mpr (.inl hother.2)⟩
    have hnoted : location ≠ backupPlace editor.stamp.millis source :=
      hbackup source ⟨hsource, editor.has_noting _⟩
    rw [hget, if_neg hnoted]
    exact tracks.kept location (fun h => hplace (hgrow location h))
      fun other hother => hbackup other (hgrow other hother)
  · intro other hother
    rw [Editor.stamp_noting, hget]
    rcases hcases other hother with hearlier | rfl
    · rw [if_neg]
      · exact tracks.saved other hearlier
      · intro hsame
        obtain ⟨rfl, -⟩ := backupPlace_inj hmillis hmillis hearlier.1.ne_nil hsource.ne_nil hsame
        exact huntouched hearlier
    · rw [if_pos rfl]
      exact ⟨bytes, hbefore, hfree, rfl⟩
  · intro other hother
    rw [hget, if_neg (hother.1.ne_backupPlace hmillis.endsWithDigit hsource)]
    rcases hcases other hother with hother | rfl
    · exact tracks.present other hother
    · exact ⟨bytes, hfile⟩

/-- A write to the path of a touched file keeps track, even if it fails. -/
theorem writePath (tracks : Tracks before here editor disk) (project : disk.Project root here)
    (hmillis : IsDigits editor.stamp.millis) (htouched : Touched here editor source)
    (hdirect : disk.Direct source) (bytes : ByteArray) :
    (disk.write (.ofLocation source) bytes).2.Project root here ∧
      Tracks before here editor (disk.write (.ofLocation source) bytes).2 := by
  rcases disk.write_cases (.ofLocation source) bytes with
    ⟨error, after, hwrite, halike⟩ | ⟨location, after, hwrite, htarget, hstored⟩
  · rw [hwrite]
    exact ⟨project.alike halike, tracks.alike halike⟩
  · obtain ⟨rfl, hhold⟩ := (target_source project htouched.1 hdirect).mp htarget
    rw [hwrite]
    exact ⟨project_stored_source project htouched.1 hdirect hhold hstored,
      tracks.write hmillis htouched hstored⟩

/-- One edit keeps track, if its path is that of a source in case there is a
backup in the end. -/
theorem overwrite (tracks : Tracks before here editor disk) (project : disk.Project root here)
    (hmillis : IsDigits editor.stamp.millis) {path : Path} {content : String}
    (hpath : (editor.overwrite disk path content).2.1.Has path →
      ∃ source, IsEditable before here editor.stamp.millis source ∧ path = .ofLocation source) :
    (editor.overwrite disk path content).2.2.Project root here ∧
      Tracks before here (editor.overwrite disk path content).2.1
        (editor.overwrite disk path content).2.2 := by
  rcases editor.overwrite_cases disk path content with
    ⟨_, after, -, halike, hresult⟩ | ⟨backup, editor', disk', hensure, hresult⟩
  · rw [hresult]
    exact ⟨project.alike halike, tracks.alike halike⟩
  · rw [hresult] at hpath ⊢
    rcases editor.ensureBackup_cases disk path with
      ⟨hhas, _, hkept⟩ | ⟨_, _, hfailed, -⟩ |
        ⟨hnew, origin, bytes, location, after, hmade, hfind, htarget, hstored⟩
    · obtain ⟨-, rfl, rfl⟩ : _ ∧ editor = editor' ∧ disk = disk' := by simpa [hkept] using hensure
      obtain ⟨source, heditable, rfl⟩ := hpath hhas
      exact tracks.writePath project hmillis ⟨heditable.isSource, hhas⟩
        (tracks.noNewLinks.direct heditable.direct) _
    · simp [hfailed] at hensure
    · obtain ⟨-, rfl, rfl⟩ : _ ∧ _ = editor' ∧ after = disk' := by simpa [hmade] using hensure
      have hhas := editor.has_noting path
      obtain ⟨source, heditable, rfl⟩ := hpath hhas
      have hsource := heditable.isSource
      have hnow := heditable.later tracks.noNewLinks
      obtain ⟨rfl, hfile⟩ := (find_source project hsource hnow.direct).mp hfind
      obtain ⟨rfl, hhold⟩ := (target_backup project hnow).mp htarget
      rw [Disk.copied_of_ne (hsource.backupPlace_ne _)] at hstored
      have hproject := project_stored_backup project hnow hhold hstored
      have htracks := tracks.backUp hmillis hsource hnew hfile hhold hstored
      exact htracks.writePath hproject hmillis ⟨hsource, hhas⟩
        (htracks.noNewLinks.direct heditable.direct) _

end Tracks

/-! ## Sequences of edits -/

/-- What an editor and a disk can become by edits of paths of some kind. -/
inductive Edits (Named : Path → Prop) (start : Editor × Disk) : Editor × Disk → Prop
  | none : Edits Named start start
  | more {editor : Editor} {disk : Disk} (path : Path) (content : String)
      (earlier : Edits Named start (editor, disk)) (named : Named path) :
      Edits Named start (editor.overwrite disk path content).2

/-- Edits take backups of none but the paths that they edit. -/
theorem Edits.named {Named : Path → Prop} {stamp : Stamp} {final : Editor × Disk}
    (edits : Edits Named ({ stamp }, before) final) : ∀ entry ∈ final.1.backups, Named entry.1 := by
  induction edits with
  | none => simp
  | @more editor disk path content earlier named ih =>
    intro entry hentry
    obtain ⟨-, more, hmore, hpath⟩ := editor.overwrite_grows disk path content
    rw [hmore, List.mem_append] at hentry
    rcases hentry with hentry | hentry
    · exact ih entry hentry
    · rw [hpath entry hentry]
      exact named

/-- Edits keep track, if their paths are those of sources as far as there are
backups in the end. -/
theorem Edits.tracks {Named : Path → Prop} {stamp : Stamp} {final : Editor × Disk}
    (edits : Edits Named ({ stamp }, before) final) (project : before.Project root here)
    (hmillis : IsDigits stamp.millis)
    (hnamed : ∀ path, Named path → final.1.Has path →
      ∃ source, IsEditable before here stamp.millis source ∧ path = .ofLocation source) :
    final.1.stamp = stamp ∧ final.2.Project root here ∧ Tracks before here final.1 final.2 := by
  induction edits with
  | none => exact ⟨rfl, project, .start before here stamp⟩
  | @more editor disk path content earlier named ih =>
    obtain ⟨hstamp, more, hmore, -⟩ := editor.overwrite_grows disk path content
    obtain ⟨hstart, hproject, htracks⟩ := ih fun other hother hhas =>
      hnamed other hother (hhas.grow hmore)
    rw [← hstart] at hmillis hnamed
    obtain ⟨hproject, htracks⟩ := htracks.overwrite hproject hmillis (hnamed path named)
    exact ⟨hstamp.trans hstart, hproject, htracks⟩

end Deadwood.Fix
