/-
# Sessions of the editor

An editor is handed files to back up and to write, in any order, while other
programs change files on the same disk. A `Session` is such a history. Beside the
state of the editor and of the disk it carries what the files held when their
first backup was taken.

A call must be `Clear`. Two paths that name one entry of a directory are two files
to the editor, so the second backup would go over the first; and behind a link may
stand a backup. All that a session does then keeps `Guards`: the backups hold what
was noted, however the calls and the writes of others end.
-/

import Deadwood.Proofs.Disk.Ends
import Deadwood.Proofs.Fix.Edits

namespace Deadwood.Fix

open Disk (Alike Stored Keeps NamesIn)

variable {disk other after : Disk} {path : Path} {inner location : Location} {editor : Editor}
  {name millis : String} {bytes : ByteArray} {saved : List (Path × ByteArray)}

/-! ## Sessions -/

/-- What has been noted behind a call: the bytes of a file of which the call takes
the first backup. -/
def noted (editor : Editor) (disk : Disk) (path : Path) (saved : List (Path × ByteArray)) :
    List (Path × ByteArray) :=
  match editor.backupOf? path, (editor.ensureBackup disk path).1, disk.read path with
  | none, .ok _, .ok bytes => saved ++ [(path, bytes)]
  | _, _, _ => saved

/-- A path that an editor can be handed: no other path with a backup names the same
entry of a directory, the backup goes to no link, and a link leads to a file that is
named as code is. -/
structure Clear (editor : Editor) (disk : Disk) (path : Path) : Prop where
  apart : ∀ entry ∈ editor.backups, entry.1.isSame path = false → ∀ inner name,
    disk.NamesIn path inner name → ¬ disk.NamesIn entry.1 inner name
  beside : ∀ inner name, disk.NamesIn path inner name → ∀ target,
    disk.get? (inner ++ [backupName name editor.stamp.millis]) ≠ some (.link target)
  behind : ∀ inner name target, disk.NamesIn path inner name →
    disk.get? (inner ++ [name]) = some (.link target) → ∀ location,
    disk.target path = .ok location → ∃ front last, location = front ++ [last] ∧ EndsAsCode last

/-- The histories of an editor on a disk that others change as well. Those leave
directories, links and the backups taken so far in place. -/
inductive Session (stamp : Stamp) : Editor → Disk → List (Path × ByteArray) → Prop
  | start (disk : Disk) : Session stamp { stamp } disk []
  | backUp {editor : Editor} {disk : Disk} {saved : List (Path × ByteArray)}
      (session : Session stamp editor disk saved) (path : Path)
      (hkind : (FileKind.ofPath? path).isSome = true) (hclear : Clear editor disk path) :
      Session stamp (editor.ensureBackup disk path).2.1 (editor.ensureBackup disk path).2.2
        (noted editor disk path saved)
  | overwrite {editor : Editor} {disk : Disk} {saved : List (Path × ByteArray)}
      (session : Session stamp editor disk saved) (path : Path) (content : String)
      (hkind : (FileKind.ofPath? path).isSome = true) (hclear : Clear editor disk path) :
      Session stamp (editor.overwrite disk path content).2.1
        (editor.overwrite disk path content).2.2 (noted editor disk path saved)
  | others {editor : Editor} {disk : Disk} {saved : List (Path × ByteArray)}
      (session : Session stamp editor disk saved) (other : Disk) (hkeeps : Keeps disk other)
      (hworking : other.workingDir = disk.workingDir)
      (hbackups : ∀ entry ∈ editor.backups, ∀ location bytes,
        disk.find entry.2 = .ok (location, .file bytes) →
        other.get? location = some (.file bytes)) :
      Session stamp editor other saved

/-! ## Paths of backups -/

/-- The backup of a file stands beside it. -/
theorem namesIn_backup (hnames : disk.NamesIn path inner name) (hname : path.name? = some name)
    (hmillis : FitsInName millis) :
    disk.NamesIn (path.backup millis) inner (backupName name millis) := by
  have hbackup : path.backup millis = path.withName (backupName name millis) := by
    rw [Path.backup, hname, Option.getD_some, backupName]
  rw [hbackup]
  exact hnames.withName (isName_backupName hnames.isName hmillis)

/-- What is named as code is has no place of a backup. -/
theorem ne_backup_of_endsAsCode {front : Location} {last : String} (hcode : EndsAsCode last)
    (hdigit : EndsWithDigit millis) : front ++ [last] ≠ inner ++ [backupName name millis] := by
  intro hsame
  obtain ⟨-, hlast⟩ := List.append_inj' hsame rfl
  rw [List.singleton_inj] at hlast
  exact (hlast ▸ hcode).not_endsWithDigit (hdigit.append (name ++ ".bak."))

/-- A clear path is written under a name that code has. -/
theorem Clear.endsAsCode (hclear : Clear editor disk path)
    (hkind : (FileKind.ofPath? path).isSome = true) (htarget : disk.target path = .ok location) :
    ∃ front last, location = front ++ [last] ∧ EndsAsCode last := by
  obtain ⟨inner, name, hnames, hname⟩ := Disk.exists_namesIn_of_target htarget
  by_cases hlink : ∃ target, disk.get? (inner ++ [name]) = some (.link target)
  · obtain ⟨target, hlink⟩ := hlink
    exact hclear.behind inner name target hnames hlink location htarget
  · obtain ⟨kind, hkind⟩ := Option.isSome_iff_exists.mp hkind
    exact ⟨inner, name, hnames.target (not_exists.mp hlink) htarget, endsAsCode_of_kind hkind hname⟩

/-! ## What sessions keep -/

/-- The backups that an editor has taken are those of the files noted, and hold what
was noted. -/
structure Guards (editor : Editor) (disk : Disk) (saved : List (Path × ByteArray)) : Prop where
  recorded : editor.backups =
    saved.map fun entry => (entry.1, entry.1.backup editor.stamp.millis)
  distinct : saved.Pairwise fun first second => first.1.isSame second.1 = false
  kept : ∀ entry ∈ saved, ∃ inner name, disk.NamesIn entry.1 inner name ∧
    disk.find (entry.1.backup editor.stamp.millis) =
      .ok (inner ++ [backupName name editor.stamp.millis], .file entry.2)

namespace Guards

theorem start (stamp : Stamp) (disk : Disk) : Guards { stamp } disk [] :=
  ⟨rfl, .nil, by simp⟩

/-- Where the backups hold what they held, they are still found. -/
theorem keeps (guards : Guards editor disk saved) (hkeeps : Keeps disk other)
    (hworking : other.workingDir = disk.workingDir)
    (hbackups : ∀ entry ∈ saved, ∀ location bytes,
      disk.find (entry.1.backup editor.stamp.millis) = .ok (location, .file bytes) →
      other.get? location = some (.file bytes)) :
    Guards editor other saved := by
  refine ⟨guards.recorded, guards.distinct, ?_⟩
  intro entry hentry
  obtain ⟨inner, name, hnames, hfind⟩ := guards.kept entry hentry
  refine ⟨inner, name, hnames.keeps hkeeps hworking, ?_⟩
  exact Disk.find_eq_ok_iff_place.mpr (hkeeps.place_file hworking
    (Disk.find_eq_ok_iff_place.mp hfind) (hbackups entry hentry _ _ hfind))

theorem alike (guards : Guards editor disk saved) (halike : Alike disk other) :
    Guards editor other saved := by
  refine guards.keeps (fun location entry hentry _ => halike.get? location ▸ hentry) halike.2 ?_
  intro entry _ location bytes hfind
  rw [halike.get?]
  exact (Disk.get?_of_find_file hfind).2

/-- A file that is stored at the place of no backup leaves all backups as they are. -/
theorem stored (guards : Guards editor disk saved) (htarget : disk.target path = .ok location)
    (hstored : Stored disk location bytes after)
    (hfree : ∀ entry ∈ saved, ∀ inner name, disk.NamesIn entry.1 inner name →
      location ≠ inner ++ [backupName name editor.stamp.millis]) :
    Guards editor after saved := by
  refine guards.keeps (hstored.keeps htarget) hstored.workingDir ?_
  intro entry hentry place held hfind
  obtain ⟨inner, name, hnames, hkept⟩ := guards.kept entry hentry
  obtain ⟨rfl, -⟩ : place = inner ++ [backupName name editor.stamp.millis] ∧ _ := by
    simpa [hkept, eq_comm] using hfind
  rw [hstored.get? (Disk.get?_of_target htarget).1, if_neg (hfree entry hentry inner name hnames).symm]
  exact (Disk.get?_of_find_file hfind).2

/-- The editor has a backup of the files noted. -/
theorem has_iff (guards : Guards editor disk saved) :
    editor.Has path ↔ ∃ entry ∈ saved, entry.1.isSame path = true := by
  simp [Editor.has_iff, guards.recorded]

end Guards

/-! ## One call -/

theorem Editor.ensureBackup_stamp (editor : Editor) (disk : Disk) (path : Path) :
    (editor.ensureBackup disk path).2.1.stamp = editor.stamp := by
  rcases editor.ensureBackup_cases disk path with
    ⟨-, _, hensure⟩ | ⟨_, _, hensure, -⟩ | ⟨-, _, _, _, _, hensure, -⟩ <;>
    simp [hensure, Editor.noting]

theorem noted_of_has (hhas : editor.Has path) : noted editor disk path saved = saved := by
  obtain ⟨backup, hbackup⟩ := Option.isSome_iff_exists.mp hhas
  simp [noted, hbackup]

theorem noted_of_error {error : DiskError} (hfailed : (editor.ensureBackup disk path).1 = .error error) :
    noted editor disk path saved = saved := by
  simp [noted, hfailed]

theorem noted_of_ok {backup : Path} (hnew : ¬ editor.Has path)
    (htaken : (editor.ensureBackup disk path).1 = .ok backup)
    (hfind : disk.find path = .ok (location, .file bytes)) :
    noted editor disk path saved = saved ++ [(path, bytes)] := by
  have hnone : editor.backupOf? path = none := by simpa [Editor.Has] using hnew
  have hread : disk.read path = .ok bytes := by
    rw [Disk.read, hfind]
    rfl
  simp [noted, hnone, htaken, hread]

namespace Guards

/-- A new backup goes to a place of its own. -/
theorem backUp (guards : Guards editor disk saved) (hmillis : FitsInName editor.stamp.millis)
    (hdigit : EndsWithDigit editor.stamp.millis) (hkind : (FileKind.ofPath? path).isSome = true)
    (hclear : Clear editor disk path) :
    Guards (editor.ensureBackup disk path).2.1 (editor.ensureBackup disk path).2.2
      (noted editor disk path saved) := by
  rcases editor.ensureBackup_cases disk path with
    ⟨hhas, backup, hensure⟩ | ⟨error, after, hensure, halike⟩ |
      ⟨hnew, origin, bytes, location, after, hensure, hfind, htarget, hstored⟩
  · rw [noted_of_has hhas, hensure]
    exact guards
  · rw [noted_of_error (congrArg Prod.fst hensure), hensure]
    exact guards.alike halike
  rw [noted_of_ok hnew (congrArg Prod.fst hensure) hfind, hensure]
  obtain ⟨inner, name, hnames, hname⟩ :=
    Disk.exists_namesIn_of_target (Disk.target_of_find_file hfind)
  obtain rfl : location = inner ++ [backupName name editor.stamp.millis] :=
    (namesIn_backup hnames hname hmillis).target (hclear.beside inner name hnames) htarget
  obtain ⟨front, last, rfl, hcode⟩ := hclear.endsAsCode hkind (Disk.target_of_find_file hfind)
  rw [Disk.copied_of_ne (ne_backup_of_endsAsCode hcode hdigit).symm] at hstored
  have hother : ∀ entry ∈ saved, entry.1.isSame path = false := by
    intro entry hentry
    by_contra hsame
    exact hnew (guards.has_iff.mpr ⟨entry, hentry, by simpa using hsame⟩)
  have hguards : Guards editor after saved := by
    refine guards.stored htarget hstored fun entry hentry inner' name' hnames' hsame => ?_
    -- The same place would make the same directory and the same name.
    obtain ⟨rfl, hlast⟩ := List.append_inj' hsame rfl
    obtain rfl : name = name' := by simpa [backupName] using hlast
    refine hclear.apart (entry.1, entry.1.backup editor.stamp.millis) ?_ (hother entry hentry)
      inner name hnames hnames'
    rw [guards.recorded]
    exact List.mem_map_of_mem hentry
  refine ⟨by simp [guards.recorded, Editor.noting], ?_, ?_⟩
  · refine List.pairwise_append.mpr ⟨guards.distinct, List.pairwise_singleton _ _, ?_⟩
    simpa using hother
  · intro entry hentry
    rcases List.mem_append.mp hentry with hold | hold
    · exact hguards.kept entry hold
    · obtain rfl := List.mem_singleton.mp hold
      exact ⟨inner, name, hnames.keeps (hstored.keeps htarget) hstored.workingDir,
        hstored.find htarget⟩

/-- A write goes to the place of no backup. -/
theorem write (guards : Guards editor disk saved) (hdigit : EndsWithDigit editor.stamp.millis)
    (hcode : ∀ location, disk.target path = .ok location →
      ∃ front last, location = front ++ [last] ∧ EndsAsCode last) (content : ByteArray) :
    Guards editor (disk.write path content).2 saved := by
  rcases disk.write_cases path content with
    ⟨error, after, hwrite, halike⟩ | ⟨location, after, hwrite, htarget, hstored⟩
  · rw [hwrite]
    exact guards.alike halike
  · rw [hwrite]
    obtain ⟨front, last, rfl, hlast⟩ := hcode location htarget
    exact guards.stored htarget hstored fun _ _ _ _ _ => ne_backup_of_endsAsCode hlast hdigit

end Guards

/-- Seeing to a backup leaves a path leading to the file that it led to. -/
theorem target_of_ensureBackup {backup : Path} {editor' : Editor}
    (hensure : editor.ensureBackup disk path = (.ok backup, editor', after))
    (htarget : after.target path = .ok location) : disk.target path = .ok location := by
  rcases editor.ensureBackup_cases disk path with
    ⟨-, _, hkept⟩ | ⟨_, _, hfailed, -⟩ | ⟨-, origin, bytes, beside, after', hnew, hfind, hbeside, hstored⟩
  · obtain ⟨-, -, rfl⟩ : _ ∧ _ ∧ disk = after := by simpa [hkept] using hensure
    exact htarget
  · simp [hfailed] at hensure
  · obtain ⟨-, -, rfl⟩ : _ ∧ _ ∧ after' = after := by simpa [hnew] using hensure
    -- Also where the backup is the file itself there is a file now.
    obtain ⟨held, hheld⟩ : ∃ held, after'.get? origin = some (.file held) := by
      rw [hstored.get? (Disk.get?_of_target hbeside).1]
      split
      · exact ⟨_, rfl⟩
      · exact ⟨bytes, (Disk.get?_of_find_file hfind).2⟩
    have hagain := (hstored.keeps hbeside).place_file hstored.workingDir
      (Disk.find_eq_ok_iff_place.mp hfind) hheld
    have hsame := Disk.target_of_find_file (Disk.find_eq_ok_iff_place.mpr hagain)
    obtain rfl : origin = location := Except.ok.inj (hsame.symm.trans htarget)
    exact Disk.target_of_find_file hfind

namespace Guards

theorem overwrite (guards : Guards editor disk saved) (hmillis : FitsInName editor.stamp.millis)
    (hdigit : EndsWithDigit editor.stamp.millis) (hkind : (FileKind.ofPath? path).isSome = true)
    (hclear : Clear editor disk path) (content : String) :
    Guards (editor.overwrite disk path content).2.1 (editor.overwrite disk path content).2.2
      (noted editor disk path saved) := by
  have hbackUp := guards.backUp hmillis hdigit hkind hclear
  have hstamp := editor.ensureBackup_stamp disk path
  rcases editor.overwrite_cases disk path content with
    ⟨error, after, hensure, -, hresult⟩ | ⟨backup, editor', disk', hensure, hresult⟩
  · rw [hresult]
    rw [hensure] at hbackUp
    exact hbackUp
  · rw [hresult]
    rw [hensure] at hbackUp hstamp
    exact hbackUp.write (hstamp ▸ hdigit) (fun location htarget =>
      hclear.endsAsCode hkind (target_of_ensureBackup hensure htarget)) content.toUTF8

end Guards

/-- All that happens in a session keeps the backups. -/
theorem Session.guards {millis : Int} {stamp : Stamp} (hstamp : Stamp.ofMillis? millis = some stamp)
    (session : Session stamp editor disk saved) : editor.stamp = stamp ∧ Guards editor disk saved := by
  have hmillis := fitsInName_of_ofMillis? hstamp
  have hdigit := endsWithDigit_of_ofMillis? hstamp
  induction session with
  | start disk => exact ⟨rfl, .start stamp disk⟩
  | @backUp editor disk saved _ path hkind hclear ih =>
    obtain ⟨rfl, guards⟩ := ih
    exact ⟨editor.ensureBackup_stamp disk path, guards.backUp hmillis hdigit hkind hclear⟩
  | @overwrite editor disk saved _ path content hkind hclear ih =>
    obtain ⟨rfl, guards⟩ := ih
    exact ⟨(editor.overwrite_grows disk path content).1,
      guards.overwrite hmillis hdigit hkind hclear content⟩
  | @others editor disk saved _ other hkeeps hworking hbackups ih =>
    obtain ⟨rfl, guards⟩ := ih
    refine ⟨rfl, guards.keeps hkeeps hworking ?_⟩
    intro entry hentry
    refine hbackups (entry.1, entry.1.backup editor.stamp.millis) ?_
    rw [guards.recorded]
    exact List.mem_map_of_mem hentry

/-- At every point of a session each path with a backup has, at the path of the
backup, what its file held when the first backup of it was taken. Paths with a
backup differ from each other. A call for such a path takes no other backup, and a
call whose copy fails leaves all files and the list of backups as they were. -/
theorem session_backups_hold {millis : Int} {stamp : Stamp}
    (hstamp : Stamp.ofMillis? millis = some stamp) (session : Session stamp editor disk saved) :
    (editor.backups = saved.map fun entry => (entry.1, entry.1.backup stamp.millis)) ∧
    (∀ entry ∈ saved, disk.read (entry.1.backup stamp.millis) = .ok entry.2) ∧
    (saved.Pairwise fun first second => first.1.isSame second.1 = false) ∧
    editor.backups.length = saved.length ∧
    (∀ path content, editor.Has path →
      (editor.ensureBackup disk path).2 = (editor, disk) ∧
      (editor.overwrite disk path content).2 = (editor, (disk.write path content.toUTF8).2)) ∧
    (∀ path content error, (editor.ensureBackup disk path).1 = .error error →
      ∃ after, Alike disk after ∧ editor.ensureBackup disk path = (.error error, editor, after) ∧
        editor.overwrite disk path content = (some error, editor, after)) := by
  obtain ⟨rfl, guards⟩ := session.guards hstamp
  refine ⟨guards.recorded, ?_, guards.distinct, by simp [guards.recorded], ?_, ?_⟩
  · intro entry hentry
    obtain ⟨inner, name, -, hfind⟩ := guards.kept entry hentry
    rw [Disk.read, hfind]
    rfl
  · intro path content hhas
    obtain ⟨backup, hbackup⟩ := Option.isSome_iff_exists.mp hhas
    simp [Editor.overwrite, Editor.ensureBackup, hbackup]
  · intro path content error hfailed
    rcases editor.ensureBackup_cases disk path with
      ⟨-, _, hensure⟩ | ⟨error', after, hensure, halike⟩ | ⟨-, _, _, _, _, hensure, -⟩
    · simp [hensure] at hfailed
    · obtain rfl : error' = error := by simpa [hensure] using hfailed
      exact ⟨after, halike, hensure, by simp [Editor.overwrite, hensure]⟩
    · simp [hensure] at hfailed

/-! ## A file that others change as well -/

/-- Without links only the names count. -/
theorem clear_of_linkless (hlinkless : ∀ location target, disk.get? location ≠ some (.link target))
    (hapart : ∀ entry ∈ editor.backups, entry.1.isSame path = false →
      entry.1.segments.getLast? ≠ path.segments.getLast?) : Clear editor disk path where
  apart entry hentry hother _ _ hnames hsame :=
    hapart entry hentry hother (hsame.last.trans hnames.last.symm)
  beside _ _ _ target := hlinkless _ target
  behind _ _ target _ hlink := absurd hlink (hlinkless _ target)

def shelfDisk : Disk where
  entries := [(["a.css"], .file "old".toUTF8)]

theorem shelfDisk_project : shelfDisk.Project (.ofLocation []) [] :=
  .ofEntries (by decide) (by decide) (by simp [shelfDisk])

theorem shelfDisk_linkless (location : Location) (target : String) :
    shelfDisk.get? location ≠ some (.link target) :=
  Disk.linkless_of_entries (by simp [shelfDisk]) location target

def shelfStamp : Stamp := ⟨"100", "1970-01-01T00:00:00.100Z"⟩

def shelfSheet : Path := .ofLocation ["a.css"]

def shelfEditor : Editor := ⟨shelfStamp, [(shelfSheet, shelfSheet.backup "100")]⟩

/-- The disk with a backup of the sheet. -/
def backedShelf : Disk := shelfDisk.put ["a.css.bak.100"] (.file "old".toUTF8)

/-- The disk after others have written the sheet. -/
def changedShelf : Disk := backedShelf.put ["a.css"] (.file "else".toUTF8)

theorem session_changedShelf :
    Session shelfStamp shelfEditor changedShelf [(shelfSheet, "old".toUTF8)] := by
  have hsource : IsSource [] ["a.css"] :=
    ⟨[], "a.css", rfl, by decide, 's', by decide, by decide⟩
  have hfind : shelfDisk.find shelfSheet = .ok (["a.css"], .file "old".toUTF8) :=
    (find_source shelfDisk_project hsource fun front _ => shelfDisk_linkless front).mpr ⟨rfl, rfl⟩
  have htarget : shelfDisk.target (shelfSheet.backup shelfStamp.millis) = .ok ["a.css.bak.100"] :=
    (target_backup shelfDisk_project (hsource.isEditable (fun front _ => shelfDisk_linkless front)
      (shelfDisk_linkless _) (by decide) ⟨'0', by decide, by decide⟩)).mpr
      ⟨by decide, by decide, by decide, by decide⟩
  have hnew : ¬ ({ stamp := shelfStamp } : Editor).Has shelfSheet := by simp [Editor.has_iff]
  have hensure :=
    Editor.ensureBackup_calm (show shelfDisk.Calm from rfl) hnew hfind htarget (by decide)
  have hstart : Session shelfStamp { stamp := shelfStamp } shelfDisk [] := .start shelfDisk
  have hbackUp := hstart.backUp shelfSheet (by decide)
    (clear_of_linkless shelfDisk_linkless (by simp))
  rw [noted_of_ok hnew (congrArg Prod.fst hensure) hfind, hensure] at hbackUp
  refine hbackUp.others changedShelf ?_ rfl ?_
  · exact Disk.keeps_of_get? (Disk.get?_put (by simp)) (.inr ⟨"old".toUTF8, by decide⟩)
  · intro entry hentry location bytes hfound
    obtain rfl : entry = (shelfSheet, shelfSheet.backup shelfStamp.millis) := by
      simpa [Editor.noting] using hentry
    have hbacked : Stored shelfDisk ["a.css.bak.100"] "old".toUTF8 backedShelf :=
      ⟨shelfDisk, ⟨rfl, rfl⟩, rfl⟩
    obtain ⟨rfl, rfl⟩ : ["a.css.bak.100"] = location ∧ "old".toUTF8 = bytes := by
      simpa using (hbacked.find htarget).symm.trans hfound
    rfl

/-- A sheet is backed up, changed by others and then written: the backup holds what
it did at first. -/
theorem session_backups_hold_shelf :
    (shelfEditor.overwrite changedShelf shelfSheet "new").2.2.read
      (shelfSheet.backup shelfStamp.millis) = .ok "old".toUTF8 := by
  have hlinkless : ∀ location target, changedShelf.get? location ≠ some (.link target) := by
    intro location target
    rw [changedShelf, Disk.get?_put (by simp), backedShelf, Disk.get?_put (by simp)]
    split
    · simp
    split
    · simp
    · exact shelfDisk_linkless location target
  have hclear : Clear shelfEditor changedShelf shelfSheet :=
    clear_of_linkless hlinkless (by decide)
  have hsaved : noted shelfEditor changedShelf shelfSheet [(shelfSheet, "old".toUTF8)] =
      [(shelfSheet, "old".toUTF8)] := noted_of_has (show (shelfEditor.backupOf? shelfSheet).isSome = true by decide)
  have session := session_changedShelf.overwrite shelfSheet "new" (by decide) hclear
  rw [hsaved] at session
  have hstamp : Stamp.ofMillis? 100 = some shelfStamp := by decide
  exact (session_backups_hold hstamp session).2.1 (shelfSheet, "old".toUTF8) List.mem_cons_self

end Deadwood.Fix
