/-
# Disks of one outline

The directories and the links of a disk are its outline. Where a file is written
depends on the outline alone: files may come and change, and every path still leads to
the same place.

Writing some files one after the other leaves the outline as it is, and the last
write to a place decides what stands there. A tree is given by what stands at its
places.
-/

import Deadwood.Proofs.Disk.Ends
import Mathlib.Data.List.Induction
import Mathlib.Data.List.Sort

namespace Deadwood.Disk

open Deadwood.Path (IsName)

variable {disk other after : Disk} {path root : Path} {here inner location : Location}
  {name : String} {bytes : ByteArray} {writes : List (Location × ByteArray)}

/-! ## Outlines -/

/-- Two disks with the same directories and links, on which paths begin at the same
place. -/
structure SameOutline (disk other : Disk) : Prop where
  working : other.workingDir = disk.workingDir
  keeps : Keeps disk other
  kept : Keeps other disk

namespace SameOutline

theorem refl (disk : Disk) : SameOutline disk disk :=
  ⟨rfl, .refl disk, .refl disk⟩

theorem symm (same : SameOutline disk other) : SameOutline other disk :=
  ⟨same.working.symm, same.kept, same.keeps⟩

theorem trans {middle : Disk} (first : SameOutline disk middle) (second : SameOutline middle other) :
    SameOutline disk other :=
  ⟨second.working.trans first.working, first.keeps.trans second.keeps, second.kept.trans first.kept⟩

theorem of_alike (halike : Alike disk other) : SameOutline disk other :=
  ⟨halike.2, fun location _ hentry _ => (halike.get? location).trans hentry,
    fun location _ hentry _ => (halike.get? location).symm.trans hentry⟩

/-- A file is no part of the outline, and takes no place in it if there is none. -/
theorem put (hne : location ≠ [])
    (hfree : disk.get? location = none ∨ ∃ old, disk.get? location = some (.file old)) :
    SameOutline disk (disk.put location (.file bytes)) := by
  refine ⟨rfl, keeps_of_get? (get?_put hne) hfree, ?_⟩
  intro place entry hentry hfile
  rw [get?_put hne] at hentry
  split at hentry
  · exact absurd (Option.some.inj hentry).symm (hfile bytes)
  · exact hentry

/-- A path to which a file is written leads to the same place on both. -/
theorem target (same : SameOutline disk other) (htarget : disk.target path = .ok location) :
    other.target path = .ok location := by
  obtain ⟨hempty, hzero, hspot⟩ := lookUp_of_target htarget
  have hfree := (get?_of_target htarget).2
  rw [← same.working] at hspot
  have hplace : ∀ place, lookUp other true linkLimit
      (if path.isAbsolute then [] else other.workingDir) path.segments = .ok place →
      other.place path true = .ok place :=
    fun place hlookUp => place_eq_ok_iff.mpr ⟨hempty, hzero, hlookUp⟩
  cases hentry : other.get? location with
  | none =>
    refine target_eq_ok_iff_place.mpr (.inr (hplace _ ?_))
    exact lookUp_missing_of_keeps same.keeps hspot hentry
  | some entry =>
    cases entry with
    | file held =>
      refine target_eq_ok_iff_place.mpr (.inl ⟨.file held, by simp, hplace _ ?_⟩)
      exact lookUp_file_of_keeps same.keeps hspot hentry
    | directory => simp [same.kept _ _ hentry (by simp)] at hfree
    | link target => simp [same.kept _ _ hentry (by simp)] at hfree

/-- A path that leads to a file leads to the file that is there on the other. -/
theorem place_file (same : SameOutline disk other) {follow : Bool} {old : ByteArray}
    (hplace : disk.place path follow = .ok (.found location (.file old)))
    (hfile : other.get? location = some (.file bytes)) :
    other.place path follow = .ok (.found location (.file bytes)) :=
  same.keeps.place_file same.working hplace hfile

/-- A file that is written to a path is found there. -/
theorem find_of_target (same : SameOutline disk other) (htarget : disk.target path = .ok location)
    (hfile : other.get? location = some (.file bytes)) :
    other.find path = .ok (location, .file bytes) := by
  obtain ⟨hempty, hzero, hspot⟩ := lookUp_of_target htarget
  rw [find_eq_ok_iff_place, place_eq_ok_iff, same.working]
  exact ⟨hempty, hzero, lookUp_file_of_keeps same.keeps hspot hfile⟩

theorem find_directory (same : SameOutline disk other)
    (hfind : disk.find path = .ok (here, .directory)) :
    other.find path = .ok (here, .directory) :=
  same.keeps.find_directory same.working hfind

end SameOutline

/-! ## Tables -/

/-- Two trees list the same of what they agree on. -/
theorem IsTree.filter_entries (tree : disk.IsTree) (htree : other.IsTree) (counts : Location → Bool)
    (hsame : ∀ location, counts location = true → other.get? location = disk.get? location) :
    other.entries.filter (counts ·.1) = disk.entries.filter (counts ·.1) := by
  have : Std.Irrefl fun first second : Location × Entry => first.1 < second.1 :=
    ⟨fun _ => List.lt_irrefl _⟩
  have : Std.Antisymm fun first second : Location × Entry => first.1 < second.1 :=
    ⟨fun _ _ hless hmore => absurd (List.lt_trans hless hmore) (List.lt_irrefl _)⟩
  refine (htree.ordered.filter _).eq_of_mem_iff (tree.ordered.filter _) ?_
  rintro ⟨location, entry⟩
  rw [List.mem_filter, List.mem_filter, tree.mem_entries_iff, htree.mem_entries_iff]
  refine and_congr_left fun hcounts => ?_
  rw [hsame location hcounts]

/-- A tree is given by what stands at its places. -/
theorem IsTree.entries_eq (tree : disk.IsTree) (htree : other.IsTree)
    (hsame : ∀ location, other.get? location = disk.get? location) :
    other.entries = disk.entries := by
  simpa using tree.filter_entries htree (fun _ => true) fun location _ => hsame location

theorem IsTree.eq_of_get? (tree : disk.IsTree) (htree : other.IsTree)
    (hsame : ∀ location, other.get? location = disk.get? location)
    (hworking : other.workingDir = disk.workingDir) (htroubles : other.troubles = disk.troubles) :
    other = disk := by
  have hentries := tree.entries_eq htree hsame
  cases disk
  cases other
  simp_all

/-! ## Walks -/

variable {prunes : Path → String → Bool}

theorem filesBelow_of_file (hroot : disk.place root false = .ok (.found location (.file bytes))) :
    disk.filesBelow root prunes = [root] := by
  simp [filesBelow, walk, hroot]

/-- Nothing is found below a path that leads neither to a directory nor to a file. -/
theorem filesBelow_of_neither (hdirectory : ∀ here, disk.find root ≠ .ok (here, .directory))
    (hfile : ∀ location bytes, disk.place root false ≠ .ok (.found location (.file bytes))) :
    disk.filesBelow root prunes = [] := by
  rw [filesBelow, walk]
  split
  · rename_i here hplace
    refine absurd (find_eq_ok_iff_place.mpr ?_) (hdirectory here)
    rw [place_eq_ok_iff] at hplace ⊢
    exact ⟨hplace.1, hplace.2.1, lookUp_directory_of_keeps (fun _ => rfl)
      (fun _ _ hentry _ => hentry) hplace.2.2⟩
  · rename_i there held hplace
    exact absurd hplace (hfile there held)
  · split
    · rename_i here hfind
      exact absurd hfind (hdirectory here)
    · rfl
  · rfl

/-- A walk finds files that stand where their paths lead: its root alone, or files below
a directory. -/
theorem IsTree.place_of_mem_filesBelow (tree : disk.IsTree)
    (hpath : path ∈ disk.filesBelow root prunes) :
    ∃ location bytes, disk.place path false = .ok (.found location (.file bytes)) ∧
      (path = root ∨ ∃ here names, disk.find root = .ok (here, .directory) ∧
        path = root.down names ∧ location = here ++ names) := by
  by_cases hdirectory : ∃ here, disk.find root = .ok (here, .directory)
  · obtain ⟨here, hroot⟩ := hdirectory
    obtain ⟨names, bytes, hne, hfile, -, rfl⟩ := (tree.mem_filesBelow_iff hroot).mp hpath
    exact ⟨_, bytes, tree.place_down hroot hne hfile false, .inr ⟨here, names, hroot, rfl, rfl⟩⟩
  · by_cases hroot : ∃ location bytes, disk.place root false = .ok (.found location (.file bytes))
    · obtain ⟨location, bytes, hroot⟩ := hroot
      rw [filesBelow_of_file hroot, List.mem_singleton] at hpath
      subst hpath
      exact ⟨location, bytes, hroot, .inl rfl⟩
    · rw [not_exists] at hdirectory
      simp only [not_exists] at hroot
      simp [filesBelow_of_neither hdirectory hroot] at hpath

/-- A walk finds no file twice. -/
theorem IsTree.eq_of_mem_filesBelow (tree : disk.IsTree) {first second : Path}
    (hfirst : first ∈ disk.filesBelow root prunes) (hsecond : second ∈ disk.filesBelow root prunes)
    {held : ByteArray} (hplace : disk.place first false = .ok (.found location (.file bytes)))
    (hother : disk.place second false = .ok (.found location (.file held))) : first = second := by
  obtain ⟨there, _, hthere, hfirst⟩ := tree.place_of_mem_filesBelow hfirst
  obtain ⟨there', _, hthere', hsecond⟩ := tree.place_of_mem_filesBelow hsecond
  obtain ⟨rfl, -⟩ : there = location ∧ _ := by simpa using hthere.symm.trans hplace
  obtain ⟨rfl, -⟩ : there' = there ∧ _ := by simpa using hthere'.symm.trans hother
  have hnot : ∀ {here held}, disk.place root false = .ok (.found there' (.file held)) →
      disk.find root ≠ .ok (here, .directory) := by
    intro here held hfile hdirectory
    simp [find_of_place_file hfile] at hdirectory
  rcases hfirst with rfl | ⟨here, names, hroot, rfl, hnames⟩
  · rcases hsecond with rfl | ⟨here, names, hroot, -, -⟩
    · rfl
    · exact absurd hroot (hnot hplace)
  · rcases hsecond with rfl | ⟨here', names', hroot', rfl, hnames'⟩
    · exact absurd hroot (hnot hother)
    · obtain rfl : here = here' := by simpa using hroot.symm.trans hroot'
      rw [List.append_cancel_left (hnames.symm.trans hnames')]

/-! ## Many files -/

/-- Puts files at places, one after the other. -/
def putAll (disk : Disk) (writes : List (Location × ByteArray)) : Disk :=
  writes.foldl (fun disk (location, bytes) => disk.put location (.file bytes)) disk

theorem putAll_concat (disk : Disk) (writes : List (Location × ByteArray)) (location : Location)
    (bytes : ByteArray) :
    disk.putAll (writes ++ [(location, bytes)]) =
      (disk.putAll writes).put location (.file bytes) := by
  simp [putAll]

@[simp]
theorem workingDir_putAll (disk : Disk) (writes : List (Location × ByteArray)) :
    (disk.putAll writes).workingDir = disk.workingDir := by
  induction writes using List.reverseRecOn with
  | nil => rfl
  | append_singleton writes write ih => rw [putAll_concat, ← ih]; rfl

@[simp]
theorem troubles_putAll (disk : Disk) (writes : List (Location × ByteArray)) :
    (disk.putAll writes).troubles = disk.troubles := by
  induction writes using List.reverseRecOn with
  | nil => rfl
  | append_singleton writes write ih => rw [putAll_concat, ← ih]; rfl

/-- The last file that is put at a place stands there. -/
theorem get?_putAll (disk : Disk) (hne : ∀ write ∈ writes, write.1 ≠ []) (location : Location) :
    (disk.putAll writes).get? location =
      ((writes.reverse.lookup location).map .file).or (disk.get? location) := by
  induction writes using List.reverseRecOn with
  | nil => simp [putAll]
  | append_singleton writes write ih =>
    obtain ⟨place, bytes⟩ := write
    rw [putAll_concat, get?_put (hne (place, bytes) (by simp)),
      ih fun write hwrite => hne write (List.mem_append_left _ hwrite), List.reverse_concat,
      List.lookup_cons]
    by_cases hplace : location = place
    · simp [hplace]
    · simp [hplace, beq_eq_false_iff_ne.mpr hplace]

/-- Putting the same files once more changes nothing at any place. -/
theorem get?_putAll_putAll (hne : ∀ write ∈ writes, write.1 ≠ [])
    (hsame : ∀ location, other.get? location = (disk.putAll writes).get? location)
    (location : Location) : (other.putAll writes).get? location = other.get? location := by
  rw [get?_putAll other hne, hsame, get?_putAll disk hne, ← Option.or_assoc, Option.or_self]

theorem mem_of_lookup_reverse (hlast : writes.reverse.lookup location = some bytes) :
    (location, bytes) ∈ writes := by
  obtain ⟨before, after, hwrites, -⟩ := List.lookup_eq_some_iff.mp hlast
  rw [← List.mem_reverse, hwrites]
  simp

/-- A place where a file can be put: a name in a directory, where neither a directory
nor a link stands. -/
structure IsSpot (disk : Disk) (inner : Location) (name : String) : Prop where
  around : disk.get? inner = some .directory
  fits : FitsName name
  free : disk.get? (inner ++ [name]) = none ∨ ∃ old, disk.get? (inner ++ [name]) = some (.file old)

theorem SameOutline.isSpot (same : SameOutline disk other) (spot : disk.IsSpot inner name) :
    other.IsSpot inner name := by
  refine ⟨same.keeps _ _ spot.around (by simp), spot.fits, ?_⟩
  cases hentry : other.get? (inner ++ [name]) with
  | none => exact .inl rfl
  | some entry =>
    cases entry with
    | file old => exact .inr ⟨old, rfl⟩
    | directory => simpa [same.kept _ _ hentry (by simp)] using spot.free
    | link target => simpa [same.kept _ _ hentry (by simp)] using spot.free

/-- Files that are put at such places leave the outline as it is, and a tree a
tree. -/
theorem IsTree.putAll (tree : disk.IsTree)
    (hspots : ∀ write ∈ writes, ∃ inner name, write.1 = inner ++ [name] ∧ disk.IsSpot inner name) :
    (disk.putAll writes).IsTree ∧ SameOutline disk (disk.putAll writes) := by
  induction writes using List.reverseRecOn with
  | nil => exact ⟨tree, .refl disk⟩
  | append_singleton writes write ih =>
    obtain ⟨place, bytes⟩ := write
    obtain ⟨htree, same⟩ := ih fun write hwrite => hspots write (List.mem_append_left _ hwrite)
    obtain ⟨inner, name, hplace, spot⟩ := hspots (place, bytes) (by simp)
    obtain rfl : place = inner ++ [name] := hplace
    have spot := same.isSpot spot
    rw [putAll_concat]
    refine ⟨htree.put spot.around spot.fits ?_, same.trans (.put (by simp) spot.free)⟩
    rcases spot.free with hnone | ⟨old, hfile⟩
    · simp [hnone]
    · simp [hfile]

end Deadwood.Disk
