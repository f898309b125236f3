/-
# Projects on a disk

A project is a directory of a tree, together with a path that leads there. Below such a
root a path with no link on its way leads to the place that its names spell, so finding,
writing, copying and walking by path become statements about places.

A write that runs into trouble leaves a disk alike; any other stores one file.
`Stored` says so, and a project stays one through both.
-/

import Deadwood.Proofs.Disk.LookUp
import Deadwood.Proofs.Shown

namespace Deadwood.Disk

open Deadwood.Path (IsName IsBelow isIdle)

variable {disk other after : Disk} {root path : Path} {here location : Location}
  {names : List String} {entry : Entry} {bytes : ByteArray}

/-! ## What paths lead to on disks alike -/

namespace Alike

theorem place (halike : Alike disk other) (path : Path) (follow : Bool) :
    other.place path follow = disk.place path follow := by
  rw [Disk.place, Disk.place, halike.2, lookUp_congr halike.get?]

theorem find (halike : Alike disk other) (path : Path) : other.find path = disk.find path := by
  rw [Disk.find, Disk.find, halike.place]

theorem target (halike : Alike disk other) (path : Path) :
    other.target path = disk.target path := by
  rw [Disk.target, Disk.target, halike.place]

end Alike

theorem find_eq_ok_iff_place :
    disk.find path = .ok (location, entry) ↔ disk.place path true = .ok (.found location entry) := by
  unfold find
  cases disk.place path true with
  | error error => simp [bind, Except.bind]
  | ok place => cases place <;> simp [bind, Except.bind]

theorem target_eq_ok_iff_place :
    disk.target path = .ok location ↔
      (∃ entry, entry ≠ .directory ∧ disk.place path true = .ok (.found location entry)) ∨
        disk.place path true = .ok (.missing location false) := by
  unfold target
  cases disk.place path true with
  | error error => simp [bind, Except.bind]
  | ok place =>
    cases place with
    | missing there slash => cases slash <;> simp [bind, Except.bind]
    | found there entry => cases entry <;> simp [bind, Except.bind]

/-! ## Storing a file -/

/-- What a disk becomes when a file is put at a place, whatever the writes behind
that run into. -/
def Stored (disk : Disk) (location : Location) (bytes : ByteArray) (after : Disk) : Prop :=
  ∃ other, Alike disk other ∧ after = other.put location (.file bytes)

theorem Stored.get? (hstored : Stored disk location bytes after) (hne : location ≠ [])
    (place : Location) :
    after.get? place = if place = location then some (.file bytes) else disk.get? place := by
  obtain ⟨other, halike, rfl⟩ := hstored
  rw [get?_put hne, halike.get?]

theorem Stored.noNewLinks (hstored : Stored disk location bytes after) (hne : location ≠ []) :
    NoNewLinks disk after := by
  intro place target hlink
  rw [hstored.get? hne] at hlink
  split at hlink
  · simp at hlink
  · exact hlink

private theorem attempt_cases (disk : Disk) (act : Disk → Except DiskError Disk) :
    ∃ other, Alike disk other ∧
      ((∃ error, disk.attempt act = (some error, other)) ∨
        ∃ after, act other = .ok after ∧ disk.attempt act = (none, after)) := by
  refine ⟨{ disk with troubles := disk.troubles.tail }, ⟨rfl, rfl⟩, ?_⟩
  unfold attempt
  split
  · exact .inl ⟨_, rfl⟩
  · cases hact : act { disk with troubles := disk.troubles.tail } with
    | ok after => exact .inr ⟨after, rfl, by simp [hact]⟩
    | error error => exact .inl ⟨error, by simp [hact]⟩

/-- Writing stores the file where its path leads, or changes nothing. -/
theorem write_cases (disk : Disk) (path : Path) (bytes : ByteArray) :
    (∃ error after, disk.write path bytes = (some error, after) ∧ Alike disk after) ∨
      ∃ location after, disk.write path bytes = (none, after) ∧
        disk.target path = .ok location ∧ Stored disk location bytes after := by
  obtain ⟨other, halike, hcases⟩ := disk.attempt_cases fun disk =>
    (disk.target path).map fun location => disk.put location (.file bytes)
  rcases hcases with ⟨error, hfailed⟩ | ⟨after, hact, hdone⟩
  · exact .inl ⟨error, other, hfailed, halike⟩
  · rw [halike.target] at hact
    cases htarget : disk.target path with
    | error error => simp [htarget, Except.map] at hact
    | ok location =>
      simp only [htarget, Except.map, Except.ok.injEq] at hact
      exact .inr ⟨location, after, hdone, rfl, other, halike, hact.symm⟩

theorem copied_of_ne {origin : Location} (hapart : location ≠ origin) (bytes : ByteArray) :
    copied origin location bytes = bytes :=
  if_neg hapart

private theorem copyAct_eq_ok {source target : Path} (halike : Alike disk other)
    (hact : (do
      match ← other.find source with
      | (origin, .file bytes) =>
        (other.target target).map fun location =>
          other.put location (.file (copied origin location bytes))
      | _ => .error .notRegular) = Except.ok after) :
    ∃ origin bytes location, disk.find source = .ok (origin, .file bytes) ∧
      disk.target target = .ok location ∧
      Stored disk location (copied origin location bytes) after := by
  rw [halike.find, halike.target] at hact
  cases hfind : disk.find source with
  | error error => simp [hfind, bind, Except.bind] at hact
  | ok found =>
    obtain ⟨origin, entry⟩ := found
    cases entry with
    | directory => simp [hfind, bind, Except.bind] at hact
    | link inner => simp [hfind, bind, Except.bind] at hact
    | file bytes =>
      cases htarget : disk.target target with
      | error error => simp [hfind, htarget, bind, Except.bind, Except.map] at hact
      | ok location =>
        simp only [hfind, htarget, bind, Except.bind, Except.map, Except.ok.injEq] at hact
        exact ⟨origin, bytes, location, rfl, rfl, other, halike, hact.symm⟩

/-- Copying stores what the first path leads to where the second one leads, or
changes nothing. -/
theorem copy_cases (disk : Disk) (source target : Path) :
    (∃ error after, disk.copy source target = (some error, after) ∧ Alike disk after) ∨
      ∃ origin bytes location after, disk.copy source target = (none, after) ∧
        disk.find source = .ok (origin, .file bytes) ∧ disk.target target = .ok location ∧
        Stored disk location (copied origin location bytes) after := by
  obtain ⟨other, halike, hcases⟩ := disk.attempt_cases fun disk => do
    match ← disk.find source with
    | (origin, .file bytes) =>
      (disk.target target).map fun location =>
        disk.put location (.file (copied origin location bytes))
    | _ => .error .notRegular
  rcases hcases with ⟨error, hfailed⟩ | ⟨after, hact, hdone⟩
  · exact .inl ⟨error, other, hfailed, halike⟩
  · obtain ⟨origin, bytes, location, hfind, htarget, hstored⟩ := copyAct_eq_ok halike hact
    exact .inr ⟨origin, bytes, location, after, hdone, hfind, htarget, hstored⟩

/-- A disk on which no write runs into trouble of its own. -/
def Calm (disk : Disk) : Prop :=
  disk.troubles = []

/-- The disk without its troubles. -/
def calmed (disk : Disk) : Disk :=
  { disk with troubles := [] }

theorem alike_calmed (disk : Disk) : Alike disk disk.calmed := ⟨rfl, rfl⟩

private theorem Calm.attempt (hcalm : disk.Calm) (act : Disk → Except DiskError Disk) :
    disk.attempt act =
      match act disk with
      | .ok after => (none, after)
      | .error error => (some error, disk) := by
  have hsame : ({ disk with troubles := disk.troubles.tail } : Disk) = disk := by
    cases disk
    simp_all [Calm]
  rw [Disk.attempt, hsame, hcalm]
  rfl

/-- On a calm disk a file is copied to wherever a path leads. -/
theorem Calm.copy (hcalm : disk.Calm) {source target : Path} {origin : Location}
    (hfind : disk.find source = .ok (origin, .file bytes))
    (htarget : disk.target target = .ok location) :
    disk.copy source target =
      (none, disk.put location (.file (copied origin location bytes))) := by
  rw [Disk.copy, hcalm.attempt]
  simp [hfind, htarget, bind, Except.bind, Except.map]

/-- On a calm disk a file is written to wherever a path leads. -/
theorem Calm.write (hcalm : disk.Calm) {target : Path} (htarget : disk.target target = .ok location)
    (bytes : ByteArray) : disk.write target bytes = (none, disk.put location (.file bytes)) := by
  rw [Disk.write, hcalm.attempt]
  simp [htarget, Except.map]

/-! ## Below a directory -/

private theorem lookUp_of_find_directory (hroot : disk.find root = .ok (here, .directory)) :
    root.text.toList.any (·.toNat == 0) = false ∧
      lookUp disk true linkLimit (if root.isAbsolute then [] else disk.workingDir) root.segments =
        .ok (.found here .directory) := by
  have hplace := find_eq_ok_iff_place.mp hroot
  unfold place at hplace
  split at hplace
  · simp at hplace
  · split at hplace
    · simp at hplace
    · rename_i hzero
      exact ⟨by simpa using hzero, hplace⟩

theorem noZero_of_find_directory (hroot : disk.find root = .ok (here, .directory)) : root.NoZero :=
  Path.noZero_of_any_eq_false (lookUp_of_find_directory hroot).1

/-- Below a root, the names of a path are looked up from where the root leads. -/
theorem place_below (hroot : disk.find root = .ok (here, .directory))
    (hpath : IsBelow path root names) (hne : names ≠ []) (hnames : ∀ name ∈ names, IsName name) :
    ∃ links, ∀ follow, disk.place path follow = lookUp disk follow links here names := by
  obtain ⟨links, hlinks⟩ := lookUp_append (lookUp_of_find_directory hroot).2
  refine ⟨links, fun follow => ?_⟩
  obtain ⟨front, name, rfl⟩ := Path.exists_append_singleton hne
  have hname := hnames name (by simp)
  have hlast : path.segments.getLast? = some name := by simpa using hpath.last
  have hkept : (front ++ [name]).filter (!isIdle ·) = front ++ [name] := by
    rw [List.filter_eq_self]
    intro other hother
    simp [(hnames other hother).not_isIdle]
  have hsteps : path.segments.filter (!isIdle ·) =
      (root.segments ++ (front ++ [name])).filter (!isIdle ·) := by
    rw [List.filter_append, hkept]
    exact hpath.steps
  rw [place, if_neg (by simpa using hpath.text_ne_empty (by simp)), hpath.noZero.any_eq_false,
    if_neg (by simp), hpath.absolute, lookUp_filter hlast hname.not_isIdle, hsteps,
    ← lookUp_filter (by simp [List.getLast?_append]) hname.not_isIdle]
  exact hlinks follow _ (by simp)

/-- What leads to a directory is one itself or a link. -/
theorem place_of_find_directory (hroot : disk.find root = .ok (here, .directory)) :
    disk.place root false = .ok (.found here .directory) ∨
      ∃ location target, disk.place root false = .ok (.found location (.link target)) := by
  have hplace := find_eq_ok_iff_place.mp hroot
  unfold place at hplace ⊢
  split at hplace
  · simp at hplace
  · split at hplace
    · simp at hplace
    · rename_i hempty hzero
      rw [if_neg hempty, if_neg hzero]
      exact lookUp_not_follow hplace

/-- A walk from a root that leads to a directory goes through what stands below that
directory. -/
theorem walk_eq (hroot : disk.find root = .ok (here, .directory)) (prunes : Path → String → Bool) :
    disk.walk root prunes =
      ((disk.below here).filter fun (names, _) => !isPruned prunes root names).map
        fun (names, entry) => (root.down names, entry) := by
  rcases place_of_find_directory hroot with hfound | ⟨location, target, hfound⟩
  · simp only [walk, hfound]
    rfl
  · simp only [walk, hfound, hroot]
    rfl

/-- The files below a root are those that stand below its directory, except for
pruned ones. -/
theorem IsTree.mem_filesBelow_iff (tree : disk.IsTree)
    (hroot : disk.find root = .ok (here, .directory)) {prunes : Path → String → Bool} :
    path ∈ disk.filesBelow root prunes ↔
      ∃ names bytes, names ≠ [] ∧ disk.get? (here ++ names) = some (.file bytes) ∧
        isPruned prunes root names = false ∧ path = root.down names := by
  rw [filesBelow, walk_eq hroot]
  simp only [List.mem_filterMap, List.mem_map, List.mem_filter, Prod.exists,
    tree.mem_below_iff, Prod.mk.injEq]
  constructor
  · rintro ⟨walked, entry, ⟨names, found, ⟨⟨hne, hentry⟩, hpruned⟩, rfl, rfl⟩, hfile⟩
    cases found with
    | file bytes =>
      exact ⟨names, bytes, hne, hentry, by simpa using hpruned, by simpa using hfile.symm⟩
    | directory => simp at hfile
    | link target => simp at hfile
  · rintro ⟨names, bytes, hne, hentry, hpruned, rfl⟩
    exact ⟨_, .file bytes, ⟨names, .file bytes, ⟨⟨hne, hentry⟩, by simpa using hpruned⟩, rfl, rfl⟩,
      rfl⟩

/-- The path of a directory leads to it. -/
theorem IsTree.find_ofLocation (tree : disk.IsTree) (hdirectory : disk.get? here = some .directory) :
    disk.find (.ofLocation here) = .ok (here, .directory) := by
  have hnamed := tree.named_of_mem hdirectory
  have hzero := (Path.noZero_ofLocation hnamed).any_eq_false
  have hlookUp : lookUp disk true linkLimit [] (Path.ofLocation here).segments =
      .ok (.found here .directory) := by
    by_cases hroot : here = []
    · rw [hroot, Path.segments_ofLocation_nil, lookUp_cons_idle Path.isIdle_empty,
        lookUp_cons_idle Path.isIdle_empty, lookUp_nil]
    · rw [Path.segments_ofLocation hroot hnamed, lookUp_cons_idle Path.isIdle_empty]
      exact lookUp_directory tree hdirectory
  rw [find_eq_ok_iff_place, place, if_neg (by simp [Path.ofLocation]), hzero, if_neg (by simp),
    Path.isAbsolute_ofLocation, if_pos rfl, hlookUp]

/-- In a tree the names of a file lead to it from a path to the directory in which they
begin, whatever links stand elsewhere. -/
theorem IsTree.place_down (tree : disk.IsTree) (hroot : disk.find root = .ok (here, .directory))
    (hne : names ≠ []) (hfile : disk.get? (here ++ names) = some (.file bytes)) (follow : Bool) :
    disk.place (root.down names) follow = .ok (.found (here ++ names) (.file bytes)) := by
  have hfits : ∀ name ∈ names, FitsName name := fun name hname =>
    tree.named _ _ hfile name (List.mem_append_right _ hname)
  have hbelow := Path.isBelow_down (noZero_of_find_directory hroot) hne fun name hname =>
    (hfits name hname).1
  obtain ⟨links, hplace⟩ := place_below hroot hbelow hne fun name hname => (hfits name hname).1
  obtain ⟨front, name, rfl⟩ := Path.exists_append_singleton hne
  rw [← List.append_assoc] at hfile ⊢
  have haround : lookUp disk true links here front = .ok (.found (here ++ front) .directory) :=
    lookUp_directory tree (tree.nested _ _ _ hfile)
  obtain ⟨left, hleft⟩ := lookUp_append haround
  have hname := hfits name (by simp)
  rw [hplace, hleft follow [name] (by simp), lookUp_cons_name hname.1.not_isIdle hname.1.notUp,
    if_neg (Nat.not_lt.mpr hname.2)]
  simp only [hfile, List.isEmpty_nil, if_true]

/-! ## Projects -/

/-- A root that leads to a directory of a tree. -/
structure Project (disk : Disk) (root : Path) (here : Location) : Prop where
  tree : disk.IsTree
  rooted : disk.find root = .ok (here, .directory)
  directory : disk.get? here = some .directory

namespace Project

theorem ofTree (tree : disk.IsTree) (hdirectory : disk.get? here = some .directory) :
    disk.Project (.ofLocation here) here :=
  ⟨tree, tree.find_ofLocation hdirectory, hdirectory⟩

/-- A table is a project from its root. -/
theorem ofEntries
    (hordered : disk.entries.Pairwise fun first second => first.1 < second.1)
    (hnamed : ∀ item ∈ disk.entries, item.1 ≠ [] ∧ ∀ name ∈ item.1, FitsName name)
    (hnested : ∀ item ∈ disk.entries,
      item.1.dropLast = [] ∨ (item.1.dropLast, .directory) ∈ disk.entries) :
    disk.Project (.ofLocation []) [] :=
  .ofTree (isTree_of_entries hordered hnamed hnested) rfl

theorem named_here (project : disk.Project root here) : ∀ name ∈ here, IsName name :=
  project.tree.named_of_mem project.directory

theorem noZero_root (project : disk.Project root here) : root.NoZero :=
  noZero_of_find_directory project.rooted

/-- A direct path below the root finds what stands behind its names. -/
theorem find_eq_ok_iff (project : disk.Project root here) (hpath : IsBelow path root names)
    (hne : names ≠ []) (hnames : ∀ name ∈ names, IsName name)
    (hdirect : disk.Direct (here ++ names)) :
    disk.find path = .ok (location, entry) ↔
      location = here ++ names ∧ disk.get? (here ++ names) = some entry := by
  obtain ⟨links, hplace⟩ := place_below project.rooted hpath hne hnames
  rw [find_eq_ok_iff_place, hplace,
    lookUp_eq_found_iff project.tree project.directory hdirect hnames]

/-- A direct path below the root can be written exactly if its place can hold a file. -/
theorem target_eq_ok_iff (project : disk.Project root here) (hpath : IsBelow path root names)
    (hne : names ≠ []) (hnames : ∀ name ∈ names, IsName name)
    (hdirect : disk.Direct (here ++ names)) :
    disk.target path = .ok location ↔ location = here ++ names ∧ disk.CanHold (here ++ names) := by
  obtain ⟨links, hplace⟩ := place_below project.rooted hpath hne hnames
  simp only [target_eq_ok_iff_place, hplace,
    lookUp_eq_found_iff project.tree project.directory hdirect hnames,
    lookUp_eq_missing_iff project.tree project.directory hdirect hnames]
  constructor
  · rintro (⟨entry, hentry, rfl, hfound⟩ | ⟨rfl, -, -, hhold⟩)
    · exact ⟨rfl, project.tree.canHold (by simp [hne]) hfound hentry⟩
    · exact ⟨rfl, hhold⟩
  · rintro ⟨rfl, hhold⟩
    cases hentry : disk.get? (here ++ names) with
    | none => exact .inr ⟨rfl, trivial, rfl, hhold⟩
    | some entry =>
      refine .inl ⟨entry, ?_, rfl, rfl⟩
      rintro rfl
      exact hhold.free hentry

theorem ne_nil_of_file (project : disk.Project root here)
    (hfile : disk.get? (here ++ names) = some (.file bytes)) : names ≠ [] := by
  rintro rfl
  simp [project.directory] at hfile

/-- Going down by the names of a file finds it. -/
theorem find_down (project : disk.Project root here)
    (hfile : disk.get? (here ++ names) = some (.file bytes)) :
    disk.find (root.down names) = .ok (here ++ names, .file bytes) :=
  find_eq_ok_iff_place.mpr
    (project.tree.place_down project.rooted (project.ne_nil_of_file hfile) hfile true)

theorem read_down (project : disk.Project root here)
    (hfile : disk.get? (here ++ names) = some (.file bytes)) :
    disk.read (root.down names) = .ok bytes := by
  rw [read, project.find_down hfile]
  rfl

/-! ## Staying a project -/

/-- A project stays one on every tree that keeps the directories and links. -/
theorem of_keeps (project : disk.Project root here) (tree : other.IsTree)
    (hworking : other.workingDir = disk.workingDir)
    (hkeeps : ∀ location entry, disk.get? location = some entry → (∀ bytes, entry ≠ .file bytes) →
      other.get? location = some entry) : other.Project root here := by
  have hplace : other.place root true = .ok (.found here .directory) := by
    have hfound := lookUp_directory_of_keeps id hkeeps (lookUp_of_find_directory project.rooted).2
    have hthere := find_eq_ok_iff_place.mp project.rooted
    unfold place at hthere ⊢
    split at hthere
    · simp at hthere
    · split at hthere
      · simp at hthere
      · rename_i hempty hzero
        rw [if_neg hempty, if_neg hzero, hworking]
        exact hfound
  exact ⟨tree, find_eq_ok_iff_place.mpr hplace, hkeeps _ _ project.directory (by simp)⟩

theorem alike (project : disk.Project root here) (halike : Alike disk other) :
    other.Project root here := by
  refine project.of_keeps (halike.isTree project.tree) halike.2 ?_
  intro location entry hentry _
  rwa [halike.get?]

/-- Storing a file where one can be held keeps a tree. -/
private theorem tree_stored (project : disk.Project root here) (hnames : ∀ name ∈ names, IsName name)
    (hhold : disk.CanHold (here ++ names)) (hne : here ++ names ≠ [])
    (hstored : Stored disk (here ++ names) bytes after) : after.IsTree := by
  obtain ⟨front, name, hsplit⟩ := Path.exists_append_singleton hne
  obtain ⟨same, halike, rfl⟩ := hstored
  have hname : IsName name := by
    have hmem : name ∈ here ++ names := by simp [hsplit]
    exact (List.mem_append.mp hmem).elim (project.named_here name) (hnames name)
  have hfits : name.utf8ByteSize ≤ 255 := hhold.fits name (by simp [hsplit])
  rw [hsplit]
  refine (project.alike halike).tree.put ?_ ⟨hname, hfits⟩ ?_
  · rw [halike.get?]
    simpa [hsplit] using hhold.around
  · rw [halike.get?, ← hsplit]
    exact hhold.free

/-- Storing a file where one can be held and no link stands keeps a project. -/
theorem stored (project : disk.Project root here) (hnames : ∀ name ∈ names, IsName name)
    (hdirect : disk.Direct (here ++ names)) (hhold : disk.CanHold (here ++ names))
    (hstored : Stored disk (here ++ names) bytes after) :
    after.Project root here := by
  have hne : here ++ names ≠ [] := by
    intro hnil
    have := hhold.free
    simp [hnil] at this
  have hget := hstored.get? hne
  have tree := project.tree_stored hnames hhold hne hstored
  have hworking : after.workingDir = disk.workingDir := by
    obtain ⟨same, halike, rfl⟩ := hstored
    exact halike.2
  refine project.of_keeps tree hworking ?_
  intro location entry hentry hfile
  rw [hget, hentry]
  split
  · rename_i hlocation
    subst hlocation
    cases entry with
    | file old => exact absurd rfl (hfile old)
    | directory => exact absurd hentry hhold.free
    | link target => exact absurd hentry (hdirect _ (List.prefix_refl _) target)
  · rfl

/-- The path of its directory leads to a project, too. -/
theorem canonical (project : disk.Project root here) :
    disk.Project (.ofLocation here) here :=
  .ofTree project.tree project.directory

/-! ## Walks -/

theorem mem_filesBelow_iff (project : disk.Project root here) {prunes : Path → String → Bool} :
    path ∈ disk.filesBelow root prunes ↔
      ∃ names bytes, disk.get? (here ++ names) = some (.file bytes) ∧
        isPruned prunes root names = false ∧ path = root.down names := by
  rw [project.tree.mem_filesBelow_iff project.rooted]
  constructor
  · rintro ⟨names, bytes, -, hfile, hpruned, rfl⟩
    exact ⟨names, bytes, hfile, hpruned, rfl⟩
  · rintro ⟨names, bytes, hfile, hpruned, rfl⟩
    exact ⟨names, bytes, project.ne_nil_of_file hfile, hfile, hpruned, rfl⟩

/-- No file is found twice. -/
theorem nodup_filesBelow (project : disk.Project root here) (prunes : Path → String → Bool) :
    (disk.filesBelow root prunes).Nodup := by
  have hapart : (disk.below here).Pairwise fun first second =>
      root.down first.1 ≠ root.down second.1 := by
    refine (project.tree.pairwise_below here).imp_of_mem ?_
    rintro ⟨names, entry⟩ ⟨others, other⟩ hfirst hsecond hne hsame
    obtain ⟨hnonempty, hentry⟩ := project.tree.mem_below_iff.mp hfirst
    obtain ⟨hnonempty', hother⟩ := project.tree.mem_below_iff.mp hsecond
    have hsteps := (Path.isBelow_down project.noZero_root hnonempty fun name hname =>
      project.tree.named_of_mem hentry name (List.mem_append_right _ hname)).steps
    have hsteps' := (Path.isBelow_down project.noZero_root hnonempty' fun name hname =>
      project.tree.named_of_mem hother name (List.mem_append_right _ hname)).steps
    rw [← hsame, hsteps] at hsteps'
    exact hne (List.append_cancel_left hsteps')
  rw [filesBelow, walk_eq project.rooted, List.filterMap_map]
  refine (hapart.filter _).filterMap _ ?_
  rintro ⟨names, entry⟩ ⟨others, other⟩ hne path hpath found hfound
  cases entry with
  | directory => simp at hpath
  | link target => simp at hpath
  | file bytes =>
    cases other with
    | directory => simp at hfound
    | link target => simp at hfound
    | file bytes =>
      obtain rfl : root.down names = path := by simpa using hpath
      obtain rfl : root.down others = found := by simpa using hfound
      exact hne

end Project

/-- Pruning by names alone looks at the directories among them. -/
theorem isPruned_names (skips : String → Bool) (path : Path) (names : List String) :
    isPruned (fun _ name => skips name) path names = names.dropLast.any skips := by
  induction names generalizing path with
  | nil => rfl
  | cons name rest ih =>
    cases rest with
    | nil => rfl
    | cons next more => simp [isPruned, ih]

/-- What prunes more leaves less. -/
theorem isPruned_of_imp {skips prunes : Path → String → Bool}
    (himp : ∀ path name, skips path name = true → prunes path name = true) {path : Path}
    {names : List String} (hskipped : isPruned skips path names = true) :
    isPruned prunes path names = true := by
  induction names generalizing path with
  | nil => simp [isPruned] at hskipped
  | cons name rest ih =>
    cases rest with
    | nil => simp [isPruned] at hskipped
    | cons next more =>
      simp only [isPruned, Bool.or_eq_true] at hskipped ⊢
      exact hskipped.imp (himp _ _) ih

end Deadwood.Disk
