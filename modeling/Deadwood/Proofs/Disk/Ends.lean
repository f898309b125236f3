/-
# Where look-ups end

What a look-up ends at can be said of any disk, with links in it and whether or
not its table is a tree: a file or a link that is found stands where it is found,
and where something is missing there is nothing.

Writing a file or making a directory at such an end takes no directory and no link
away. Every look-up of a directory then ends where it did before, and a look-up
that ended at the place of the change ends there again.
-/

import Deadwood.Proofs.Disk.Project

namespace Deadwood.Disk

open Deadwood.Path (IsName isIdle)

variable {disk other after : Disk} {path : Path} {here start location : Location} {follow : Bool}
  {links : Nat} {segments rest : List String} {segment : String} {entry : Entry} {place : Place}
  {bytes : ByteArray}

/-! ## Disks that keep their directories and links -/

/-- The directories and links of a disk are there on another. -/
def Keeps (disk other : Disk) : Prop :=
  ∀ location entry, disk.get? location = some entry → (∀ bytes, entry ≠ .file bytes) →
    other.get? location = some entry

theorem Keeps.refl (disk : Disk) : Keeps disk disk :=
  fun _ _ hentry _ => hentry

theorem Keeps.trans {middle : Disk} (first : Keeps disk middle) (second : Keeps middle other) :
    Keeps disk other :=
  fun location entry hentry hfile => second location entry (first location entry hentry hfile) hfile

/-- Putting something where neither a directory nor a link stands keeps all of
them. -/
theorem keeps_of_get? (hput : ∀ place, after.get? place =
      if place = location then some entry else disk.get? place)
    (hfree : disk.get? location = none ∨ ∃ old, disk.get? location = some (.file old)) :
    Keeps disk after := by
  intro place held hheld hfile
  rw [hput, if_neg, hheld]
  rintro rfl
  rcases hfree with hnone | ⟨old, hold⟩
  · simp [hnone] at hheld
  · exact hfile old (Option.some.inj (hheld.symm.trans hold))

/-! ## Ends -/

/-- The last name that a look-up comes to. On every disk with the same directories
and links the look-up comes to that name again. -/
structure LastName (disk : Disk) (follow : Bool) (links : Nat) (start : Location)
    (segments : List String) (place : Place) (left : Nat) (here : Location) (segment : String)
    (rest : List String) : Prop where
  turn : IsTurn segment
  ends : Ending disk follow (here ++ [segment]) rest place
  again : ∀ other, Keeps disk other → ∀ anew, (anew = true ∨ anew = follow) →
    lookUp other anew links start segments = lookUp other anew left here (segment :: rest)

/-- A look-up that does not end at a directory ends at a name. -/
theorem exists_lastName (hplace : lookUp disk follow links start segments = .ok place)
    (hdirectory : ∀ location, place ≠ .found location .directory) :
    ∃ left here segment rest,
      LastName disk follow links start segments place left here segment rest := by
  replace hplace := walk_of_lookUp hplace
  induction hplace with
  | nil hfound => exact absurd hfound (hdirectory _)
  | idle hidle _ ih =>
    obtain ⟨left, here, last, behind, hlast⟩ := ih
    refine ⟨left, here, last, behind, hlast.turn, hlast.ends, ?_⟩
    simpa only [lookUp_cons_idle hidle] using hlast.again
  | up _ ih =>
    obtain ⟨left, here, last, behind, hlast⟩ := ih
    refine ⟨left, here, last, behind, hlast.turn, hlast.ends, ?_⟩
    simpa only [lookUp_cons_up] using hlast.again
  | ends turn hends => exact ⟨_, _, _, _, turn, hends, fun _ _ _ _ => rfl⟩
  | directory turn hentry _ ih =>
    obtain ⟨left, here, last, behind, hlast⟩ := ih
    refine ⟨left, here, last, behind, hlast.turn, hlast.ends, fun other hkeeps anew hanew => ?_⟩
    rw [lookUp_cons_directory turn (hkeeps _ _ hentry nofun)]
    exact hlast.again other hkeeps anew hanew
  | followed target turn hentry hinner _ ih =>
    obtain ⟨left, here, last, behind, hlast⟩ := ih
    refine ⟨left, here, last, behind, hlast.turn, hlast.ends, fun other hkeeps anew hanew => ?_⟩
    rw [lookUp_cons_link turn (hkeeps _ _ hentry nofun)]
    · exact hlast.again other hkeeps anew hanew
    · rcases hanew with rfl | rfl
      · simp
      · exact hinner

/-- Where something is missing there is nothing. -/
theorem get?_of_lookUp_missing {slash : Bool}
    (hmissing : lookUp disk follow links start segments = .ok (.missing location slash)) :
    location ≠ [] ∧ disk.get? location = none := by
  obtain ⟨left, here, segment, rest, hlast⟩ := exists_lastName hmissing nofun
  cases hlast.ends with
  | missing hfree _ => exact ⟨by simp, hfree⟩

/-- A file stands where it is found. -/
theorem get?_of_lookUp_file
    (hfound : lookUp disk follow links start segments = .ok (.found location (.file bytes))) :
    location ≠ [] ∧ disk.get? location = some (.file bytes) := by
  obtain ⟨left, here, segment, rest, hlast⟩ := exists_lastName hfound nofun
  cases hlast.ends with
  | file hentry _ => exact ⟨by simp, hentry⟩

/-- A look-up that follows links ends at none. -/
theorem lookUp_ne_link {target : String} :
    lookUp disk true links start segments ≠ .ok (.found location (.link target)) := by
  intro hfound
  obtain ⟨left, here, segment, rest, hlast⟩ := exists_lastName hfound nofun
  cases hlast.ends with
  | link _ _ hfollow => cases hfollow

private theorem exists_place_of_spot
    (hspot : lookUp disk follow links start segments = .ok (.missing location false) ∨
      ∃ old, lookUp disk follow links start segments = .ok (.found location (.file old))) :
    ∃ place, lookUp disk follow links start segments = .ok place ∧
      (place = .missing location false ∨ ∃ old, place = .found location (.file old)) := by
  rcases hspot with hmissing | ⟨old, hfound⟩
  · exact ⟨_, hmissing, .inl rfl⟩
  · exact ⟨_, hfound, .inr ⟨old, rfl⟩⟩

/-- On a disk with the same directories and links, a look-up that ended at a file or
missed one comes to the same name, and nothing is behind it. -/
private theorem lookUp_again_of_keeps (hkeeps : Keeps disk other)
    (hplace : lookUp disk follow links start segments = .ok (.missing location false) ∨
      ∃ old, lookUp disk follow links start segments = .ok (.found location (.file old))) :
    ∃ left here segment, IsTurn segment ∧ location = here ++ [segment] ∧
      lookUp other follow links start segments = lookUp other follow left here [segment] := by
  obtain ⟨place, hplace, hspot⟩ := exists_place_of_spot hplace
  obtain ⟨left, here, segment, rest, hlast⟩ := exists_lastName hplace (by
    rintro there rfl
    simp at hspot)
  obtain ⟨rfl, rfl⟩ : here ++ [segment] = location ∧ rest = [] := by
    cases hlast.ends with
    | missing _ _ => simpa using hspot
    | file _ hrest => exact ⟨by simpa using hspot, hrest⟩
    | link _ _ _ => simp at hspot
  exact ⟨left, here, segment, hlast.turn, rfl, hlast.again other hkeeps follow (.inr rfl)⟩

/-- Where a look-up ended at a file or missed one, it ends at the file that is
there now. -/
theorem lookUp_file_of_keeps (hkeeps : Keeps disk other)
    (hplace : lookUp disk follow links start segments = .ok (.missing location false) ∨
      ∃ old, lookUp disk follow links start segments = .ok (.found location (.file old)))
    (hfile : other.get? location = some (.file bytes)) :
    lookUp other follow links start segments = .ok (.found location (.file bytes)) := by
  obtain ⟨left, here, segment, turn, rfl, hagain⟩ := lookUp_again_of_keeps hkeeps hplace
  rw [hagain]
  exact lookUp_cons_ending turn (.file hfile rfl)

/-- Where a look-up ended at a file or missed one, it misses one if nothing is there
now. -/
theorem lookUp_missing_of_keeps (hkeeps : Keeps disk other)
    (hplace : lookUp disk follow links start segments = .ok (.missing location false) ∨
      ∃ old, lookUp disk follow links start segments = .ok (.found location (.file old)))
    (hnone : other.get? location = none) :
    lookUp other follow links start segments = .ok (.missing location false) := by
  obtain ⟨left, here, segment, turn, rfl, hagain⟩ := lookUp_again_of_keeps hkeeps hplace
  rw [hagain]
  exact lookUp_cons_ending turn (.missing hnone rfl)

/-- A path that leads to a file, or misses one, ends with a name. Without following a
link at the end, that is the name of the file. -/
theorem getLast?_of_lookUp (hplace : lookUp disk follow links start segments = .ok place)
    (hspot : place = .missing location false ∨ ∃ bytes, place = .found location (.file bytes)) :
    ∃ name, isIdle name = false ∧ name ≠ ".." ∧ segments.getLast? = some name ∧
      (follow = false → location.getLast? = some name) := by
  have hbehind : ∀ {segment rest}, (∃ name, isIdle name = false ∧ name ≠ ".." ∧
      rest.getLast? = some name ∧ (follow = false → location.getLast? = some name)) →
      ∃ name, isIdle name = false ∧ name ≠ ".." ∧ (segment :: rest).getLast? = some name ∧
        (follow = false → location.getLast? = some name) := by
    rintro segment rest ⟨name, hname, hup, hlast, hends⟩
    exact ⟨name, hname, hup, by simp [List.getLast?_cons, hlast], hends⟩
  replace hplace := walk_of_lookUp hplace
  induction hplace with
  | nil hfound => simp [hfound] at hspot
  | idle _ _ ih => exact hbehind ih
  | up _ ih => exact hbehind ih
  | @ends _ start segment rest turn hends =>
    obtain ⟨hlocation, hrest⟩ : start ++ [segment] = location ∧ rest = [] := by
      cases hends with
      | missing _ _ => simpa using hspot
      | file _ hrest => exact ⟨by simpa using hspot, hrest⟩
      | link _ _ _ => simp at hspot
    exact ⟨segment, turn.notIdle, turn.notUp, by simp [hrest], fun _ => by simp [← hlocation]⟩
  | directory _ _ _ ih => exact hbehind ih
  | @followed _ _ segment rest target turn _ hinner _ ih =>
    by_cases hrest : rest = []
    · subst hrest
      exact ⟨segment, turn.notIdle, turn.notUp, rfl, fun hfollow => by simp [hfollow] at hinner⟩
    -- What stands behind the link ends the path.
    obtain ⟨name, hname, hup, hlast, hends⟩ := ih
    obtain ⟨front, last, rfl⟩ := Path.exists_append_singleton hrest
    rw [← List.append_assoc, List.getLast?_concat] at hlast
    exact ⟨name, hname, hup, by simpa [List.getLast?_cons] using hlast, hends⟩

/-- In front of a name that is looked up stands a directory. -/
theorem exists_directory_of_lookUp (hidle : isIdle segment = false)
    (hplace : lookUp disk follow links start (segments ++ [segment]) = .ok place) :
    ∃ inner, lookUp disk true links start segments = .ok (.found inner .directory) := by
  have hnot : segment.isEmpty = false := by
    simp only [isIdle, Bool.or_eq_false_iff] at hidle
    exact hidle.1
  induction links, start, segments using lookUp_induction with
  | nil links start => exact ⟨start, lookUp_nil _ _ _ _⟩
  | idle links start idle rest hidle ih =>
    rw [List.cons_append, lookUp_cons_idle hidle] at hplace
    rw [lookUp_cons_idle hidle]
    exact ih hplace
  | up links start rest ih =>
    rw [List.cons_append, lookUp_cons_up] at hplace
    rw [lookUp_cons_up]
    exact ih hplace
  | name links start name rest hname hup ih fewer =>
    rw [List.cons_append] at hplace
    cases walk_of_lookUp hplace with
    | idle hidle => simp [hidle] at hname
    | up => exact absurd rfl hup
    | ends _ hends =>
      cases hends with
      | missing _ hrest => simp [hnot] at hrest
      | file _ hrest => simp at hrest
      | link _ hrest _ => simp at hrest
    | directory turn hentry behind =>
      obtain ⟨inner, hinner⟩ := ih behind.lookUp
      exact ⟨inner, by rwa [lookUp_cons_directory turn hentry]⟩
    | @followed links _ _ _ target turn hentry _ behind =>
      rw [← List.append_assoc] at behind
      obtain ⟨inner, hinner⟩ := fewer links (Nat.lt_succ_self links) _ _ behind.lookUp
      exact ⟨inner, by rwa [lookUp_cons_link turn hentry (by simp)]⟩

/-! ## Where paths lead -/

theorem place_eq_ok_iff : disk.place path follow = .ok place ↔
    path.text ≠ "" ∧ path.text.toList.any (·.toNat == 0) = false ∧
      lookUp disk follow linkLimit (if path.isAbsolute then [] else disk.workingDir)
        path.segments = .ok place := by
  unfold Disk.place
  split
  · rename_i hempty
    simp [String.isEmpty_iff.mp hempty]
  · rename_i hempty
    split
    · rename_i hzero
      simp [hzero]
    · rename_i hzero
      simp only [Bool.not_eq_true] at hzero
      simp [hzero, show path.text ≠ "" by simpa using hempty]

/-- A file is written where its path leads to a file or misses one. -/
theorem lookUp_of_target (htarget : disk.target path = .ok location) :
    path.text ≠ "" ∧ path.text.toList.any (·.toNat == 0) = false ∧
      (lookUp disk true linkLimit (if path.isAbsolute then [] else disk.workingDir)
          path.segments = .ok (.missing location false) ∨
        ∃ old, lookUp disk true linkLimit (if path.isAbsolute then [] else disk.workingDir)
          path.segments = .ok (.found location (.file old))) := by
  rcases target_eq_ok_iff_place.mp htarget with ⟨entry, hentry, hplace⟩ | hplace
  · obtain ⟨hempty, hzero, hfound⟩ := place_eq_ok_iff.mp hplace
    cases entry with
    | directory => exact absurd rfl hentry
    | link target => exact absurd hfound lookUp_ne_link
    | file old => exact ⟨hempty, hzero, .inr ⟨old, hfound⟩⟩
  · obtain ⟨hempty, hzero, hmissing⟩ := place_eq_ok_iff.mp hplace
    exact ⟨hempty, hzero, .inl hmissing⟩

/-- Where a file is written stands a file or nothing. -/
theorem get?_of_target (htarget : disk.target path = .ok location) :
    location ≠ [] ∧
      (disk.get? location = none ∨ ∃ bytes, disk.get? location = some (.file bytes)) := by
  obtain ⟨-, -, hmissing | ⟨old, hfound⟩⟩ := lookUp_of_target htarget
  · obtain ⟨hne, hfree⟩ := get?_of_lookUp_missing hmissing
    exact ⟨hne, .inl hfree⟩
  · obtain ⟨hne, hfile⟩ := get?_of_lookUp_file hfound
    exact ⟨hne, .inr ⟨old, hfile⟩⟩

/-- A file stands where its path leads, and is written there. -/
theorem get?_of_find_file (hfind : disk.find path = .ok (location, .file bytes)) :
    location ≠ [] ∧ disk.get? location = some (.file bytes) :=
  get?_of_lookUp_file (place_eq_ok_iff.mp (find_eq_ok_iff_place.mp hfind)).2.2

theorem target_of_find_file (hfind : disk.find path = .ok (location, .file bytes)) :
    disk.target path = .ok location :=
  target_eq_ok_iff_place.mpr (.inl ⟨.file bytes, by simp, find_eq_ok_iff_place.mp hfind⟩)

/-- What is stored where a path leads takes no directory and no link away. -/
theorem Stored.keeps (hstored : Stored disk location bytes after)
    (htarget : disk.target path = .ok location) : Keeps disk after :=
  keeps_of_get? (hstored.get? (get?_of_target htarget).1) (get?_of_target htarget).2

theorem Stored.workingDir (hstored : Stored disk location bytes after) :
    after.workingDir = disk.workingDir := by
  obtain ⟨middle, halike, rfl⟩ := hstored
  exact halike.2

/-- What is stored where a path leads is found by that path. -/
theorem Stored.find (hstored : Stored disk location bytes after)
    (htarget : disk.target path = .ok location) :
    after.find path = .ok (location, .file bytes) := by
  obtain ⟨hempty, hzero, hspot⟩ := lookUp_of_target htarget
  have hfile : after.get? location = some (.file bytes) := by
    rw [hstored.get? (get?_of_target htarget).1, if_pos rfl]
  rw [find_eq_ok_iff_place, place_eq_ok_iff, hstored.workingDir]
  exact ⟨hempty, hzero, lookUp_file_of_keeps (hstored.keeps htarget) hspot hfile⟩

/-- Where a path led to a file it leads to the file that is there now. -/
theorem Keeps.place_file (hkeeps : Keeps disk other)
    (hworking : other.workingDir = disk.workingDir) {old : ByteArray}
    (hplace : disk.place path follow = .ok (.found location (.file old)))
    (hfile : other.get? location = some (.file bytes)) :
    other.place path follow = .ok (.found location (.file bytes)) := by
  rw [place_eq_ok_iff] at hplace ⊢
  rw [hworking]
  exact ⟨hplace.1, hplace.2.1, lookUp_file_of_keeps hkeeps (.inr ⟨old, hplace.2.2⟩) hfile⟩

theorem Keeps.find_directory (hkeeps : Keeps disk other)
    (hworking : other.workingDir = disk.workingDir)
    (hfind : disk.find path = .ok (here, .directory)) : other.find path = .ok (here, .directory) := by
  rw [find_eq_ok_iff_place, place_eq_ok_iff] at hfind ⊢
  rw [hworking]
  exact ⟨hfind.1, hfind.2.1, lookUp_directory_of_keeps id hkeeps hfind.2.2⟩

/-- A path that leads to a file without following a link at its end leads to it
anyway. -/
theorem find_of_place_file
    (hplace : disk.place path false = .ok (.found location (.file bytes))) :
    disk.find path = .ok (location, .file bytes) := by
  rw [find_eq_ok_iff_place, place_eq_ok_iff] at *
  obtain ⟨hempty, hzero, hlookUp⟩ := hplace
  refine ⟨hempty, hzero, ?_⟩
  obtain ⟨left, here, segment, rest, hlast⟩ := exists_lastName hlookUp nofun
  rw [hlast.again disk (.refl disk) true (.inl rfl)]
  cases hlast.ends with
  | file hentry hrest => exact lookUp_cons_ending hlast.turn (.file hentry hrest)

private theorem isName_of_mem_segments {name : String}
    (hzero : path.text.toList.any (·.toNat == 0) = false) (hidle : isIdle name = false)
    (hup : name ≠ "..") (hmem : name ∈ path.segments) : IsName name := by
  obtain ⟨hempty, hdot⟩ : name ≠ "" ∧ name ≠ "." := by simpa [isIdle] using hidle
  exact ⟨hempty, hdot, hup, Path.slash_not_mem_of_mem_segments hmem,
    Path.noZero_of_any_eq_false hzero name hmem⟩

/-- A file at the end of a path has the name of the path, unless that is the name of
a link. -/
theorem exists_name_of_place_file
    (hplace : disk.place path false = .ok (.found location (.file bytes))) :
    ∃ front name, location = front ++ [name] ∧ path.name? = some name := by
  obtain ⟨-, hzero, hlookUp⟩ := place_eq_ok_iff.mp hplace
  obtain ⟨name, hidle, hup, hlast, hends⟩ := getLast?_of_lookUp hlookUp (.inr ⟨bytes, rfl⟩)
  obtain ⟨front, rfl⟩ := List.getLast?_eq_some_iff.mp (hends rfl)
  obtain ⟨segments, hsegments⟩ := List.getLast?_eq_some_iff.mp hlast
  have hname := isName_of_mem_segments hzero hidle hup (by simp [hsegments])
  exact ⟨front, name, rfl, Path.name?_of_segments hname hsegments⟩

/-- The directory in which names are looked up that are joined to a path. For the
empty path that is the working directory. -/
def LeadsInto (disk : Disk) (path : Path) (inner : Location) : Prop :=
  lookUp disk true linkLimit (if path.isAbsolute then [] else disk.workingDir) path.segments =
    .ok (.found inner .directory)

/-- A name that is joined to a path is looked up behind the path. -/
theorem lookUp_join (path : Path) {name : String} (hname : IsName name) :
    lookUp disk follow links start (path.join ⟨name⟩).segments =
      lookUp disk follow links start (path.segments ++ [name]) := by
  obtain ⟨front, hfront, -, hsegments⟩ := path.segments_join hname.isAbsolute_eq_false
  rw [Path.segments_of_noSlash hname.noSlash] at hsegments
  have hidle := hname.not_isIdle
  rw [hsegments, lookUp_filter (List.getLast?_concat ..) hidle,
    lookUp_filter (List.getLast?_concat ..) hidle, List.filter_append, List.filter_append, hfront]
  rfl

/-- What a name leads to in the directory of a path, if it leads to a file there:
that file, unless a link has the name. -/
theorem exists_leadsInto_of_find {name : String} (hname : IsName name)
    (hfind : disk.find (path.join ⟨name⟩) = .ok (location, .file bytes)) :
    ∃ inner, disk.LeadsInto path inner ∧
      (location = inner ++ [name] ∨ ∃ target, disk.get? (inner ++ [name]) = some (.link target)) := by
  obtain ⟨-, -, hlookUp⟩ := place_eq_ok_iff.mp (find_eq_ok_iff_place.mp hfind)
  rw [Path.isAbsolute_join hname.isAbsolute_eq_false, lookUp_join path hname] at hlookUp
  obtain ⟨inner, hinner⟩ := exists_directory_of_lookUp hname.not_isIdle hlookUp
  obtain ⟨left, hleft⟩ := lookUp_append hinner
  rw [hleft true [name] (List.cons_ne_nil _ _)] at hlookUp
  refine ⟨inner, hinner, ?_⟩
  cases walk_of_lookUp hlookUp with
  | idle hidle => simp [hname.not_isIdle] at hidle
  | up => exact absurd rfl hname.notUp
  | ends _ hends =>
    cases hends with
    | file _ _ => exact .inl rfl
  | directory _ _ behind => cases behind with | nil hplace => cases hplace
  | followed target _ hentry _ _ => exact .inr ⟨target, hentry⟩

/-! ## Names in directories -/

/-- A path names an entry of a directory, whether or not there is one. -/
structure NamesIn (disk : Disk) (path : Path) (inner : Location) (name : String) : Prop where
  isName : IsName name
  last : path.segments.getLast? = some name
  leads : ∃ front, path.steps = front ++ [name] ∧
    lookUp disk true linkLimit (if path.isAbsolute then [] else disk.workingDir) front =
      .ok (.found inner .directory)

/-- The path of a file that is written names an entry of a directory. -/
theorem exists_namesIn_of_target (htarget : disk.target path = .ok location) :
    ∃ inner name, disk.NamesIn path inner name ∧ path.name? = some name := by
  obtain ⟨-, hzero, hspot⟩ := lookUp_of_target htarget
  obtain ⟨place, hplace, hspot⟩ := exists_place_of_spot hspot
  obtain ⟨name, hidle, hup, hlast, -⟩ := getLast?_of_lookUp hplace hspot
  obtain ⟨front, hsegments⟩ := List.getLast?_eq_some_iff.mp hlast
  have hname := isName_of_mem_segments hzero hidle hup (by simp [hsegments])
  have hsteps : path.steps = front.filter (!isIdle ·) ++ [name] := by
    simp [Path.steps, hsegments, hidle]
  rw [lookUp_filter hlast hidle, ← Path.steps, hsteps] at hplace
  obtain ⟨inner, hinner⟩ := exists_directory_of_lookUp hidle hplace
  exact ⟨inner, name, ⟨hname, hlast, _, hsteps, hinner⟩, Path.name?_of_segments hname hsegments⟩

namespace NamesIn

variable {inner : Location} {name : String}

theorem keeps (hnames : disk.NamesIn path inner name) (hkeeps : Keeps disk other)
    (hworking : other.workingDir = disk.workingDir) : other.NamesIn path inner name := by
  obtain ⟨front, hsteps, hleads⟩ := hnames.leads
  refine ⟨hnames.isName, hnames.last, front, hsteps, ?_⟩
  rw [hworking]
  exact lookUp_directory_of_keeps id hkeeps hleads

/-- Paths beside one that names an entry are joined to the same path. -/
private theorem exists_parent (hnames : disk.NamesIn path inner name) :
    ∃ (parent : Path) (segments : List String), path.segments = segments ++ [name] ∧
      parent.Follows segments path.isAbsolute ∧
      ∀ beside, path.withName beside = parent.join ⟨beside⟩ := by
  obtain ⟨segments, hsegments⟩ := List.getLast?_eq_some_iff.mp hnames.last
  obtain ⟨parent, hparent, hfollows⟩ := Path.follows_parent? hnames.isName hsegments
  refine ⟨parent, segments, hsegments, hfollows, fun beside => ?_⟩
  simp [Path.withName, Path.name?_of_segments hnames.isName hsegments, hparent]

/-- Another name beside the last one names another entry of the directory. -/
theorem withName (hnames : disk.NamesIn path inner name) {beside : String}
    (hbeside : IsName beside) : disk.NamesIn (path.withName beside) inner beside := by
  obtain ⟨front, hsteps, hleads⟩ := hnames.leads
  obtain ⟨parent, segments, hsegments, hfollows, hwith⟩ := hnames.exists_parent
  have hfront : front = parent.steps := by
    have hsame : segments.filter (!isIdle ·) ++ [name] = front ++ [name] := by
      rw [← hsteps, Path.steps, hsegments]
      simp [hnames.isName.not_isIdle]
    rw [hfollows.steps, List.append_cancel_right hsame]
  obtain ⟨around, haround, -, hjoined⟩ := parent.segments_join hbeside.isAbsolute_eq_false
  rw [Path.segments_of_noSlash hbeside.noSlash] at hjoined
  rw [hwith]
  refine ⟨hbeside, by rw [hjoined, List.getLast?_concat], front, ?_, ?_⟩
  · rw [Path.steps, hjoined, List.filter_append, haround, hfront]
    simp [Path.steps, hbeside.not_isIdle]
  · rw [Path.isAbsolute_join hbeside.isAbsolute_eq_false, hfollows.absolute]
    exact hleads

theorem last_withName (hnames : disk.NamesIn path inner name) {beside : String}
    (hslash : '/' ∉ beside.toList) :
    (path.withName beside).segments.getLast? = some beside := by
  obtain ⟨parent, -, -, -, hwith⟩ := hnames.exists_parent
  obtain ⟨front, -, -, hjoined⟩ := parent.segments_join (Path.isAbsolute_of_noSlash hslash)
  rw [hwith, hjoined, Path.segments_of_noSlash hslash, List.getLast?_concat]

/-- A path beside one that can be looked up can be, too. -/
theorem noZero_withName (hnames : disk.NamesIn path inner name) (hzero : path.NoZero)
    {beside : String} (hbeside : IsName beside) : (path.withName beside).NoZero := by
  obtain ⟨parent, segments, hsegments, hfollows, hwith⟩ := hnames.exists_parent
  rw [hwith]
  refine (Path.isBelow_join rfl (List.append_nil _).symm ?_ hbeside).noZero
  exact hzero.follows hfollows fun segment hsegment =>
    hsegments ▸ List.mem_append_left _ hsegment

/-- The name that a path ends with is looked up in its directory. -/
theorem exists_lookUp (hnames : disk.NamesIn path inner name) :
    ∃ left, ∀ follow,
      lookUp disk follow linkLimit (if path.isAbsolute then [] else disk.workingDir) path.segments =
        lookUp disk follow left inner [name] := by
  obtain ⟨front, hsteps, hleads⟩ := hnames.leads
  obtain ⟨left, hleft⟩ := lookUp_append hleads
  refine ⟨left, fun follow => ?_⟩
  rw [lookUp_filter hnames.last hnames.isName.not_isIdle, ← Path.steps, hsteps]
  exact hleft follow [name] (List.cons_ne_nil _ _)

/-- What a path leads to that can be looked up: what stands under its name. -/
theorem exists_place (hnames : disk.NamesIn path inner name) (hzero : path.NoZero) :
    ∃ left, ∀ follow, disk.place path follow = lookUp disk follow left inner [name] := by
  obtain ⟨left, hleft⟩ := hnames.exists_lookUp
  have hempty : path.text ≠ "" := by
    intro hempty
    have hlast := hnames.last
    rw [Path.segments, hempty] at hlast
    exact hnames.isName.notEmpty (by simpa [eq_comm] using hlast)
  refine ⟨left, fun follow => ?_⟩
  rw [place, if_neg (by simpa using hempty), hzero.any_eq_false, if_neg (by simp), hleft follow]

/-- A file is written under the name that its path names, unless that is the name of
a link. -/
theorem target (hnames : disk.NamesIn path inner name)
    (hlink : ∀ target, disk.get? (inner ++ [name]) ≠ some (.link target))
    (htarget : disk.target path = .ok location) : location = inner ++ [name] := by
  obtain ⟨-, -, hspot⟩ := lookUp_of_target htarget
  obtain ⟨place, hplace, hspot⟩ := exists_place_of_spot hspot
  obtain ⟨left, hleft⟩ := hnames.exists_lookUp
  rw [hleft] at hplace
  cases walk_of_lookUp hplace with
  | idle hidle => simp [hnames.isName.not_isIdle] at hidle
  | up => exact absurd rfl hnames.isName.notUp
  | ends _ hends =>
    cases hends with
    | missing _ _ => simpa [eq_comm] using hspot
    | file _ _ => simpa [eq_comm] using hspot
    | link _ _ _ => simp at hspot
  | directory _ _ behind => cases behind with | nil hfound => simp [hfound] at hspot
  | followed target _ hentry _ _ => exact absurd hentry (hlink target)

/-- A file that is found without following a link at the end stands under its name. -/
theorem eq_of_place_file (hnames : disk.NamesIn path inner name)
    (hplace : disk.place path false = .ok (.found location (.file bytes))) :
    location = inner ++ [name] := by
  obtain ⟨left, hleft⟩ := hnames.exists_lookUp
  have hlookUp := (place_eq_ok_iff.mp hplace).2.2
  rw [hleft] at hlookUp
  cases walk_of_lookUp hlookUp with
  | idle hidle => simp [hnames.isName.not_isIdle] at hidle
  | up => exact absurd rfl hnames.isName.notUp
  | ends _ hends =>
    cases hends with
    | file _ _ => rfl
  | directory _ _ behind => cases behind with | nil hfound => cases hfound
  | followed _ _ _ hinner _ => simp at hinner

end NamesIn

end Deadwood.Disk
