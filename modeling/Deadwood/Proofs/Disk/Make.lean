/-
# Making directories

A directory is made together with those around it, as far as they are missing.
Whether that succeeds or not, all that changes on the disk is that there are
directories where there was nothing.
-/

import Deadwood.Proofs.Disk.Ends

namespace Deadwood.Disk

open Deadwood.Path (IsName)

variable {disk middle after : Disk} {path : Path} {here location : Location} {entry : Entry}

/-! ## One directory -/

/-- A disk that differs from another only by directories where nothing was. -/
structure Grown (disk after : Disk) : Prop where
  working : after.workingDir = disk.workingDir
  entries : ∀ location, after.get? location = disk.get? location ∨
    disk.get? location = none ∧ after.get? location = some .directory

namespace Grown

theorem refl (disk : Disk) : Grown disk disk :=
  ⟨rfl, fun _ => .inl rfl⟩

theorem trans (first : Grown disk middle) (second : Grown middle after) : Grown disk after where
  working := second.working.trans first.working
  entries := by
    intro location
    rcases second.entries location with hsame | ⟨hnone, hmade⟩
    · rw [hsame]
      exact first.entries location
    · rcases first.entries location with hsame | ⟨-, hdirectory⟩
      · exact .inr ⟨hsame ▸ hnone, hmade⟩
      · simp [hdirectory] at hnone

/-- What stood somewhere still stands there. -/
theorem get? (grown : Grown disk after) (hentry : disk.get? location = some entry) :
    after.get? location = some entry := by
  rcases grown.entries location with hsame | ⟨hnone, -⟩
  · rw [hsame, hentry]
  · simp [hnone] at hentry

theorem keeps (grown : Grown disk after) : Keeps disk after :=
  fun _ _ hentry _ => grown.get? hentry

end Grown

theorem isDirectory_iff : disk.isDirectory path = true ↔
    ∃ location, disk.find path = .ok (location, .directory) := by
  unfold isDirectory
  split
  · rename_i location hfind
    simp [hfind]
  · rename_i hother
    simpa using hother

/-- A directory is made where its path misses something. -/
theorem makeDirectory_eq_ok_iff : disk.makeDirectory path = .ok after ↔
    ∃ location slash, disk.place path false = .ok (.missing location slash) ∧
      after = disk.put location .directory := by
  unfold makeDirectory
  cases disk.place path false with
  | error error => simp [bind, Except.bind]
  | ok place => cases place <;> simp [bind, Except.bind, eq_comm]

/-- Making a directory puts one where there was nothing. -/
theorem grown_makeDirectory (hmade : disk.makeDirectory path = .ok after) : Grown disk after := by
  obtain ⟨location, slash, hplace, rfl⟩ := makeDirectory_eq_ok_iff.mp hmade
  obtain ⟨hne, hfree⟩ := get?_of_lookUp_missing (place_eq_ok_iff.mp hplace).2.2
  refine ⟨rfl, fun place => ?_⟩
  rw [get?_put hne]
  split
  · rename_i hsame
    exact .inr ⟨hsame ▸ hfree, rfl⟩
  · exact .inl rfl

/-! ## A directory and those around it -/

private theorem grown_makeDirectories (disk : Disk) (depth : Nat) (path : Path) :
    Grown disk (disk.makeDirectories depth path).2 := by
  induction depth generalizing path with
  | zero => exact .refl disk
  | succ depth ih =>
    unfold makeDirectories
    split
    · exact .refl disk
    split
    · rename_i made hmade
      exact grown_makeDirectory hmade
    · -- The directories around it come first, then it is tried once more.
      have hparents := ih (path.parent?.getD ⟨""⟩)
      split
      · rename_i hmiddle
        rwa [hmiddle] at hparents
      · rename_i middle hmiddle
        rw [hmiddle] at hparents
        split
        · rename_i made hmade
          exact hparents.trans (grown_makeDirectory hmade)
        · exact hparents
    · exact .refl disk

theorem grown_makePath (disk : Disk) (path : Path) : Grown disk (disk.makePath path).2 :=
  grown_makeDirectories disk _ path

/-- A directory that is there is not made again. -/
theorem makePath_eq_self (hfind : disk.find path = .ok (here, .directory)) :
    disk.makePath path = (none, disk) := by
  have hmade : disk.makeDirectory path = .error .alreadyExists := by
    rcases place_of_find_directory hfind with hfound | ⟨_, _, hfound⟩ <;>
      simp [makeDirectory, hfound, bind, Except.bind]
  have hthere : disk.isDirectory path = true := isDirectory_iff.mpr ⟨here, hfind⟩
  simp [makePath, makeDirectories, hmade, unlessDirectory, hthere]

end Deadwood.Disk
