/-
# Names of patches

A patch is named for the run and the file, and by a number if that name has been
asked for before. Names of analysed files end with a letter, so that a number at
the end of a name is never part of the name of a file. Hence a name that is handed
out has not been handed out before.
-/

import Deadwood.Fix.Patch
import Deadwood.Proofs.Fix.Naming

namespace Deadwood.Fix

open Deadwood.Path (IsName)

variable {name : String} {names : List (String × Nat)} {place : PatchPlace}
  {target : Path}

/-! ## Numbered names -/

/-- The name of the patch for what has been asked for so often. -/
def numbered (stem : String) (seen : Nat) : String :=
  if seen = 1 then stem ++ ".diff" else stem ++ "-" ++ toString seen ++ ".diff"

/-- A name and a number can be told from each other, if the name ends with a
letter. -/
theorem numbered_inj {stem other : String} {seen times : Nat} (hstem : EndsAsCode stem)
    (hother : EndsAsCode other) (hsame : numbered stem seen = numbered other times) : stem = other ∧ seen = times := by
  have hcancel : ∀ {a b : String}, a ++ ".diff" = b ++ ".diff" → a = b := by
    intro a b hends
    apply String.toList_injective
    have hchars := congrArg String.toList hends
    rw [String.toList_append, String.toList_append] at hchars
    exact List.append_cancel_right hchars
  have hdigit : ∀ (front : String) (n : Nat), ¬ EndsAsCode (front ++ "-" ++ toString n) :=
    fun front n hcode => hcode.not_endsWithDigit ((isDigits_toString n).endsWithDigit.append _)
  unfold numbered at hsame
  split at hsame <;> split at hsame <;> rename_i hseen htimes
  · exact ⟨hcancel hsame, hseen.trans htimes.symm⟩
  · exact absurd (hcancel hsame ▸ hstem) (hdigit other times)
  · exact absurd ((hcancel hsame).symm ▸ hother) (hdigit stem seen)
  · have hchars := congrArg String.toList (hcancel hsame)
    have hdash : Text.isDecimal '-' = false := by decide
    rw [String.toList_append, String.toList_append, String.toList_append, String.toList_append,
      show "-".toList = ['-'] from rfl, List.append_assoc, List.append_assoc] at hchars
    obtain ⟨hfront, hdigits⟩ := append_digits_inj hdash hdash (isDigits_toString seen).decimal
      (isDigits_toString times).decimal hchars
    exact ⟨String.toList_injective (List.append_cancel_right hfront),
      toString_inj (String.toList_injective hdigits)⟩

theorem getLast?_numbered (stem : String) (seen : Nat) :
    (numbered stem seen).toList.getLast? = some 'f' := by
  have hdiff : ".diff".toList.getLast? = some 'f' := by decide
  unfold numbered
  split
  · exact getLast?_toList_append hdiff _
  · exact getLast?_toList_append hdiff _

theorem isName_numbered {stem : String} (hstem : FitsInName stem) (seen : Nat) :
    IsName (numbered stem seen) := by
  have hfits : FitsInName (numbered stem seen) := by
    unfold numbered
    split
    · exact hstem.append (by decide)
    · exact ((hstem.append (by decide)).append (isDigits_toString seen).fitsInName).append (by decide)
  exact hfits.isName (List.mem_of_getLast? (getLast?_numbered stem seen)) (by decide)

/-! ## Names handed out -/

/-- What a patch is named for. -/
def PatchPlace.stem (place : PatchPlace) (target : Path) : String :=
  place.stamp.millis ++ "_" ++ target.baseName

/-- How often a name has been asked for. -/
def timesSeen (names : List (String × Nat)) (stem : String) : Nat :=
  (List.lookup stem names).getD 0

/-- The names that have been handed out. -/
def Issued (names : List (String × Nat)) (name : String) : Prop :=
  ∃ stem seen, EndsAsCode stem ∧ 0 < seen ∧ seen ≤ timesSeen names stem ∧ name = numbered stem seen

private theorem lookup_filter_ne {stem other : String} (hne : stem ≠ other)
    (names : List (String × Nat)) :
    List.lookup stem (names.filter (·.1 != other)) = List.lookup stem names := by
  induction names with
  | nil => rfl
  | cons first rest ih =>
    rw [List.filter_cons]
    split
    · rw [List.lookup_cons, List.lookup_cons, ih]
    · rename_i hfirst
      have hother : (stem == first.1) = false := by
        rw [beq_eq_false_iff_ne]
        rintro rfl
        simp [hne] at hfirst
      rw [ih, List.lookup_cons, hother]

namespace PatchPlace

theorem patchName_fst (place : PatchPlace) (names : List (String × Nat)) (target : Path) :
    (place.patchName names target).1 =
      numbered (place.stem target) (timesSeen names (place.stem target) + 1) := rfl

theorem timesSeen_patchName (place : PatchPlace) (names : List (String × Nat)) (target : Path)
    (stem : String) :
    timesSeen (place.patchName names target).2 stem =
      if stem = place.stem target then timesSeen names stem + 1 else timesSeen names stem := by
  have htable : (place.patchName names target).2 =
      (place.stem target, timesSeen names (place.stem target) + 1) ::
        names.filter (·.1 != place.stem target) := rfl
  rw [htable]
  by_cases hsame : stem = place.stem target
  · simp [timesSeen, hsame]
  · rw [if_neg hsame, timesSeen, List.lookup_cons, beq_eq_false_iff_ne.mpr hsame]
    exact congrArg (·.getD 0) (lookup_filter_ne hsame names)

theorem endsAsCode_stem (htarget : EndsAsCode target.baseName) : EndsAsCode (place.stem target) :=
  htarget.append _

/-- A name that is handed out has not been handed out before. -/
theorem not_issued_patchName (place : PatchPlace) (names : List (String × Nat))
    (htarget : EndsAsCode target.baseName) :
    ¬ Issued names (place.patchName names target).1 := by
  rintro ⟨stem, seen, hstem, -, hseen, hsame⟩
  rw [patchName_fst] at hsame
  obtain ⟨rfl, rfl⟩ := numbered_inj (endsAsCode_stem htarget) hstem hsame
  omega

theorem issued_patchName (place : PatchPlace) (names : List (String × Nat))
    (htarget : EndsAsCode target.baseName) :
    Issued (place.patchName names target).2 (place.patchName names target).1 := by
  refine ⟨_, _, endsAsCode_stem htarget, Nat.succ_pos _, ?_, patchName_fst place names target⟩
  simp [timesSeen_patchName]

/-- Names that have been handed out stay so. -/
theorem issued_of_issued (hissued : Issued names name) (place : PatchPlace) (target : Path) :
    Issued (place.patchName names target).2 name := by
  obtain ⟨stem, seen, hstem, hpositive, hseen, rfl⟩ := hissued
  refine ⟨stem, seen, hstem, hpositive, ?_, rfl⟩
  rw [timesSeen_patchName]
  split <;> omega

/-! ## The name of the manifest -/

theorem getLast?_manifestName (place : PatchPlace) :
    place.manifestName.toList.getLast? = some 'n' := by
  have hjson : ".json".toList.getLast? = some 'n' := by decide
  exact getLast?_toList_append hjson ("suggested-changes." ++ place.stamp.millis)

theorem isName_manifestName (hmillis : FitsInName place.stamp.millis) :
    IsName place.manifestName := by
  have hfits : FitsInName place.manifestName :=
    (FitsInName.append (by decide) hmillis).append (by decide)
  exact hfits.isName (List.mem_of_getLast? place.getLast?_manifestName) (by decide)

/-- No patch has the name of the manifest. -/
theorem not_issued_manifestName (place : PatchPlace) (names : List (String × Nat)) :
    ¬ Issued names place.manifestName := by
  rintro ⟨stem, seen, -, -, -, hsame⟩
  have hlast := place.getLast?_manifestName
  rw [hsame, getLast?_numbered] at hlast
  exact absurd (Option.some.inj hlast) (by decide)

end PatchPlace

end Deadwood.Fix
