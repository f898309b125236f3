/-
# Sorted names

Sorting names and leaving out repetitions keeps which names there are, and lists
them in strictly ascending order. There is only one such list.
-/

import Deadwood.Names
import Mathlib.Data.List.Sort
import Mathlib.Data.String.Basic

namespace Deadwood

section

variable {α : Type} [BEq α]

private theorem eraseReps_loop (a : α) (as acc : List α) :
    List.eraseRepsBy.loop (· == ·) a as acc =
      acc.reverse ++ List.eraseRepsBy.loop (· == ·) a as [] := by
  induction as generalizing a acc with
  | nil => simp [List.eraseRepsBy.loop]
  | cons b rest ih =>
    unfold List.eraseRepsBy.loop
    cases a == b with
    | true => exact ih a acc
    | false =>
      show List.eraseRepsBy.loop _ b rest (a :: acc) =
        acc.reverse ++ List.eraseRepsBy.loop _ b rest [a]
      rw [ih b (a :: acc), ih b [a]]
      simp

variable [LawfulBEq α] [DecidableEq α]

/-- Leaving out repetitions behind an item either drops the next one or goes on
from it. -/
private theorem eraseReps_cons_cons (a b : α) (rest : List α) :
    (a :: b :: rest).eraseReps =
      if a = b then (a :: rest).eraseReps else a :: (b :: rest).eraseReps := by
  show List.eraseRepsBy.loop (· == ·) a (b :: rest) [] = _
  rw [List.eraseRepsBy.loop]
  by_cases hsame : a = b
  · simp only [hsame, beq_self_eq_true, if_true]
    rfl
  · simp only [beq_eq_false_iff_ne.mpr hsame, if_neg hsame]
    rw [eraseReps_loop]
    rfl

theorem mem_eraseReps {item : α} (items : List α) : item ∈ items.eraseReps ↔ item ∈ items := by
  induction items with
  | nil => rfl
  | cons a rest ih =>
    cases rest with
    | nil => rfl
    | cons b more =>
      rw [eraseReps_cons_cons]
      by_cases hsame : a = b
      · subst hsame
        simp only [if_true, ih, List.mem_cons]
        tauto
      · rw [if_neg hsame, List.mem_cons, ih]
        simp only [List.mem_cons]

end

private theorem eraseReps_ascending {names : List String} (hsorted : names.Pairwise (· ≤ ·)) :
    names.eraseReps.Pairwise (· < ·) := by
  induction names with
  | nil => exact List.Pairwise.nil
  | cons a rest ih =>
    cases rest with
    | nil =>
      show [a].Pairwise (· < ·)
      simp
    | cons b more =>
      obtain ⟨hfirst, hrest⟩ := List.pairwise_cons.mp hsorted
      rw [eraseReps_cons_cons]
      by_cases hsame : a = b
      · subst hsame
        simpa using ih hrest
      · rw [if_neg hsame, List.pairwise_cons]
        refine ⟨fun name hname => ?_, ih hrest⟩
        -- What is left behind `a` is not below `b`, which is above `a`.
        have hle : b ≤ name := by
          rcases List.mem_cons.mp ((mem_eraseReps _).mp hname) with rfl | hmem
          · exact String.le_refl _
          · exact (List.pairwise_cons.mp hrest).1 name hmem
        apply String.not_le.mp
        intro hback
        exact hsame (String.le_antisymm (hfirst b List.mem_cons_self) (String.le_trans hle hback))

@[simp]
theorem mem_sortedNames {name : String} {names : List String} :
    name ∈ sortedNames names ↔ name ∈ names := by
  rw [sortedNames, mem_eraseReps, List.mem_mergeSort]

@[simp]
theorem sortedNames_nil : sortedNames [] = [] := by
  apply List.eq_nil_iff_forall_not_mem.mpr
  simp

@[simp]
theorem sortedNames_singleton (name : String) : sortedNames [name] = [name] := by
  rw [sortedNames, List.mergeSort_singleton]
  rfl

/-- Sorted names ascend strictly. -/
theorem ascending_sortedNames (names : List String) : (sortedNames names).Pairwise (· < ·) := by
  apply eraseReps_ascending
  have hsorted : (names.mergeSort fun a b => a ≤ b).Pairwise fun a b => decide (a ≤ b) = true := by
    apply List.pairwise_mergeSort
    · intro a b c hab hbc
      exact decide_eq_true (String.le_trans (of_decide_eq_true hab) (of_decide_eq_true hbc))
    · intro a b
      simpa using String.le_total a b
  simpa using hsorted

theorem nodup_sortedNames (names : List String) : (sortedNames names).Nodup := by
  apply (ascending_sortedNames names).imp
  intro a b hless hsame
  exact String.lt_irrefl b (hsame ▸ hless)

/-- Only which names there are counts. -/
theorem sortedNames_congr {names others : List String}
    (hsame : ∀ name, name ∈ names ↔ name ∈ others) : sortedNames names = sortedNames others := by
  apply (ascending_sortedNames names).eq_of_mem_iff (ascending_sortedNames others)
  intro name
  rw [mem_sortedNames, mem_sortedNames, hsame]

/-- Names that ascend stay as they are. -/
theorem sortedNames_of_ascending {names : List String} (hascending : names.Pairwise (· < ·)) :
    sortedNames names = names := by
  apply (ascending_sortedNames names).eq_of_mem_iff hascending
  intro name
  exact mem_sortedNames

/-- Names that were sorted before need not be sorted apart. -/
theorem sortedNames_sortedNames_append (names others : List String) :
    sortedNames (sortedNames names ++ others) = sortedNames (names ++ others) :=
  sortedNames_congr (by simp)

end Deadwood
