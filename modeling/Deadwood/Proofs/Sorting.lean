/-
# Stable sorting

Sorting keeps the order of elements that are tied, so a sorted list is known by
its tied elements, rank by rank. Two lists that have the same of these in the same
order are therefore sorted to the same list, in whatever order the ranks come.
-/

namespace Deadwood

variable {α : Type} {le : α → α → Bool} {xs ys : List α}

/-- A comparison that ranks things, with ties. -/
structure IsRanking (le : α → α → Bool) : Prop where
  trans : ∀ a b c, le a b = true → le b c = true → le a c = true
  total : ∀ a b, (le a b || le b a) = true

/-- Neither of two things comes before the other. -/
def isTied (le : α → α → Bool) (a b : α) : Bool :=
  le a b && le b a

namespace IsRanking

theorem refl (ranking : IsRanking le) (a : α) : le a a = true := by
  simpa using ranking.total a a

/-- Sorting keeps the order of tied elements. -/
theorem filter_mergeSort (ranking : IsRanking le) (a : α) (xs : List α) :
    (xs.mergeSort le).filter (isTied le a) = xs.filter (isTied le a) := by
  have htied : (xs.filter (isTied le a)).Pairwise fun x y => le x y = true := by
    apply List.pairwise_of_forall_mem_list
    intro x hx y hy
    have hx' : le a x = true ∧ le x a = true := by
      simpa [isTied] using (List.mem_filter.mp hx).2
    have hy' : le a y = true ∧ le y a = true := by
      simpa [isTied] using (List.mem_filter.mp hy).2
    exact ranking.trans x a y hx'.2 hy'.1
  have hsorted : (xs.filter (isTied le a)).Sublist (xs.mergeSort le) :=
    List.sublist_mergeSort ranking.trans ranking.total htied List.filter_sublist
  have hsublist : (xs.filter (isTied le a)).Sublist ((xs.mergeSort le).filter (isTied le a)) := by
    simpa using hsorted.filter (isTied le a)
  exact (hsublist.eq_of_length ((List.mergeSort_perm xs le).filter _).length_eq.symm).symm

private theorem mem_iff_of_filter (ranking : IsRanking le)
    (hsame : ∀ a, xs.filter (isTied le a) = ys.filter (isTied le a)) (a : α) :
    a ∈ xs ↔ a ∈ ys := by
  have htied : isTied le a a = true := by simp [isTied, ranking.refl a]
  have hfiltered : a ∈ xs.filter (isTied le a) ↔ a ∈ ys.filter (isTied le a) := by rw [hsame a]
  simpa [List.mem_filter, htied] using hfiltered

private theorem le_head (ranking : IsRanking le) {x y : α}
    (hsorted : (x :: xs).Pairwise fun x y => le x y = true) (hy : y ∈ x :: xs) : le x y = true := by
  rcases List.mem_cons.mp hy with rfl | hy
  · exact ranking.refl _
  · exact List.rel_of_pairwise_cons hsorted hy

/-- Sorted lists with the same tied elements are the same. -/
theorem eq_of_filter (ranking : IsRanking le) (hxs : xs.Pairwise fun x y => le x y = true)
    (hys : ys.Pairwise fun x y => le x y = true)
    (hsame : ∀ a, xs.filter (isTied le a) = ys.filter (isTied le a)) : xs = ys := by
  have hmem := ranking.mem_iff_of_filter hsame
  induction xs generalizing ys with
  | nil =>
    cases ys with
    | nil => rfl
    | cons y ys => exact absurd ((hmem y).mpr List.mem_cons_self) (by simp)
  | cons x xs ih =>
    cases ys with
    | nil => exact absurd ((hmem x).mp List.mem_cons_self) (by simp)
    | cons y ys =>
      -- The first elements are tied, so they are the first of their rank in both.
      have htied : isTied le x y = true := by
        simp [isTied, ranking.le_head hxs ((hmem y).mpr List.mem_cons_self),
          ranking.le_head hys ((hmem x).mp List.mem_cons_self)]
      have hfirst : x = y := by
        have hheads := hsame x
        rw [List.filter_cons_of_pos (by simp [isTied, ranking.refl x]),
          List.filter_cons_of_pos htied] at hheads
        exact (List.cons.inj hheads).1
      subst hfirst
      have hrest : ∀ a, xs.filter (isTied le a) = ys.filter (isTied le a) := by
        intro a
        have hcons := hsame a
        rw [List.filter_cons, List.filter_cons] at hcons
        split at hcons
        · exact (List.cons.inj hcons).2
        · exact hcons
      rw [ih hxs.of_cons hys.of_cons hrest (ranking.mem_iff_of_filter hrest)]

theorem mergeSort_congr (ranking : IsRanking le)
    (hsame : ∀ a, xs.filter (isTied le a) = ys.filter (isTied le a)) :
    xs.mergeSort le = ys.mergeSort le := by
  apply ranking.eq_of_filter
  · exact List.pairwise_mergeSort ranking.trans ranking.total xs
  · exact List.pairwise_mergeSort ranking.trans ranking.total ys
  · intro a
    rw [ranking.filter_mergeSort, ranking.filter_mergeSort, hsame]

end IsRanking

end Deadwood
