/-
# Pieces of a text

What stands between separators has none of them, and the words of a text are what
stands between its blanks.
-/

import Deadwood.Text.Blank

namespace Deadwood.Text

/-- The pieces of a text hold what stands between its separators. -/
theorem exists_mem_splitOnP_iff {isSeparator : Char → Bool} {text : List Char} {c : Char} :
    (∃ piece ∈ text.splitOnP isSeparator, c ∈ piece) ↔ c ∈ text ∧ isSeparator c = false := by
  induction text with
  | nil => simp
  | cons first rest ih =>
    obtain ⟨head, others, hsplit⟩ :=
      List.exists_cons_of_ne_nil (List.splitOnP_ne_nil isSeparator rest)
    rw [hsplit] at ih
    rw [List.splitOnP_cons_eq_if_modifyHead, hsplit, List.modifyHead_cons]
    cases hfirst : isSeparator first with
    | true => grind
    | false =>
      simp only [List.mem_cons, exists_eq_or_imp] at ih
      simp only [Bool.false_eq_true, reduceIte, List.mem_cons, exists_eq_or_imp, or_assoc, ih]
      grind

theorem splitOnP_congr {isSeparator isOther : Char → Bool} {text : List Char}
    (hsame : ∀ c ∈ text, isSeparator c = isOther c) :
    text.splitOnP isSeparator = text.splitOnP isOther := by
  induction text with
  | nil => rfl
  | cons c text ih =>
    rw [List.splitOnP_cons_eq_if_modifyHead, List.splitOnP_cons_eq_if_modifyHead,
      hsame c List.mem_cons_self, ih fun d hd => hsame d (List.mem_cons_of_mem _ hd)]

private theorem splitOnP_eq_foldr (text : List Char) :
    ∃ others, text.splitOnP isBlank = (text.foldr wordsStep ([], [])).1 :: others ∧
      (text.foldr wordsStep ([], [])).2 = others.filter (· ≠ []) := by
  induction text with
  | nil => exact ⟨[], List.splitOnP_nil, rfl⟩
  | cons c text ih =>
    obtain ⟨others, hsplit, hrest⟩ := ih
    rw [List.splitOnP_cons_eq_if_modifyHead, hsplit, List.foldr_cons, wordsStep]
    split
    · refine ⟨_, rfl, ?_⟩
      rw [List.filter_cons, hrest]
      simp
    · exact ⟨others, rfl, hrest⟩

theorem words_eq (text : List Char) : words text = (text.splitOnP isBlank).filter (· ≠ []) := by
  obtain ⟨others, hsplit, hrest⟩ := splitOnP_eq_foldr text
  rw [words, hsplit, List.filter_cons, ← hrest]
  simp

end Deadwood.Text
