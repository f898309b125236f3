/-
# What is shown of a declaration

The lines of a declaration may be out of date: zero, out of order or far behind the end of
the text. Still an excerpt has no line that the text does not have, and counts none beyond
a word. It shows the lines of the text whose numbers lie between two bounds, so all lines
of a declaration that lies in the text.
-/

import Deadwood.Proofs.Text.LineDiff
import Deadwood.Script.Removal

namespace Deadwood.Script

open Deadwood.Text

variable {source : List Char} {function : Symbol} {span : Span} {context : Nat}

/-- The number of the first line to show. Line zero is taken for the first one. -/
def firstShown (span : Span) (context : Nat) : Nat :=
  max 1 (max 1 span.startLine - context)

/-- The number of the last line to show. -/
def lastShown (source : List Char) (span : Span) (context : Nat) : Nat :=
  min (lines source).length (max 1 span.stopLine + context)

/-- The lines of a text whose numbers lie between the bounds, with their numbers. -/
def shownLines (source : List Char) (span : Span) (context : Nat) : List (List Char × Nat) :=
  ((lines source).zipIdx 1).filter fun entry =>
    firstShown span context ≤ entry.2 && entry.2 ≤ lastShown source span context

/-! ## Lines by number and by index -/

theorem shownLines_eq_nil (hempty : lastShown source span context < firstShown span context) :
    shownLines source span context = [] := by
  refine List.filter_eq_nil_iff.mpr fun entry _ => ?_
  simp only [Bool.and_eq_true, decide_eq_true_eq]
  omega

variable (front shown rest : List (List Char))

theorem filter_zipIdx_append :
    ((front ++ (shown ++ rest)).zipIdx 1).filter (fun entry =>
        decide (front.length + 1 ≤ entry.2) && decide (entry.2 ≤ front.length + shown.length)) =
      shown.zipIdx (front.length + 1) := by
  rw [List.zipIdx_append, List.zipIdx_append, List.filter_append, List.filter_append,
    List.filter_eq_nil_iff.mpr, List.filter_eq_self.mpr, List.filter_eq_nil_iff.mpr,
    List.append_nil, List.nil_append, Nat.add_comm]
  all_goals
    intro entry hentry
    have hfrom := List.le_snd_of_mem_zipIdx hentry
    have hto := List.snd_lt_add_of_mem_zipIdx hentry
    simp only [Bool.and_eq_true, decide_eq_true_eq]
    omega

/-- The lines at the indices of a text are found, if their numbers fit into words. -/
theorem mapM_numberedLine?_append (hword : front.length + shown.length < 0x10000000000000000) :
    (List.range' front.length shown.length).mapM
        (numberedLine? (front ++ (shown ++ rest)).toArray) =
      some ((shown.zipIdx (front.length + 1)).map fun entry => numbered entry.2 entry.1) := by
  induction shown generalizing front with
  | nil => rfl
  | cons line shown ih =>
    rw [List.length_cons] at hword
    have hline : numberedLine? (front ++ (line :: shown ++ rest)).toArray front.length =
        some (numbered (front.length + 1) line) := by
      have hsum : wordSum? front.length 1 = some (front.length + 1) := if_pos (by omega)
      simp [numberedLine?, hsum]
    have hothers := ih (front ++ [line]) (by rw [List.length_append, List.length_singleton]; omega)
    rw [List.length_append, List.length_singleton, List.append_assoc, List.singleton_append,
      ← List.cons_append] at hothers
    rw [List.length_cons, List.range'_succ, List.mapM_cons, hline, hothers, List.zipIdx_cons]
    rfl

/-! ## The lines of an excerpt -/

theorem break_not_mem_numbered {line : List Char} (number : Nat) (hline : '\n' ∉ line) :
    '\n' ∉ numbered number line := by
  have hdigits : '\n' ∉ Nat.toDigits 10 number := fun hbreak =>
    absurd (Nat.isDigit_of_mem_toDigits (by decide) (by decide) hbreak) (by decide)
  simp [numbered, hdigits, hline]

theorem lines_of_not_mem {line : List Char} (hline : '\n' ∉ line) : lines line = [line] := by
  induction line with
  | nil => rfl
  | cons c line ih =>
    obtain ⟨hc, hline⟩ : '\n' ≠ c ∧ '\n' ∉ line := by simpa using hline
    rw [lines, if_neg hc.symm, ih hline]

/-- Lines are read off the text that they are joined to. -/
theorem lines_unlines {all : List (List Char)} (hne : all ≠ [])
    (hbreaks : ∀ line ∈ all, '\n' ∉ line) : lines (unlines all) = all := by
  induction all with
  | nil => exact absurd rfl hne
  | cons line others ih =>
    have hline := hbreaks line List.mem_cons_self
    by_cases hothers : others = []
    · rw [hothers]
      exact lines_of_not_mem hline
    · rw [unlines_cons hothers, lines_append_break hline,
        ih hothers fun other hother => hbreaks other (List.mem_cons_of_mem _ hother)]

/-- The sum that is taken fits into a word, and no line behind the last one is looked for. -/
theorem excerpt?_eq_some (source : List Char) (hspan : function.span = some span)
    (hstop : span.stopLine < 0x100000000) (hcontext : context < 0x8000000000000000) :
    excerpt? source function context = some (unlines ((shownLines source span context).map
      fun entry => numbered entry.2 entry.1)) := by
  have hlines : 0 < (lines source).length := List.length_pos_iff.mpr (lines_ne_nil source)
  have hpos : 1 ≤ firstShown span context := Nat.le_max_left ..
  have hfirst : span.startLine - 1 - context = firstShown span context - 1 := by
    rw [firstShown]
    omega
  have hreach : wordSum? (span.stopLine - 1) context = some (span.stopLine - 1 + context) :=
    if_pos (by omega)
  have hlast : min (span.stopLine - 1 + context) ((lines source).length - 1) + 1 =
      lastShown source span context := by
    rw [lastShown]
    omega
  have hends : lastShown source span context ≤ (lines source).length ∧
      lastShown source span context < 0x10000000000000000 := by
    rw [lastShown]
    omega
  simp only [excerpt?, hspan, hreach, hfirst, List.size_toArray, Option.bind_eq_bind,
    Option.bind_some, hlast, Option.pure_def]
  by_cases hempty : lastShown source span context < firstShown span context
  · have hcount : lastShown source span context - (firstShown span context - 1) = 0 := by omega
    rw [shownLines_eq_nil hempty, hcount]
    rfl
  · obtain ⟨front, shown, rest, hall, hfront, hshown⟩ : ∃ front shown rest,
        lines source = front ++ (shown ++ rest) ∧ front.length + 1 = firstShown span context ∧
          front.length + shown.length = lastShown source span context := by
      refine ⟨(lines source).take (firstShown span context - 1),
        ((lines source).drop (firstShown span context - 1)).take
          (lastShown source span context + 1 - firstShown span context),
        ((lines source).drop (firstShown span context - 1)).drop
          (lastShown source span context + 1 - firstShown span context), ?_, ?_, ?_⟩
      · rw [List.take_append_drop, List.take_append_drop]
      · rw [List.length_take]
        omega
      · rw [List.length_take, List.length_take, List.length_drop]
        omega
    rw [shownLines, hall, ← hfront, ← hshown, filter_zipIdx_append, Nat.add_sub_cancel,
      Nat.add_sub_cancel_left, mapM_numberedLine?_append front shown rest (by omega),
      Option.bind_some]

/-- An excerpt with fewer than 2 ^ 63 lines around a declaration is always found. It is made
of the lines between the bounds, each behind its number, and is empty if the bounds are out
of order. Every line that the text has of the declaration is a line of it. -/
theorem excerpt?_shows (source : List Char) (function : Symbol) {span : Span} (context : Nat)
    (hspan : function.span = some span) (hstop : span.stopLine < 0x100000000)
    (hcontext : context < 0x8000000000000000) :
    ∃ text, excerpt? source function context = some text ∧
      excerpt source function context = text ∧
      text = unlines ((shownLines source span context).map fun entry =>
        numbered entry.2 entry.1) ∧
      (lastShown source span context < firstShown span context → text = []) ∧
      ∀ entry ∈ (lines source).zipIdx 1, span.startLine ≤ entry.2 → entry.2 ≤ span.stopLine →
        numbered entry.2 entry.1 ∈ lines text := by
  have htext := excerpt?_eq_some source hspan hstop hcontext
  refine ⟨_, htext, by rw [excerpt, htext, Option.getD_some], rfl, fun hempty => ?_,
    fun entry hentry hfrom hto => ?_⟩
  · rw [shownLines_eq_nil hempty]
    rfl
  · have hnumber := List.le_snd_of_mem_zipIdx hentry
    have hbehind := List.snd_lt_add_of_mem_zipIdx hentry
    have hshown : entry ∈ shownLines source span context := by
      rw [shownLines, List.mem_filter, firstShown, lastShown, Bool.and_eq_true, decide_eq_true_eq,
        decide_eq_true_eq]
      exact ⟨hentry, by omega, by omega⟩
    have hmem := List.mem_map_of_mem (f := fun entry => numbered entry.2 entry.1) hshown
    rw [lines_unlines (List.ne_nil_of_mem hmem)]
    · exact hmem
    · intro line hline
      obtain ⟨other, hother, rfl⟩ := List.mem_map.mp hline
      exact break_not_mem_numbered _ (break_not_mem_of_mem_lines
        (List.fst_mem_of_mem_zipIdx (List.mem_filter.mp hother).1))

/-- A declaration far behind the end of the text, out of order, with the widest context. -/
theorem excerpt?_shows_stale :
    excerpt? "é\n\nb".toList (.ofFunction "f" "app.js" ⟨7, 0, 4294967295, 0⟩) 0x7FFFFFFFFFFFFFFF =
        some "1: é\n2: \n3: b".toList ∧
      excerpt "é\n\nb".toList (.ofFunction "f" "app.js" ⟨7, 0, 4294967295, 0⟩) 0x7FFFFFFFFFFFFFFF =
        "1: é\n2: \n3: b".toList := by
  obtain ⟨text, hfound, hshown, -⟩ := excerpt?_shows "é\n\nb".toList
    (.ofFunction "f" "app.js" ⟨7, 0, 4294967295, 0⟩) 0x7FFFFFFFFFFFFFFF rfl (by decide) (by decide)
  have htext : excerpt? "é\n\nb".toList (.ofFunction "f" "app.js" ⟨7, 0, 4294967295, 0⟩)
      0x7FFFFFFFFFFFFFFF = some "1: é\n2: \n3: b".toList := by
    decide +kernel
  obtain rfl := Option.some.inj (hfound.symm.trans htext)
  exact ⟨hfound, hshown⟩

end Deadwood.Script
