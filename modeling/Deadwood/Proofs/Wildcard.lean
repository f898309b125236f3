/-
# Names that patterns stand for

A pattern with stars stands for the names that have its fixed parts in order:
`HasInOrder` allows any gaps. The search takes each part at its first place and
never comes back to it. That loses no name, since what is left behind the first
place of a part ends with what is left behind any other.
-/

import Deadwood.Proofs.Text.Splice
import Deadwood.Wildcard

namespace Deadwood.Wildcard

open Text (byteSize isBoundary)

variable {text name before after rest : List Char} {texts : List (List Char)} {place : Nat}

/-- A name that has texts one behind the other, with anything before, between and
behind them. -/
inductive HasInOrder : List (List Char) → List Char → Prop
  | nil (gap : List Char) : HasInOrder [] gap
  | cons (gap text : List Char) {texts : List (List Char)} {rest : List Char}
      (hrest : HasInOrder texts rest) : HasInOrder (text :: texts) (gap ++ (text ++ rest))

theorem hasInOrder_cons_iff : HasInOrder (text :: texts) name ↔
    ∃ gap rest, name = gap ++ (text ++ rest) ∧ HasInOrder texts rest := by
  constructor
  · intro hname
    cases hname with
    | cons gap _ hrest => exact ⟨gap, _, rfl, hrest⟩
  · rintro ⟨gap, rest, rfl, hrest⟩
    exact .cons gap text hrest

theorem HasInOrder.append_left (gap : List Char) (hrest : HasInOrder texts rest) :
    HasInOrder texts (gap ++ rest) := by
  cases hrest with
  | nil => exact .nil _
  | cons inner text hrest =>
    rw [← List.append_assoc]
    exact .cons (gap ++ inner) text hrest

/-! ## First places -/

/-- A place that holds a text in a name, and no place before it does. -/
def IsFirst (text name before after : List Char) : Prop :=
  name = before ++ (text ++ after) ∧
    ∀ other behind, name = other ++ (text ++ behind) → byteSize before ≤ byteSize other

theorem isFirst_of_find? (hfind : find? text name = some place) :
    ∃ before after, byteSize before = place ∧ IsFirst text name before after := by
  fun_induction find? text name generalizing place with
  | case1 htext =>
    obtain rfl : 0 = place := Option.some.inj hfind
    exact ⟨[], [], rfl, by simp [List.isEmpty_iff.mp htext], fun _ _ _ => Nat.zero_le _⟩
  | case2 => simp at hfind
  | case3 c rest hprefix =>
    obtain rfl : 0 = place := Option.some.inj hfind
    obtain ⟨after, hafter⟩ := List.isPrefixOf_iff_prefix.mp hprefix
    exact ⟨[], after, rfl, hafter.symm, fun _ _ _ => Nat.zero_le _⟩
  | case4 c rest hprefix ih =>
    obtain ⟨inner, hinner, rfl⟩ := Option.map_eq_some_iff.mp hfind
    obtain ⟨before, after, rfl, rfl, hfirst⟩ := ih hinner
    refine ⟨c :: before, after, rfl, rfl, ?_⟩
    intro other behind hother
    cases other with
    | nil =>
      exact absurd (List.isPrefixOf_iff_prefix.mpr ⟨behind, hother.symm⟩) hprefix
    | cons d other =>
      obtain ⟨rfl, htail⟩ := List.cons.inj hother
      exact Nat.add_le_add_left (hfirst other behind htail) _

/-- What occurs in a name is found. -/
theorem isSome_find? (text before after : List Char) :
    (find? text (before ++ (text ++ after))).isSome = true := by
  induction before with
  | nil =>
    have hprefix : text.isPrefixOf (text ++ after) = true :=
      List.isPrefixOf_iff_prefix.mpr (List.prefix_append text after)
    rw [List.nil_append]
    cases hname : text ++ after with
    | nil => simp [find?, (List.append_eq_nil_iff.mp hname).1]
    | cons c rest =>
      rw [hname] at hprefix
      rw [find?, if_pos hprefix]
      rfl
  | cons c before ih =>
    rw [List.cons_append, find?]
    split
    · rfl
    · rwa [Option.isSome_map]

/-- Behind the first place of a text there is all that could be found behind
another. -/
theorem IsFirst.hasInOrder_iff (hfirst : IsFirst text name before after) :
    HasInOrder (text :: texts) name ↔ HasInOrder texts after := by
  obtain ⟨hname, hleast⟩ := hfirst
  constructor
  · intro hordered
    obtain ⟨gap, rest, hother, hrest⟩ := hasInOrder_cons_iff.mp hordered
    have hsame : (before ++ text) ++ after = (gap ++ text) ++ rest := by
      simpa only [List.append_assoc] using hname.symm.trans hother
    have hle : byteSize (before ++ text) ≤ byteSize (gap ++ text) := by
      rw [Text.byteSize_append, Text.byteSize_append]
      exact Nat.add_le_add_right (hleast gap rest hother) _
    obtain ⟨between, -, rfl⟩ := Text.exists_append_of_byteSize_le hsame hle
    exact hrest.append_left between
  · exact fun hrest => hasInOrder_cons_iff.mpr ⟨before, after, hname, hrest⟩

/-! ## The search -/

/-- A search from a place to cut ends at one, and misses no arrangement of what it
looks for. -/
theorem walk?_append (texts : List (List Char)) (front rest : List Char) :
    ∃ stop, walk? (front ++ rest) texts (byteSize front) = some stop ∧
      (stop.isSome = true ↔ HasInOrder texts rest) ∧
      stop.all (isBoundary (front ++ rest)) = true := by
  induction texts generalizing front rest with
  | nil =>
    refine ⟨some (byteSize front), rfl, by simp [HasInOrder.nil], ?_⟩
    simp [isBoundary, Text.splitAt?_append]
  | cons text texts ih =>
    rw [walk?, Text.splitAt?_append]
    dsimp only
    cases hfind : find? text rest with
    | none =>
      refine ⟨none, rfl, ?_, rfl⟩
      simp only [Option.isSome_none, Bool.false_eq_true, false_iff, hasInOrder_cons_iff]
      rintro ⟨gap, behind, rfl, -⟩
      simpa [hfind] using isSome_find? text gap behind
    | some place =>
      obtain ⟨before, after, rfl, hfirst⟩ := isFirst_of_find? hfind
      have hcursor : byteSize front + (byteSize before + byteSize text) =
          byteSize (front ++ (before ++ text)) := by
        rw [Text.byteSize_append, Text.byteSize_append]
      have hname : front ++ rest = (front ++ (before ++ text)) ++ after := by
        simp only [hfirst.1, List.append_assoc]
      rw [hfirst.hasInOrder_iff, hname]
      dsimp only
      rw [hcursor]
      exact ih (front ++ (before ++ text)) after

/-- A pattern without stars stands for itself. One with stars stands for exactly the
names that its non-empty parts make with any gaps before, between and behind them.
However many parts have been found, the cursor is a place to cut, so that there is
always an answer. -/
theorem matchesName_iff_hasInOrder (pattern name : List Char) :
    (∃ answer, matches? pattern name = some answer ∧ matchesName pattern name = answer ∧
      (answer = true ↔ ('*' ∉ pattern ∧ pattern = name) ∨
        ('*' ∈ pattern ∧ HasInOrder ((pattern.splitOn '*').filter (· ≠ [])) name))) ∧
    ∀ count, ∃ stop, walk? name ((segments pattern).take count) 0 = some stop ∧
      stop.all (isBoundary name) = true := by
  constructor
  · have hsegments : segments pattern = (pattern.splitOn '*').filter (· ≠ []) :=
      List.filter_congr fun part _ => by cases part <;> rfl
    rw [matchesName, matches?]
    by_cases hstar : '*' ∈ pattern
    · obtain ⟨stop, hwalk, hstop, -⟩ := walk?_append (segments pattern) [] name
      rw [List.nil_append, byteSize] at hwalk
      simp only [← hsegments, List.contains_iff_mem.mpr hstar, if_true, hwalk, Option.map_some]
      exact ⟨stop.isSome, rfl, rfl, by simp [hstar, hstop]⟩
    · simp [hstar]
  · intro count
    obtain ⟨stop, hwalk, -, hboundary⟩ := walk?_append ((segments pattern).take count) [] name
    exact ⟨stop, hwalk, hboundary⟩

example : matches? "é*éa*".toList "ééaé".toList = some true := by decide

end Deadwood.Wildcard
