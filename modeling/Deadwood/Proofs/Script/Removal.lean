/-
# Commenting functions out changes a script

What takes the place of a function has all its lines and three more, so a script
in which any function is commented out is another text. Which text it is does not
depend on the order in which the functions are given, except among functions that
begin at the same place.
-/

import Deadwood.Proofs.Sorting
import Deadwood.Proofs.Text.LineDiff
import Deadwood.Proofs.Text.Splice
import Deadwood.Script.Removal

namespace Deadwood.Script

open Deadwood.Text

variable {source text iso : List Char} {function : Symbol} {functions others : List Symbol}
  {edit : Edit}

/-! ## Line breaks -/

/-- A text has one line more than line breaks. -/
theorem length_lines (text : List Char) : (lines text).length = text.count '\n' + 1 := by
  induction text with
  | nil => rfl
  | cons c rest ih =>
    by_cases hc : c = '\n'
    · rw [lines, if_pos hc, List.length_cons, ih, hc, List.count_cons_self]
    · obtain ⟨line, others, hlines, hcons⟩ := lines_cons_of_ne rest hc
      rw [hlines] at ih
      rw [hcons, List.count_cons_of_ne hc, ← ih]
      rfl

/-- Between any two texts that are joined stands a line break, if one is in the
separator. -/
private theorem length_le_count_joinWith (indent : List Char) (first : List Char)
    (rest : List (List Char)) :
    rest.length ≤ (joinWith ('\n' :: indent) (first :: rest)).count '\n' := by
  induction rest generalizing first with
  | nil => simp
  | cons next rest ih =>
    have hrest := ih next
    rw [joinWith, List.count_append, List.count_append, List.count_cons_self, List.length_cons]
    · omega
    · simp

/-- What takes the place of a function has more lines. -/
theorem count_lt_removalBlock (name text indent iso : List Char) :
    text.count '\n' < (removalBlock name text indent iso).count '\n' := by
  have hlength := length_lines text
  unfold removalBlock
  dsimp only
  rw [List.count_append]
  refine Nat.lt_of_lt_of_le ?_ (Nat.add_le_add_right (length_le_count_joinWith _ _ _) _)
  cases hlines : lines text with
  | nil => exact absurd hlines (lines_ne_nil text)
  | cons first others =>
    rw [hlines, List.length_cons] at hlength
    simp only [List.length_cons, List.length_map]
    omega

/-- Replacing stretches by texts with more line breaks makes a text with more line
breaks. -/
theorem count_le_of_replaces {offset : Nat} {front result : List Char} {edits : List Edit}
    (hreplaces : Replaces offset text edits result) (hfront : byteSize front = offset)
    (hmore : ∀ edit ∈ edits, ∀ part, slice? (front ++ text) ⟨edit.start, edit.stop⟩ = some part →
      part.count '\n' < edit.replacement.count '\n') :
    text.count '\n' + edits.length ≤ result.count '\n' := by
  induction hreplaces generalizing front with
  | none text => simp
  | @next offset edit edits after result gap part start stop rest ih =>
    have hstart : byteSize (front ++ gap) = edit.start := by rw [byteSize_append, hfront, start]
    have hcut : byteSize (front ++ gap ++ part) = edit.stop := by
      rw [byteSize_append (front ++ gap), hstart, stop]
    have happend : front ++ (gap ++ (part ++ after)) = front ++ gap ++ part ++ after := by simp
    have hpart := hmore edit List.mem_cons_self part
      (slice?_eq_some_iff.mpr ⟨front ++ gap, after, by simp, hstart, stop.symm⟩)
    have hrest := ih hcut fun other hother => by
      rw [← happend]
      exact hmore other (List.mem_cons_of_mem _ hother)
    simp only [List.count_append, List.length_cons]
    omega

/-! ## Edits of functions -/

/-- The edit that comments a function out replaces the stretch of its declaration by
its block. -/
theorem removalEdit?_spec (hedit : removalEdit? source iso function = some edit) :
    ∃ span part indent, function.span = some span ∧
      slice? source ⟨span.start, span.stop⟩ = some part ∧
      edit = ⟨span.start, span.stop, removalBlock function.name.toList part indent iso⟩ := by
  unfold removalEdit? at hedit
  obtain ⟨span, hspan, hedit⟩ := Option.bind_eq_some_iff.mp hedit
  obtain ⟨part, hpart, hedit⟩ := Option.bind_eq_some_iff.mp hedit
  obtain ⟨⟨before, after⟩, -, hedit⟩ := Option.bind_eq_some_iff.mp hedit
  exact ⟨span, part, _, hspan, hpart, (Option.some.inj hedit).symm⟩

/-- A function whose declaration lies in the text has such an edit. -/
theorem exists_removalEdit? {span : Span} {part : List Char} (hspan : function.span = some span)
    (hpart : slice? source ⟨span.start, span.stop⟩ = some part) (iso : List Char) :
    ∃ edit, removalEdit? source iso function = some edit ∧ edit.start = span.start ∧
      edit.stop = span.stop := by
  obtain ⟨before, after, hsource, hstart, -⟩ := slice?_eq_some_iff.mp hpart
  have hsplit : splitAt? span.start source = some (before, part ++ after) := by
    rw [hsource, ← hstart, splitAt?_append]
  exact ⟨⟨span.start, span.stop, removalBlock function.name.toList part (indentAtEnd before) iso⟩,
    by simp [removalEdit?, hspan, hpart, hsplit], rfl, rfl⟩

/-- The edits that are chosen are all made. -/
theorem commentOut_spec (source : List Char) (functions : List Symbol) (iso : List Char) :
    (commentOut source functions iso).2 =
        (chosenEdits source (functions.filterMap (removalEdit? source iso))).length ∧
      Replaces 0 source (chosenEdits source (functions.filterMap (removalEdit? source iso)))
        (commentOut source functions iso).1 := by
  have hcuts : ∀ edit ∈ functions.filterMap (removalEdit? source iso),
      edit.stop ≤ byteSize source → ∃ part, slice? source ⟨edit.start, edit.stop⟩ = some part := by
    intro edit hedit _
    obtain ⟨function, -, hfunction⟩ := List.mem_filterMap.mp hedit
    obtain ⟨span, part, indent, -, hpart, rfl⟩ := removalEdit?_spec hfunction
    exact ⟨part, hpart⟩
  obtain ⟨result, hsplice, hreplaces⟩ := splice?_spec hcuts
  rw [commentOut, hsplice]
  exact ⟨rfl, hreplaces⟩

/-- A script is another text if any function of it was commented out. -/
theorem commentOut_ne_self (happlied : (commentOut source functions iso).2 ≠ 0) :
    (commentOut source functions iso).1 ≠ source := by
  obtain ⟨hlength, hreplaces⟩ := commentOut_spec source functions iso
  have hempty : byteSize [] = 0 := rfl
  have hcount := count_le_of_replaces hreplaces hempty fun edit hedit part hpart => by
    obtain ⟨function, -, hfunction⟩ := List.mem_filterMap.mp (mem_of_mem_chosenEdits hedit)
    obtain ⟨span, other, indent, -, hother, rfl⟩ := removalEdit?_spec hfunction
    obtain rfl := Option.some.inj (hother.symm.trans hpart)
    exact count_lt_removalBlock _ _ _ _
  intro hsame
  rw [hsame] at hcount
  omega

/-! ## The order of functions -/

/-- Whether the declaration of a function begins at an offset. -/
def startsAt (offset : Nat) (function : Symbol) : Bool :=
  function.span.any (·.start == offset)

/-- Edits that are tied are those of functions that begin at one place. -/
private theorem filter_removalEdits (source iso : List Char) (edit : Edit)
    (functions : List Symbol) :
    (functions.filterMap (removalEdit? source iso)).filter (isTied Edit.precedes edit) =
      ((functions.filter (startsAt edit.start)).filterMap (removalEdit? source iso)).filter
        (isTied Edit.precedes edit) := by
  induction functions with
  | nil => rfl
  | cons function functions ih =>
    by_cases hstarts : startsAt edit.start function = true
    · rw [List.filter_cons_of_pos hstarts, List.filterMap_cons, List.filterMap_cons]
      cases removalEdit? source iso function with
      | none => exact ih
      | some found =>
        dsimp only
        rw [List.filter_cons, List.filter_cons, ih]
    · rw [List.filter_cons_of_neg hstarts, List.filterMap_cons, ← ih]
      cases hfound : removalEdit? source iso function with
      | none => rfl
      | some found =>
        apply List.filter_cons_of_neg
        intro htied
        apply hstarts
        obtain ⟨span, part, indent, hspan, -, rfl⟩ := removalEdit?_spec hfound
        simp only [isTied, Edit.precedes, Bool.or_eq_true, Bool.and_eq_true, decide_eq_true_eq,
          beq_iff_eq] at htied
        simp only [startsAt, hspan, Option.any_some, beq_iff_eq]
        omega

/-- The order of the functions makes no difference, except among those that begin at
the same place. -/
theorem commentOut_congr (source iso : List Char)
    (hsame : ∀ offset, functions.filter (startsAt offset) = others.filter (startsAt offset)) :
    commentOut source functions iso = commentOut source others iso := by
  have htied : ∀ edit, (functions.filterMap (removalEdit? source iso)).filter
      (isTied Edit.precedes edit) = (others.filterMap (removalEdit? source iso)).filter
      (isTied Edit.precedes edit) := by
    intro edit
    rw [filter_removalEdits, filter_removalEdits source iso edit others, hsame]
  simp only [commentOut, splice?, chosenEdits, isRanking_precedes.mergeSort_congr htied]

end Deadwood.Script
