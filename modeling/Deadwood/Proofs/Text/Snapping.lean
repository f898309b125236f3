/-
# Edits at any offsets

The ends of an edit need not be places to cut. The start then moves back to the last place
in front of it, and the stop on to the first place behind it, or to the end of the text if it
lies beyond. This is done in the text as it is by then: what stood behind an edit may have
become shorter, so that its ends fall into other characters, or beyond the text.

Still, ends that are in order stay in order, so every edit that is kept can be applied.
-/

import Deadwood.Proofs.Text.Substitution
import Mathlib.Order.Bounds.Basic

namespace Deadwood.Text

variable {text before after content result : List Char} {offset size : Nat} {cut : Range}
  {edit : Edit} {edits kept : List Edit}

/-! ## Moving an offset to a place to cut -/

theorem splitFloor_append_snd (size : Nat) (text : List Char) :
    (splitFloor size text).1 ++ (splitFloor size text).2 = text := by
  fun_induction splitFloor size text with
  | case1 => rfl
  | case2 size c rest hfits before after hrest ih => simpa [hrest] using ih
  | case3 => rfl

theorem splitCeil_append_snd (size : Nat) (text : List Char) :
    (splitCeil size text).1 ++ (splitCeil size text).2 = text := by
  fun_induction splitCeil size text with
  | case1 => rfl
  | case2 => rfl
  | case3 size c rest hsize before after hrest ih => simpa [hrest] using ih

theorem byteSize_splitFloor_le (size : Nat) (text : List Char) :
    byteSize (splitFloor size text).1 ≤ size := by
  fun_induction splitFloor size text with
  | case1 => exact Nat.zero_le _
  | case2 size c rest hfits before after hrest ih =>
    rw [hrest] at ih
    dsimp only at ih ⊢
    rw [byteSize]
    omega
  | case3 => exact Nat.zero_le _

/-- No longer beginning of a text has at most so many bytes. -/
theorem byteSize_le_splitFloor (hle : byteSize before ≤ size) :
    byteSize before ≤ byteSize (splitFloor size (before ++ after)).1 := by
  induction before generalizing size with
  | nil => exact Nat.zero_le _
  | cons c before ih =>
    rw [byteSize] at hle
    have hrest := ih (show byteSize before ≤ size - c.utf8Size by omega)
    rw [List.cons_append, splitFloor, if_pos (by omega), byteSize, byteSize]
    omega

theorem le_byteSize_splitCeil (size : Nat) (text : List Char) :
    min size (byteSize text) ≤ byteSize (splitCeil size text).1 := by
  fun_induction splitCeil size text with
  | case1 => simp [byteSize]
  | case2 => simp
  | case3 size c rest hsize before after hrest ih =>
    rw [hrest] at ih
    dsimp only at ih ⊢
    rw [byteSize, byteSize]
    omega

/-- No shorter beginning of a text has at least so many bytes, or all of them. -/
theorem byteSize_splitCeil_le (hle : min size (byteSize (before ++ after)) ≤ byteSize before) :
    byteSize (splitCeil size (before ++ after)).1 ≤ byteSize before := by
  induction before generalizing size with
  | nil =>
    cases size with
    | zero => cases after <;> exact Nat.zero_le _
    | succ size =>
      cases after with
      | nil => exact Nat.zero_le _
      | cons c after =>
        have hpos := c.utf8Size_pos
        simp only [List.nil_append, byteSize] at hle
        omega
  | cons c before ih =>
    cases size with
    | zero => exact Nat.zero_le _
    | succ size =>
      rw [List.cons_append, byteSize, byteSize] at hle
      have hrest := ih (show min (size + 1 - c.utf8Size) _ ≤ byteSize before by omega)
      rw [List.cons_append, splitCeil, byteSize]
      · simpa [byteSize] using hrest
      · simp

/-- Where an edit cuts a text: at the last place that is not behind its start, and at the
first that is not before its stop, or at the end of the text if the stop is beyond that. -/
structure Edit.Snaps (text : List Char) (edit : Edit) (cut : Range) : Prop where
  start : IsGreatest {place | isBoundary text place = true ∧ place ≤ edit.start} cut.start
  stop : IsLeast
    {place | isBoundary text place = true ∧ min edit.stop (byteSize text) ≤ place} cut.stop

theorem Edit.snaps (text : List Char) (edit : Edit) :
    edit.Snaps text
      ⟨byteSize (splitFloor edit.start text).1, byteSize (splitCeil edit.stop text).1⟩ where
  start := by
    refine ⟨⟨isBoundary_iff.mpr ⟨_, _, (splitFloor_append_snd _ _).symm, rfl⟩,
      byteSize_splitFloor_le _ _⟩, ?_⟩
    rintro place ⟨hboundary, hle⟩
    obtain ⟨before, after, rfl, rfl⟩ := isBoundary_iff.mp hboundary
    exact byteSize_le_splitFloor hle
  stop := by
    refine ⟨⟨isBoundary_iff.mpr ⟨_, _, (splitCeil_append_snd _ _).symm, rfl⟩,
      le_byteSize_splitCeil _ _⟩, ?_⟩
    rintro place ⟨hboundary, hle⟩
    obtain ⟨before, after, rfl, rfl⟩ := isBoundary_iff.mp hboundary
    exact byteSize_splitCeil_le hle

/-- Ends in order stay in order, and within the text. -/
theorem Edit.Snaps.ordered (hsnaps : edit.Snaps text cut) (hordered : edit.start ≤ edit.stop) :
    cut.start ≤ cut.stop ∧ cut.stop ≤ byteSize text := by
  obtain ⟨⟨⟨hstart, hbefore⟩, -⟩, ⟨⟨-, hbehind⟩, hleast⟩⟩ := hsnaps
  obtain ⟨front, rest, rfl, hfront⟩ := isBoundary_iff.mp hstart
  have hend : isBoundary (front ++ rest) (byteSize (front ++ rest)) = true :=
    isBoundary_iff.mpr ⟨front ++ rest, [], by simp, rfl⟩
  have hwithin : byteSize front ≤ byteSize (front ++ rest) := by
    rw [byteSize_append]
    omega
  refine ⟨?_, hleast ⟨hend, Nat.min_le_right _ _⟩⟩
  -- The start lies within the text, so it is before the stop even if that is beyond.
  omega

/-! ## One edit after the other -/

/-- Edits are put in place from the last to the first. Each cuts the text as it is by then at
two places in order, and what stands between them is replaced. -/
inductive PutsInPlace (text : List Char) : List Edit → List Char → Prop
  | none : PutsInPlace text [] text
  | next {edit : Edit} {later : List Edit} {content result : List Char} (cut : Range)
      (rest : PutsInPlace text later content) (snaps : edit.Snaps content cut)
      (ordered : cut.start ≤ cut.stop) (within : cut.stop ≤ byteSize content)
      (replaces : Replaces 0 content [⟨cut.start, cut.stop, edit.replacement⟩] result) :
      PutsInPlace text (edit :: later) result

/-- An edit whose ends are in order is applied to any text. -/
theorem exists_applyEdit? (content : List Char) (hordered : edit.start ≤ edit.stop) :
    ∃ cut result, applyEdit? content edit = some result ∧ edit.Snaps content cut ∧
      Replaces 0 content [⟨cut.start, cut.stop, edit.replacement⟩] result := by
  have hsnaps := edit.snaps content
  have hcut := (hsnaps.ordered hordered).1
  have hfront := splitFloor_append_snd edit.start content
  have hback := splitCeil_append_snd edit.stop content
  refine ⟨_, _, if_pos hcut, hsnaps, ?_⟩
  generalize splitFloor edit.start content = floor at hcut hfront ⊢
  generalize splitCeil edit.stop content = ceil at hcut hback ⊢
  obtain ⟨part, hupTo, hbehind⟩ := exists_append_of_byteSize_le (hfront.trans hback.symm) hcut
  rw [← hfront, hbehind]
  refine .next floor.1 part (Nat.zero_add _).symm ?_ (.none ceil.2)
  dsimp only
  rw [hupTo, byteSize_append]

theorem exists_applyEdits? (text : List Char) (hordered : ∀ edit ∈ kept, edit.start ≤ edit.stop) :
    ∃ result, applyEdits? text kept = some result ∧ PutsInPlace text kept result := by
  induction kept with
  | nil => exact ⟨text, rfl, .none⟩
  | cons edit later ih =>
    obtain ⟨content, hlater, hplaced⟩ := ih fun other hother =>
      hordered other (List.mem_cons_of_mem _ hother)
    have hedit := hordered edit List.mem_cons_self
    obtain ⟨cut, result, happly, hsnaps, hreplaces⟩ := exists_applyEdit? content hedit
    obtain ⟨hcut, hwithin⟩ := hsnaps.ordered hedit
    refine ⟨result, ?_, .next cut hplaced hsnaps hcut hwithin hreplaces⟩
    unfold applyEdits? at hlater ⊢
    rw [List.foldr_cons, hlater, Option.bind_some, happly]

/-- Splicing has a result for all edits whose ends are in order, wherever these lie. Each edit
that is kept cuts the text as it is by then at places in order and within it. -/
theorem splice?_snaps (text : List Char) (hordered : ∀ edit ∈ edits, edit.start ≤ edit.stop) :
    ∃ sorted kept dropped result, InOrder edits sorted ∧
      Sifts (byteSize text) sorted kept dropped ∧
      splice? text edits = some (result, kept.length) ∧ PutsInPlace text kept result := by
  obtain ⟨dropped, hsifts⟩ := sifts_chosenEdits text edits
  have hkept : ∀ edit ∈ chosenEdits text edits, edit.start ≤ edit.stop := fun edit hedit =>
    hordered edit (mem_of_mem_chosenEdits hedit)
  obtain ⟨result, happly, hplaced⟩ := exists_applyEdits? text hkept
  refine ⟨_, _, dropped, result, inOrder_mergeSort edits, hsifts, ?_, hplaced⟩
  rw [splice?, happly]
  rfl

/-- Edits that touch inside of a character: the last takes away all of it, the one before
then reaches beyond the text, and the stop of the first falls into what that one left. -/
def touchingEdits : List Edit :=
  [⟨0, 2, "y".toList⟩, ⟨2, 3, []⟩, ⟨3, 4, "x".toList⟩, ⟨4, 6, []⟩]

theorem splice?_snaps_touching :
    (∀ edit ∈ touchingEdits, edit.start ≤ edit.stop) ∧
    (isBoundary "aé€".toList 2 = false ∧ isBoundary "aé€".toList 4 = false) ∧
    ∃ sorted kept dropped, InOrder touchingEdits sorted ∧
      Sifts (byteSize "aé€".toList) sorted kept dropped ∧ kept.length = 4 ∧
      PutsInPlace "aé€".toList kept "y".toList := by
  have hordered : ∀ edit ∈ touchingEdits, edit.start ≤ edit.stop := by decide
  obtain ⟨sorted, kept, dropped, result, horder, hsifts, hsplice, hplaced⟩ :=
    splice?_snaps "aé€".toList hordered
  have hresult : splice? "aé€".toList touchingEdits = some ("y".toList, 4) := by
    rw [splice?, chosenEdits, List.mergeSort_of_pairwise (by decide)]
    decide +kernel
  obtain ⟨rfl, hlength⟩ := Prod.mk.inj (Option.some.inj (hsplice.symm.trans hresult))
  exact ⟨hordered, by decide, sorted, kept, dropped, horder, hsifts, hlength, hplaced⟩

end Deadwood.Text
