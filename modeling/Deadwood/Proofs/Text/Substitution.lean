/-
# Splicing as substitution

Edits are looked at one by one, by their start and of two with one start the longer
first. `Sifts` tells which are kept: those that stay within the text and begin behind
the last one kept. The kept ones lie apart, and one that is dropped begins inside of a
kept one, unless it changes nothing or reaches beyond the text.

So splicing comes to replacing the kept stretches all at once, in whatever order the
edits are given.
-/

import Deadwood.Proofs.Text.Splice
import Mathlib.Data.List.Nodup
import Mathlib.Data.List.Pairwise

namespace Deadwood.Text

variable {text : List Char} {size : Nat} {edit : Edit} {edits others seen kept dropped : List Edit}

theorem or_of_pairwise {α : Type} {R : α → α → Prop} {entries : List α}
    (hpairwise : entries.Pairwise R) {first second : α} (hfirst : first ∈ entries)
    (hsecond : second ∈ entries) (hne : first ≠ second) : R first second ∨ R second first := by
  have hsymm : Std.Symm fun first second => R first second ∨ R second first :=
    ⟨fun _ _ => Or.symm⟩
  have heither : entries.Pairwise fun first second => R first second ∨ R second first :=
    hpairwise.imp .inl
  exact heither.forall hfirst hsecond hne

/-! ## Looking at edits one by one -/

/-- Where the last of some edits ends. -/
def reach (kept : List Edit) : Nat :=
  (kept.getLast?.map Edit.stop).getD 0

@[simp] theorem reach_append_singleton (kept : List Edit) (edit : Edit) :
    reach (kept ++ [edit]) = edit.stop := by
  simp [reach]

/-- Of the edits that have been seen in a text of some size, some are kept and the others
dropped. -/
inductive Sifts (size : Nat) : List Edit → List Edit → List Edit → Prop
  | nil : Sifts size [] [] []
  | keep {seen kept dropped : List Edit} {edit : Edit} (hsifts : Sifts size seen kept dropped)
      (hchanges : edit.isTrivial = false) (hfits : edit.stop ≤ size)
      (hbehind : reach kept ≤ edit.start) :
      Sifts size (seen ++ [edit]) (kept ++ [edit]) dropped
  | drop {seen kept dropped : List Edit} {edit : Edit} (hsifts : Sifts size seen kept dropped)
      (hwhy : edit.isTrivial = true ∨ size < edit.stop ∨ edit.start < reach kept) :
      Sifts size (seen ++ [edit]) kept (dropped ++ [edit])

/-- Choosing goes on with what has been sifted. -/
theorem Sifts.choose (hsifts : Sifts size seen kept dropped) (edits : List Edit) :
    ∃ more, Sifts size (seen ++ edits) (kept ++ Edit.choose size (reach kept) edits)
      (dropped ++ more) := by
  induction edits generalizing seen kept dropped with
  | nil => exact ⟨[], by simpa [Edit.choose] using hsifts⟩
  | cons edit edits ih =>
    rw [Edit.choose]
    split
    · rename_i hwhy
      simp only [Bool.or_eq_true, decide_eq_true_eq, or_assoc] at hwhy
      obtain ⟨more, hmore⟩ := ih (hsifts.drop hwhy)
      exact ⟨edit :: more, by simpa using hmore⟩
    · rename_i hchosen
      simp only [Bool.or_eq_true, decide_eq_true_eq, not_or, Nat.not_lt, Bool.not_eq_true]
        at hchosen
      obtain ⟨⟨hchanges, hfits⟩, hbehind⟩ := hchosen
      obtain ⟨more, hmore⟩ := ih (hsifts.keep hchanges hfits hbehind)
      exact ⟨more, by simpa using hmore⟩

theorem sifts_chosenEdits (text : List Char) (edits : List Edit) :
    ∃ dropped, Sifts (byteSize text) (edits.mergeSort Edit.precedes) (chosenEdits text edits)
      dropped := by
  have hstart : Sifts (byteSize text) [] [] [] := .nil
  exact hstart.choose (edits.mergeSort Edit.precedes)

namespace Sifts

/-- Every edit is either kept or dropped. -/
theorem perm (hsifts : Sifts size seen kept dropped) : seen.Perm (kept ++ dropped) := by
  induction hsifts with
  | nil => exact .nil
  | @keep seen kept dropped edit _ _ _ _ ih =>
    refine (ih.append_right [edit]).trans ?_
    rw [List.append_assoc, List.append_assoc]
    exact (List.perm_append_comm).append_left kept
  | @drop seen kept dropped edit _ _ ih =>
    rw [← List.append_assoc]
    exact ih.append_right [edit]

/-- All that is kept ends where the last of it ends, or before. -/
theorem stop_le_reach (hsifts : Sifts size seen kept dropped)
    (hordered : ∀ edit ∈ seen, edit.start ≤ edit.stop) (hedit : edit ∈ kept) :
    edit.stop ≤ reach kept := by
  induction hsifts generalizing edit with
  | nil => simp at hedit
  | @keep seen kept dropped last _ _ _ hbehind ih =>
    rw [reach_append_singleton]
    rcases List.mem_append.mp hedit with hedit | hedit
    · have hreach := ih (fun other hother => hordered other (List.mem_append_left _ hother)) hedit
      have hlast := hordered last (by simp)
      omega
    · exact Nat.le_of_eq (congrArg Edit.stop (List.mem_singleton.mp hedit))
  | drop _ _ ih =>
    exact ih (fun other hother => hordered other (List.mem_append_left _ hother)) hedit

/-- What is kept lies apart, from left to right. -/
theorem pairwise (hsifts : Sifts size seen kept dropped)
    (hordered : ∀ edit ∈ seen, edit.start ≤ edit.stop) :
    kept.Pairwise fun first second => first.stop ≤ second.start := by
  induction hsifts with
  | nil => exact .nil
  | @keep seen kept dropped last hsifts _ _ hbehind ih =>
    have hearlier : ∀ edit ∈ seen, edit.start ≤ edit.stop := fun edit hedit =>
      hordered edit (List.mem_append_left _ hedit)
    refine List.pairwise_append.mpr ⟨ih hearlier, List.pairwise_singleton _ _, ?_⟩
    intro edit hedit other hother
    rw [List.mem_singleton.mp hother]
    exact Nat.le_trans (hsifts.stop_le_reach hearlier hedit) hbehind
  | drop _ _ ih => exact ih fun edit hedit => hordered edit (List.mem_append_left _ hedit)

/-- What is dropped begins before the end of a kept edit that was looked at earlier, if it
changes something and fits. -/
theorem exists_of_dropped {earlier : Edit → Edit → Prop} (hsifts : Sifts size seen kept dropped)
    (hsorted : seen.Pairwise earlier) (hedit : edit ∈ dropped) (hchanges : edit.isTrivial = false)
    (hfits : edit.stop ≤ size) :
    ∃ other ∈ kept, earlier other edit ∧ edit.start < other.stop := by
  induction hsifts with
  | nil => simp at hedit
  | keep _ _ _ _ ih =>
    obtain ⟨other, hother, hinside⟩ := ih (List.pairwise_append.mp hsorted).1 hedit
    exact ⟨other, List.mem_append_left _ hother, hinside⟩
  | @drop seen kept dropped last hsifts hwhy ih =>
    obtain ⟨hearlier, -, hbefore⟩ := List.pairwise_append.mp hsorted
    rcases List.mem_append.mp hedit with hedit | hedit
    · exact ih hearlier hedit
    · obtain rfl := List.mem_singleton.mp hedit
      have hinside : edit.start < reach kept := by
        rcases hwhy with htrivial | hbeyond | hinside
        · rw [hchanges] at htrivial
          exact absurd htrivial Bool.false_ne_true
        · omega
        · exact hinside
      cases hlast : kept.getLast? with
      | none => simp [reach, hlast] at hinside
      | some other =>
        have hkept : other ∈ kept := List.mem_of_getLast? hlast
        have hseen : other ∈ seen := hsifts.perm.mem_iff.mpr (List.mem_append_left _ hkept)
        simp only [reach, hlast, Option.map_some, Option.getD_some] at hinside
        exact ⟨other, hkept, hbefore other hseen edit (by simp), hinside⟩

end Sifts

/-! ## The order in which edits are looked at -/

/-- The edits of a list by their start, of those with one start the longer first, and of
those with one stretch the first in the list first. -/
structure InOrder (edits sorted : List Edit) : Prop where
  perm : sorted.Perm edits
  ordered : sorted.Pairwise fun first second =>
    first.start < second.start ∨ first.start = second.start ∧ second.stop ≤ first.stop
  stable : ∀ start stop : Nat, (sorted.filter fun edit => edit.start == start && edit.stop == stop) =
    edits.filter fun edit => edit.start == start && edit.stop == stop

theorem isTied_precedes (edit other : Edit) :
    isTied Edit.precedes edit other = (other.start == edit.start && other.stop == edit.stop) := by
  rw [Bool.eq_iff_iff]
  simp only [isTied, Edit.precedes, Bool.or_eq_true, Bool.and_eq_true, decide_eq_true_eq,
    beq_iff_eq]
  omega

theorem inOrder_mergeSort (edits : List Edit) : InOrder edits (edits.mergeSort Edit.precedes) where
  perm := List.mergeSort_perm edits _
  ordered := by
    refine (List.pairwise_mergeSort isRanking_precedes.trans isRanking_precedes.total edits).imp ?_
    intro first second hprecedes
    simpa [Edit.precedes] using hprecedes
  stable := fun start stop => by
    have htied := isRanking_precedes.filter_mergeSort ⟨start, stop, []⟩ edits
    simpa only [funext (isTied_precedes _)] using htied

theorem InOrder.pairwise_start {sorted : List Edit} (horder : InOrder edits sorted) :
    sorted.Pairwise fun first second => first.start ≤ second.start :=
  horder.ordered.imp fun hbefore => by omega

/-- Of edits with stretches of their own, every rearrangement is sorted alike. -/
theorem mergeSort_precedes_of_perm (hperm : others.Perm edits)
    (hnodup : (edits.map fun edit => (edit.start, edit.stop)).Nodup) :
    others.mergeSort Edit.precedes = edits.mergeSort Edit.precedes := by
  have hsorted : ∀ edits : List Edit, (edits.mergeSort Edit.precedes).Pairwise
      fun first second => first.precedes second = true := fun edits =>
    List.pairwise_mergeSort isRanking_precedes.trans isRanking_precedes.total edits
  have hsame : (others.mergeSort Edit.precedes).Perm (edits.mergeSort Edit.precedes) :=
    (List.mergeSort_perm others _).trans (hperm.trans (List.mergeSort_perm edits _).symm)
  refine hsame.eq_of_pairwise (fun first second hfirst hsecond hbefore hbehind => ?_)
    (hsorted others) (hsorted edits)
  have htied : isTied Edit.precedes first second = true := by simp [isTied, hbefore, hbehind]
  rw [isTied_precedes, Bool.and_eq_true, beq_iff_eq, beq_iff_eq] at htied
  refine List.inj_on_of_nodup_map hnodup ?_ (List.mem_mergeSort.mp hsecond) ?_
  · exact hperm.mem_iff.mp (List.mem_mergeSort.mp hfirst)
  · rw [htied.1, htied.2]

/-! ## Splicing -/

/-- An edit whose ends are in order, and places to cut as far as they are in the text. -/
structure Edit.IsAligned (text : List Char) (edit : Edit) : Prop where
  ordered : edit.start ≤ edit.stop
  start : edit.start ≤ byteSize text → isBoundary text edit.start = true
  stop : edit.stop ≤ byteSize text → isBoundary text edit.stop = true

instance (text : List Char) (edit : Edit) : Decidable (edit.IsAligned text) :=
  decidable_of_iff (edit.start ≤ edit.stop ∧
      (edit.start ≤ byteSize text → isBoundary text edit.start = true) ∧
      (edit.stop ≤ byteSize text → isBoundary text edit.stop = true))
    ⟨fun h => ⟨h.1, h.2.1, h.2.2⟩, fun h => ⟨h.ordered, h.start, h.stop⟩⟩

theorem Edit.IsAligned.exists_slice (haligned : edit.IsAligned text)
    (hfits : edit.stop ≤ byteSize text) :
    ∃ part, slice? text ⟨edit.start, edit.stop⟩ = some part := by
  have hordered := haligned.ordered
  obtain ⟨before, after, rfl, hstart⟩ :=
    isBoundary_iff.mp (haligned.start (Nat.le_trans hordered hfits))
  obtain ⟨upTo, behind, hsame, hstop⟩ := isBoundary_iff.mp (haligned.stop hfits)
  obtain ⟨part, rfl, rfl⟩ := exists_append_of_byteSize_le hsame (by omega)
  rw [byteSize_append] at hstop
  exact ⟨part, slice?_eq_some_iff.mpr ⟨before, behind, rfl, hstart, by omega⟩⟩

/-- Splicing is substitution. The edits are looked at in order, and those that are kept
lie apart; what comes out is the text with their stretches replaced all at once. An edit
of a stretch in the text is dropped only if it overlaps a kept one. Where no two edits
have the same stretch, their order in the list makes no difference. -/
theorem splice?_substitutes (haligned : ∀ edit ∈ edits, edit.IsAligned text) :
    ∃ sorted kept dropped result, InOrder edits sorted ∧
      Sifts (byteSize text) sorted kept dropped ∧
      splice? text edits = some (result, kept.length) ∧
      (kept.Pairwise fun first second => first.stop ≤ second.start) ∧
      Replaces 0 text kept result ∧
      (∀ edit ∈ dropped, edit.start < edit.stop → edit.stop ≤ byteSize text →
        ∃ other ∈ kept, other.start < edit.stop ∧ edit.start < other.stop) ∧
      ((edits.map fun edit => (edit.start, edit.stop)).Nodup →
        ∀ others, others.Perm edits → splice? text others = some (result, kept.length)) := by
  have horder := inOrder_mergeSort edits
  obtain ⟨dropped, hsifts⟩ := sifts_chosenEdits text edits
  obtain ⟨result, hsplice, hreplaces⟩ := splice?_spec fun edit hedit =>
    (haligned edit hedit).exists_slice
  have hordered : ∀ edit ∈ edits.mergeSort Edit.precedes, edit.start ≤ edit.stop :=
    fun edit hedit => (haligned edit (List.mem_mergeSort.mp hedit)).ordered
  refine ⟨_, _, dropped, result, horder, hsifts, hsplice, hsifts.pairwise hordered, hreplaces,
    fun edit hedit hlength hfits => ?_, fun hnodup others hperm => ?_⟩
  · have hchanges : edit.isTrivial = false := by simp [Edit.isTrivial, Nat.not_le.mpr hlength]
    obtain ⟨other, hother, hbefore, hinside⟩ :=
      hsifts.exists_of_dropped horder.pairwise_start hedit hchanges hfits
    exact ⟨other, hother, Nat.lt_of_le_of_lt hbefore hlength, hinside⟩
  · have hsame : chosenEdits text others = chosenEdits text edits := by
      rw [chosenEdits, mergeSort_precedes_of_perm hperm hnodup, chosenEdits]
    rw [← hsplice, splice?, splice?, hsame]

/-- A stretch around another, one that reaches into it, two insertions behind it and one
edit that reaches beyond the text. -/
def crossedEdits : List Edit :=
  [⟨3, 4, "y".toList⟩, ⟨1, 5, "XYZ".toList⟩, ⟨5, 5, "+".toList⟩, ⟨4, 7, []⟩, ⟨5, 5, "-".toList⟩,
    ⟨6, 20, []⟩]

theorem splice?_substitutes_crossed :
    (∀ edit ∈ crossedEdits, edit.IsAligned "aé1234".toList) ∧
    ∃ sorted kept dropped, InOrder crossedEdits sorted ∧
      Sifts (byteSize "aé1234".toList) sorted kept dropped ∧ kept.length = 3 ∧
      (kept.Pairwise fun first second => first.stop ≤ second.start) ∧
      Replaces 0 "aé1234".toList kept "aXYZ+-34".toList := by
  have haligned : ∀ edit ∈ crossedEdits, edit.IsAligned "aé1234".toList := by decide
  obtain ⟨sorted, kept, dropped, result, horder, hsifts, hsplice, hapart, hreplaces, -, -⟩ :=
    splice?_substitutes haligned
  have hsorted : crossedEdits.mergeSort Edit.precedes = [⟨1, 5, "XYZ".toList⟩, ⟨3, 4, "y".toList⟩,
      ⟨4, 7, []⟩, ⟨5, 5, "+".toList⟩, ⟨5, 5, "-".toList⟩, ⟨6, 20, []⟩] := by
    simp [crossedEdits, List.mergeSort, List.MergeSort.Internal.splitInTwo, Edit.precedes]
  have hresult : splice? "aé1234".toList crossedEdits = some ("aXYZ+-34".toList, 3) := by
    rw [splice?, chosenEdits, hsorted]
    decide +kernel
  obtain ⟨rfl, hlength⟩ := Prod.mk.inj (Option.some.inj (hsplice.symm.trans hresult))
  exact ⟨haligned, sorted, kept, dropped, horder, hsifts, hlength, hapart, hreplaces⟩

end Deadwood.Text
