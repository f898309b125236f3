/-
# What splicing comes to

Edits are put in place from the right, each into a text that is already changed
behind it. Where the ends of the edits are places to cut and no two of them
overlap, that comes to replacing all stretches at once, which `Replaces` says
without offsets into changed texts.
-/

import Deadwood.Proofs.Sorting
import Deadwood.Text.Splice

namespace Deadwood.Text

variable {text before part after front result : List Char} {offset frontier size : Nat}
  {edit : Edit} {edits : List Edit}

/-! ## Offsets -/

theorem byteSize_append (before after : List Char) :
    byteSize (before ++ after) = byteSize before + byteSize after := by
  induction before with
  | nil => simp [byteSize]
  | cons c before ih => rw [List.cons_append, byteSize, ih, byteSize, Nat.add_assoc]

theorem splitAt?_append (before after : List Char) :
    splitAt? (byteSize before) (before ++ after) = some (before, after) := by
  induction before with
  | nil => rw [byteSize, List.nil_append, splitAt?]
  | cons c before ih =>
    have hpos := c.utf8Size_pos
    obtain ⟨offset, hoffset⟩ : ∃ offset, byteSize (c :: before) = offset + 1 :=
      Nat.exists_eq_succ_of_ne_zero (by rw [byteSize]; omega)
    have hrest : offset + 1 - c.utf8Size = byteSize before := by
      rw [← hoffset, byteSize, Nat.add_sub_cancel_left]
    have hfits : c.utf8Size ≤ offset + 1 := by
      rw [← hoffset, byteSize]
      omega
    rw [hoffset, List.cons_append, splitAt?, if_pos hfits, hrest, ih]
    rfl

/-- A text is parted where so many bytes are in front. -/
theorem splitAt?_eq_some_iff :
    splitAt? offset text = some (before, after) ↔
      text = before ++ after ∧ byteSize before = offset := by
  constructor
  · intro hsplit
    fun_induction splitAt? offset text generalizing before with
    | case1 text =>
      obtain ⟨rfl, rfl⟩ : [] = before ∧ text = after := by simpa using hsplit
      exact ⟨rfl, rfl⟩
    | case2 => simp at hsplit
    | case3 offset c rest hfits ih =>
      obtain ⟨⟨inner, after'⟩, hinner, hsame⟩ := Option.map_eq_some_iff.mp hsplit
      obtain ⟨rfl, rfl⟩ : c :: inner = before ∧ after' = after := by simpa using hsame
      obtain ⟨rfl, hsize⟩ := ih hinner
      exact ⟨rfl, by rw [byteSize, hsize]; omega⟩
    | case4 => simp at hsplit
  · rintro ⟨rfl, rfl⟩
    exact splitAt?_append before after

theorem isBoundary_iff :
    isBoundary text offset = true ↔
      ∃ before after, text = before ++ after ∧ byteSize before = offset := by
  rw [isBoundary, Option.isSome_iff_exists, Prod.exists]
  simp only [splitAt?_eq_some_iff]

theorem slice?_eq_some_iff {start stop : Nat} :
    slice? text ⟨start, stop⟩ = some part ↔ ∃ before after, text = before ++ (part ++ after) ∧
      byteSize before = start ∧ start + byteSize part = stop := by
  constructor
  · intro hslice
    unfold slice? at hslice
    split at hslice
    · rename_i hordered
      obtain ⟨⟨before, behind⟩, hbefore, hpart⟩ := Option.bind_eq_some_iff.mp hslice
      obtain ⟨⟨part', after⟩, hafter, rfl⟩ := Option.map_eq_some_iff.mp hpart
      obtain ⟨rfl, rfl⟩ := splitAt?_eq_some_iff.mp hbefore
      obtain ⟨rfl, hsize⟩ := splitAt?_eq_some_iff.mp hafter
      exact ⟨before, after, rfl, rfl, by dsimp only at hordered hsize ⊢; omega⟩
    · simp at hslice
  · rintro ⟨before, after, rfl, rfl, rfl⟩
    rw [slice?, if_pos (Nat.le_add_right _ _)]
    dsimp only
    rw [splitAt?_append, Option.bind_some, Nat.add_sub_cancel_left, splitAt?_append]
    rfl

/-- A stretch of a text is as long as its ends say, and ends in the text. -/
theorem slice?_bounds {range : Range} (hslice : slice? text range = some part) :
    range.start + byteSize part = range.stop ∧ range.stop ≤ byteSize text := by
  obtain ⟨start, stop⟩ := range
  obtain ⟨before, after, rfl, rfl, rfl⟩ := slice?_eq_some_iff.mp hslice
  refine ⟨rfl, ?_⟩
  simp only [byteSize_append]
  omega

/-- Both ends of a stretch are places to cut. -/
theorem isBoundary_of_slice? {range : Range} (hslice : slice? text range = some part) :
    isBoundary text range.start = true ∧ isBoundary text range.stop = true := by
  obtain ⟨start, stop⟩ := range
  obtain ⟨before, after, rfl, rfl, rfl⟩ := slice?_eq_some_iff.mp hslice
  refine ⟨isBoundary_iff.mpr ⟨before, part ++ after, rfl, rfl⟩,
    isBoundary_iff.mpr ⟨before ++ part, after, by simp, byteSize_append before part⟩⟩

/-- Of two beginnings of a text the one with fewer bytes begins the other. -/
theorem exists_append_of_byteSize_le {other behind : List Char}
    (hsame : before ++ after = other ++ behind) (hle : byteSize before ≤ byteSize other) :
    ∃ gap, other = before ++ gap ∧ after = gap ++ behind := by
  rcases List.append_eq_append_iff.mp hsame with ⟨gap, rfl, rfl⟩ | ⟨gap, rfl, rfl⟩
  · exact ⟨gap, rfl, rfl⟩
  · have hgap : gap = [] := by
      cases gap with
      | nil => rfl
      | cons c gap =>
        have hpos := c.utf8Size_pos
        rw [byteSize_append, byteSize] at hle
        omega
    subst hgap
    exact ⟨[], by simp, by simp⟩

/-! ## One edit -/

theorem splitFloor_append (before after : List Char) :
    splitFloor (byteSize before) (before ++ after) = (before, after) := by
  induction before with
  | nil =>
    cases after with
    | nil => rfl
    | cons c after =>
      have hpos := c.utf8Size_pos
      rw [byteSize, List.nil_append, splitFloor, if_neg (by omega)]
  | cons c before ih =>
    rw [List.cons_append, splitFloor, if_pos (by rw [byteSize]; omega), byteSize,
      Nat.add_sub_cancel_left, ih]

theorem splitCeil_append (before after : List Char) :
    splitCeil (byteSize before) (before ++ after) = (before, after) := by
  induction before with
  | nil =>
    cases after with
    | nil => rfl
    | cons c after => rfl
  | cons c before ih =>
    have hpos := c.utf8Size_pos
    obtain ⟨size, hsize⟩ : ∃ size, byteSize (c :: before) = size + 1 :=
      Nat.exists_eq_succ_of_ne_zero (by rw [byteSize]; omega)
    have hrest : size + 1 - c.utf8Size = byteSize before := by
      rw [← hsize, byteSize, Nat.add_sub_cancel_left]
    rw [hsize, List.cons_append, splitCeil, hrest, ih]
    simp

/-- An edit replaces the stretch between its ends. -/
theorem applyEdit?_append (hstart : edit.start = byteSize before)
    (hstop : edit.stop = edit.start + byteSize part) :
    applyEdit? (before ++ (part ++ after)) edit = some (before ++ edit.replacement ++ after) := by
  have hcut : byteSize (before ++ part) = edit.stop := by
    rw [byteSize_append, hstop, hstart]
  have hceil : splitCeil edit.stop (before ++ (part ++ after)) = (before ++ part, after) := by
    rw [← hcut, ← List.append_assoc, splitCeil_append]
  have hfloor : splitFloor edit.start (before ++ (part ++ after)) = (before, part ++ after) := by
    rw [hstart, splitFloor_append]
  simp only [applyEdit?, hceil, hfloor]
  rw [if_pos (by rw [byteSize_append]; omega)]

/-! ## All edits at once -/

/-- A text that begins at an offset becomes another if some stretches of it are
replaced all at once. -/
inductive Replaces : Nat → List Char → List Edit → List Char → Prop
  | none {offset : Nat} (text : List Char) : Replaces offset text [] text
  | next {offset : Nat} {edit : Edit} {edits : List Edit} {after result : List Char}
      (gap part : List Char) (start : edit.start = offset + byteSize gap)
      (stop : edit.stop = edit.start + byteSize part)
      (rest : Replaces edit.stop after edits result) :
      Replaces offset (gap ++ (part ++ after)) (edit :: edits) (gap ++ edit.replacement ++ result)

theorem applyEdits?_of_replaces (hreplaces : Replaces offset text edits result)
    (hfront : byteSize front = offset) :
    applyEdits? (front ++ text) edits = some (front ++ result) := by
  induction hreplaces generalizing front with
  | none text => rfl
  | @next offset edit edits after result gap part start stop rest ih =>
    have hstart : edit.start = byteSize (front ++ gap) := by rw [byteSize_append, hfront, start]
    have hcut : byteSize (front ++ gap ++ part) = edit.stop := by
      rw [byteSize_append (front ++ gap), ← hstart, stop]
    have hlater := ih hcut
    have happend : front ++ (gap ++ (part ++ after)) = front ++ gap ++ part ++ after := by simp
    unfold applyEdits? at hlater ⊢
    rw [happend, List.foldr_cons, hlater, Option.bind_some, List.append_assoc (front ++ gap),
      applyEdit?_append hstart stop]
    simp

/-- Edits whose ends are places to cut replace their stretches, as far as they are
chosen. -/
theorem exists_replaces_choose (hcuts : ∀ edit ∈ edits, edit.stop ≤ size → ∃ part,
      slice? (front ++ text) ⟨edit.start, edit.stop⟩ = some part)
    (hfront : byteSize front = frontier) :
    ∃ result, Replaces frontier text (Edit.choose size frontier edits) result := by
  fun_induction Edit.choose size frontier edits generalizing front text with
  | case1 frontier => exact ⟨text, .none text⟩
  | case2 frontier edit edits hdropped ih =>
    exact ih (fun other hother => hcuts other (List.mem_cons_of_mem _ hother)) hfront
  | case3 frontier edit edits hchosen ih =>
    simp only [Bool.or_eq_true, decide_eq_true_eq, not_or, Nat.not_lt] at hchosen
    obtain ⟨⟨-, hfits⟩, hbehind⟩ := hchosen
    obtain ⟨part, hpart⟩ := hcuts edit List.mem_cons_self hfits
    obtain ⟨before, after, hsame, hstart, hstop⟩ := slice?_eq_some_iff.mp hpart
    obtain ⟨gap, rfl, rfl⟩ := exists_append_of_byteSize_le hsame (by omega)
    have happend : front ++ (gap ++ (part ++ after)) = front ++ gap ++ part ++ after := by simp
    have hcut : byteSize (front ++ gap ++ part) = edit.stop := by
      rw [byteSize_append, hstart, hstop]
    have hothers : ∀ other ∈ edits, other.stop ≤ size → ∃ replaced,
        slice? (front ++ gap ++ part ++ after) ⟨other.start, other.stop⟩ = some replaced := by
      intro other hother
      rw [← happend]
      exact hcuts other (List.mem_cons_of_mem _ hother)
    obtain ⟨result, hresult⟩ := ih hothers hcut
    refine ⟨gap ++ edit.replacement ++ result, .next gap part ?_ hstop.symm hresult⟩
    rw [← hstart, byteSize_append, hfront]

theorem mem_of_mem_choose (hedit : edit ∈ Edit.choose size frontier edits) : edit ∈ edits := by
  fun_induction Edit.choose size frontier edits with
  | case1 => exact hedit
  | case2 frontier first edits hdropped ih => exact List.mem_cons_of_mem _ (ih hedit)
  | case3 frontier first edits hchosen ih =>
    rcases List.mem_cons.mp hedit with rfl | hlater
    · exact List.mem_cons_self
    · exact List.mem_cons_of_mem _ (ih hlater)

theorem mem_of_mem_chosenEdits (hedit : edit ∈ chosenEdits text edits) : edit ∈ edits :=
  List.mem_mergeSort.mp (mem_of_mem_choose hedit)

/-- Splicing replaces the chosen stretches all at once, if all ends in the text are
places to cut. -/
theorem splice?_spec (hcuts : ∀ edit ∈ edits, edit.stop ≤ byteSize text →
      ∃ part, slice? text ⟨edit.start, edit.stop⟩ = some part) :
    ∃ result, splice? text edits = some (result, (chosenEdits text edits).length) ∧
      Replaces 0 text (chosenEdits text edits) result := by
  have hsorted : ∀ edit ∈ edits.mergeSort Edit.precedes, edit.stop ≤ byteSize text → ∃ part,
      slice? ([] ++ text) ⟨edit.start, edit.stop⟩ = some part := fun edit hedit =>
    hcuts edit (List.mem_mergeSort.mp hedit)
  have hempty : byteSize [] = 0 := rfl
  obtain ⟨result, hresult⟩ := exists_replaces_choose hsorted hempty
  refine ⟨result, ?_, hresult⟩
  have happly := applyEdits?_of_replaces hresult hempty
  rw [List.nil_append, List.nil_append] at happly
  rw [splice?, chosenEdits, happly]
  rfl

/-! ## The order of edits -/

theorem isRanking_precedes : IsRanking Edit.precedes where
  trans a b c hab hbc := by
    simp only [Edit.precedes, Bool.or_eq_true, Bool.and_eq_true, decide_eq_true_eq,
      beq_iff_eq] at *
    omega
  total a b := by
    simp only [Edit.precedes, Bool.or_eq_true, Bool.and_eq_true, decide_eq_true_eq, beq_iff_eq]
    omega

end Deadwood.Text
