/-
# Where a list of selectors is parted

A list is read from left to right, and the commas at its top part it: those that are not
escaped, stand outside of strings, and have no bracket or parenthesis open before them.
`AtTop` says so of a place by what stands before it, without the reading: the text falls
into characters, escapes and whole strings, and of what stands outside of these no end
opens more than it closes. A closing one that closes nothing does not count.

The stretches between these commas lie in order, and joined by commas they are the list.
Nothing is open where one begins, so each stretch reads by itself as it does in the list,
and has no such comma.
-/

import Deadwood.Proofs.Stylesheet.Shortened
import Mathlib.Data.List.Infix

namespace Deadwood.Css

open Deadwood.Selector (Depth rangesFrom split splitFrom splitRanges)
open Deadwood.Text

variable {c : Char} {s : Depth} {text before after inner outer front part : List Char}
  {parts others : List (List Char)} {depth start : Nat}

/-! ## The top of a list -/

/-- What can stand in a string before its end. -/
inductive InString (quote : Char) : List Char → Prop
  | nil : InString quote []
  | char {c : Char} {inner : List Char} (hquote : c ≠ quote) (hescape : c ≠ '\\')
      (rest : InString quote inner) : InString quote (c :: inner)
  | escape (c : Char) {inner : List Char} (rest : InString quote inner) :
      InString quote ('\\' :: c :: inner)

/-- A text that leaves no string open and no escape unfinished, and what stands in it outside
of strings and escapes. -/
inductive LeavesOuter : List Char → List Char → Prop
  | nil : LeavesOuter [] []
  | char {c : Char} {text outer : List Char} (hplain : c ∉ ['\\', '"', '\''])
      (rest : LeavesOuter text outer) : LeavesOuter (c :: text) (c :: outer)
  | escape (c : Char) {text outer : List Char} (rest : LeavesOuter text outer) :
      LeavesOuter ('\\' :: c :: text) outer
  | quoted {quote : Char} {inner text outer : List Char} (hquote : quote ∈ ['"', '\''])
      (hinner : InString quote inner) (rest : LeavesOuter text outer) :
      LeavesOuter (quote :: (inner ++ quote :: text)) outer

def opens (c : Char) : Bool :=
  c = '(' || c = '['

def closes (c : Char) : Bool :=
  c = ')' || c = ']'

/-- No end of a text opens more than it closes, so nothing is open behind it. -/
def IsClosed (outer : List Char) : Prop :=
  ∀ back, back <:+ outer → back.countP opens ≤ back.countP closes

/-- A place behind a text is not escaped, outside of strings, and not inside of brackets or
parentheses. -/
def AtTop (before : List Char) : Prop :=
  ∃ outer, LeavesOuter before outer ∧ IsClosed outer

/-! ## Reading up to a place -/

/-- How many are open behind a character. -/
def deepen (depth : Nat) (c : Char) : Nat :=
  if opens c then depth + 1 else if closes c then depth - 1 else depth

theorem next_level (hplain : c ∉ ['\\', '"', '\'']) :
    (level depth).next c = level (deepen depth c) := by
  simp only [List.mem_cons, List.not_mem_nil, or_false, not_or] at hplain
  by_cases hopens : c = '(' ∨ c = '['
  · simp [Depth.next, level, deepen, opens, hplain, hopens]
  · by_cases hcloses : c = ')' ∨ c = ']'
    · simp [Depth.next, level, deepen, opens, closes, hplain, hopens, hcloses]
    · simp [Depth.next, level, deepen, opens, closes, hplain, hopens, hcloses]

/-- A place inside of a string. -/
def inString (depth : Nat) (quote : Char) : Depth :=
  { depth, quote := some quote }

theorem next_inString {quote : Char} (hquote : c ≠ quote) (hescape : c ≠ '\\') :
    (inString depth quote).next c = inString depth quote := by
  simp [Depth.next, inString, hquote, hescape]

theorem depthBehind_inString {quote : Char} (hinner : InString quote inner) :
    depthBehind (inString depth quote) inner = inString depth quote := by
  induction hinner with
  | nil => rfl
  | char hquote hescape rest ih =>
    rw [depthBehind, List.foldl_cons, next_inString hquote hescape]
    exact ih
  | escape c rest ih => exact ih

theorem next_quote {quote : Char} (hquote : quote ∈ ['"', '\'']) :
    (level depth).next quote = inString depth quote ∧
      (inString depth quote).next quote = level depth := by
  rcases (by simpa using hquote : quote = '"' ∨ quote = '\'') with rfl | rfl <;> exact ⟨rfl, rfl⟩

/-- A whole string changes nothing. -/
theorem depthBehind_quoted {quote : Char} (hquote : quote ∈ ['"', '\''])
    (hinner : InString quote inner) (text : List Char) :
    depthBehind (level depth) (quote :: (inner ++ quote :: text)) =
      depthBehind (level depth) text := by
  obtain ⟨hopen, hclose⟩ := @next_quote depth quote hquote
  calc depthBehind (level depth) (quote :: (inner ++ quote :: text))
      = depthBehind (inString depth quote) (inner ++ quote :: text) := by
        rw [depthBehind, List.foldl_cons, hopen, depthBehind]
    _ = depthBehind (inString depth quote) (quote :: text) := by
        rw [depthBehind_append, depthBehind_inString hinner]
    _ = depthBehind (level depth) text := by
        rw [depthBehind, List.foldl_cons, hclose, depthBehind]

/-- Only what stands outside of strings and escapes opens and closes. -/
theorem depthBehind_level (houter : LeavesOuter text outer) :
    depthBehind (level depth) text = level (outer.foldl deepen depth) := by
  induction houter generalizing depth with
  | nil => rfl
  | char hplain rest ih =>
    rw [depthBehind, List.foldl_cons, next_level hplain, List.foldl_cons]
    exact ih
  | escape c rest ih => exact ih
  | quoted hquote hinner rest ih =>
    rw [depthBehind_quoted hquote hinner]
    exact ih

/-- A string that is not open at the end of a text was closed in it. -/
theorem exists_inString {quote : Char} (text : List Char)
    (hclosed : (depthBehind (inString depth quote) text).quote = none) :
    ∃ inner rest, text = inner ++ quote :: rest ∧ InString quote inner := by
  -- By one character or by an escape, which takes two.
  induction text using List.twoStepInduction with
  | nil => simp [depthBehind, inString] at hclosed
  | singleton c =>
    by_cases hescape : c = '\\'
    · subst hescape
      simp [depthBehind, Depth.next, inString] at hclosed
    · by_cases hquote : c = quote
      · exact ⟨[], [], by simp [hquote], .nil⟩
      · rw [depthBehind, List.foldl_cons, next_inString hquote hescape] at hclosed
        simp [inString] at hclosed
  | cons_cons c second text ih ih' =>
    by_cases hescape : c = '\\'
    · subst hescape
      obtain ⟨inner, rest, rfl, hinner⟩ := ih hclosed
      exact ⟨'\\' :: second :: inner, rest, rfl, .escape second hinner⟩
    · by_cases hquote : c = quote
      · exact ⟨[], second :: text, by simp [hquote], .nil⟩
      · rw [depthBehind, List.foldl_cons, next_inString hquote hescape] at hclosed
        obtain ⟨inner, rest, hrest, hinner⟩ := ih' second hclosed
        exact ⟨c :: inner, rest, by rw [hrest, List.cons_append], .char hquote hescape hinner⟩

/-- A text behind which no string is open and nothing escaped falls into characters, escapes
and strings. -/
theorem exists_leavesOuter (text : List Char)
    (hquote : (depthBehind (level depth) text).quote = none)
    (hescaped : (depthBehind (level depth) text).escaped = false) :
    ∃ outer, LeavesOuter text outer := by
  induction hlength : text.length using Nat.strong_induction_on generalizing text depth with
  | _ length ih =>
    cases text with
    | nil => exact ⟨[], .nil⟩
    | cons c text =>
      subst hlength
      by_cases hescape : c = '\\'
      · subst hescape
        cases text with
        | nil => simp [depthBehind, Depth.next, level] at hescaped
        | cons second text =>
          have hshorter : text.length < ('\\' :: second :: text).length := by
            rw [List.length_cons, List.length_cons]
            omega
          obtain ⟨outer, houter⟩ := ih text.length hshorter text hquote hescaped rfl
          exact ⟨outer, .escape second houter⟩
      · by_cases hstring : c ∈ ['"', '\'']
        · have hopened : depthBehind (level depth) (c :: text) =
              depthBehind (inString depth c) text := by
            rw [depthBehind, List.foldl_cons, (next_quote hstring).1, depthBehind]
          obtain ⟨inner, rest, rfl, hinner⟩ := exists_inString text (hopened ▸ hquote)
          rw [depthBehind_quoted hstring hinner] at hquote hescaped
          have hshorter : rest.length < (c :: (inner ++ c :: rest)).length := by
            rw [List.length_cons, List.length_append, List.length_cons]
            omega
          obtain ⟨outer, houter⟩ := ih rest.length hshorter rest hquote hescaped rfl
          exact ⟨outer, .quoted hstring hinner houter⟩
        · have hplain : c ∉ ['\\', '"', '\''] := by simpa [hescape] using hstring
          rw [depthBehind, List.foldl_cons, next_level hplain] at hquote hescaped
          obtain ⟨outer, houter⟩ := ih text.length (Nat.lt_succ_self _) text hquote hescaped rfl
          exact ⟨c :: outer, .char hplain houter⟩

/-- How many are open is told by the ends of a text. -/
theorem foldl_deepen_le_iff (outer : List Char) (depth : Nat) :
    outer.foldl deepen 0 ≤ depth ↔
      ∀ back, back <:+ outer → back.countP opens ≤ back.countP closes + depth := by
  induction outer using List.reverseRecOn generalizing depth with
  | nil => simp
  | append_singleton outer c ih =>
    have hends : (∀ back, back <:+ outer ++ [c] →
          back.countP opens ≤ back.countP closes + depth) ↔
        ∀ back, back <:+ outer → back.countP opens + (if opens c then 1 else 0) ≤
          back.countP closes + (if closes c then 1 else 0) + depth := by
      simp only [List.suffix_concat_iff]
      constructor
      · intro hback back hsuffix
        simpa using hback (back ++ [c]) (.inr ⟨back, rfl, hsuffix⟩)
      · rintro hback back (rfl | ⟨back, rfl, hsuffix⟩)
        · simp
        · simpa using hback back hsuffix
    rw [hends, List.foldl_concat, deepen]
    cases hopens : opens c with
    | true =>
      have hcloses : closes c = false := by
        rcases (by simpa [opens] using hopens : c = '(' ∨ c = '[') with rfl | rfl <;> rfl
      cases depth with
      | zero =>
        simp only [hcloses, if_true]
        exact iff_of_false (by omega) fun hback => by simpa using hback [] (List.nil_suffix)
      | succ depth => simpa [hcloses, ← Nat.add_assoc] using ih depth
    | false =>
      cases hcloses : closes c with
      | true => simpa [Nat.add_assoc, Nat.add_comm 1] using ih (depth + 1)
      | false => simpa using ih depth

/-- The reading parts a list at the commas at its top. -/
theorem parts_depthBehind_iff :
    (depthBehind {} before).parts ',' = true ↔ AtTop before := by
  have hzero : ∀ outer, outer.foldl deepen 0 = 0 ↔ IsClosed outer := by
    intro outer
    simpa [IsClosed] using foldl_deepen_le_iff outer 0
  constructor
  · intro hparts
    have hstart := eq_of_parts hparts
    obtain ⟨outer, houter⟩ := exists_leavesOuter before
      (show (depthBehind (level 0) before).quote = none by rw [level, hstart])
      (show (depthBehind (level 0) before).escaped = false by rw [level, hstart])
    refine ⟨outer, houter, (hzero outer).mp ?_⟩
    have hdepth : depthBehind {} before = level (outer.foldl deepen 0) := depthBehind_level houter
    exact congrArg Depth.depth (hdepth.symm.trans hstart)
  · rintro ⟨outer, houter, hclosed⟩
    have hdepth : depthBehind {} before = level (outer.foldl deepen 0) := depthBehind_level houter
    rw [hdepth, (hzero outer).mpr hclosed]
    rfl

/-! ## The stretches of a list -/

theorem joinWith_cons {separator : List Char} (text : List Char) (hne : parts ≠ []) :
    joinWith separator (text :: parts) = text ++ separator ++ joinWith separator parts := by
  cases parts with
  | nil => exact absurd rfl hne
  | cons part parts => rfl

theorem joinWith_append {separator : List Char} (hparts : parts ≠ []) (hothers : others ≠ []) :
    joinWith separator (parts ++ others) =
      joinWith separator parts ++ separator ++ joinWith separator others := by
  induction parts with
  | nil => exact absurd rfl hparts
  | cons part parts ih =>
    by_cases hnil : parts = []
    · subst hnil
      exact joinWith_cons part hothers
    · rw [List.cons_append, joinWith_cons part (by simp [hnil]), ih hnil, joinWith_cons part hnil]
      simp

theorem joinWith_modifyHead {separator : List Char} (c : Char) (hne : parts ≠ []) :
    joinWith separator (parts.modifyHead (c :: ·)) = c :: joinWith separator parts := by
  obtain ⟨part, others, rfl⟩ := List.exists_cons_of_ne_nil hne
  cases others <;> rfl

/-- The stretches between the commas are the whole text. -/
theorem joinWith_splitFrom (s : Depth) (text : List Char) :
    joinWith [','] (splitFrom s text) = text := by
  induction text generalizing s with
  | nil => rfl
  | cons c text ih =>
    by_cases hparts : s.parts c = true
    · have hcomma : c = ',' := by
        simp only [Depth.parts, Bool.and_eq_true, beq_iff_eq] at hparts
        exact hparts.1.1.1
      rw [splitFrom, if_pos hparts, joinWith_cons [] (splitFrom_ne_nil s text), ih, hcomma]
      rfl
    · have hjoins : Joins s [c] (s.next c) := joins_char (by simpa using hparts)
      rw [show splitFrom s (c :: text) = _ from hjoins text]
      exact (joinWith_modifyHead c (splitFrom_ne_nil _ text)).trans (congrArg (c :: ·) (ih _))

theorem next_of_parts (hparts : s.parts c = true) : s.next c = s := by
  obtain rfl := eq_of_parts hparts
  simp only [Depth.parts, Bool.and_eq_true, beq_iff_eq] at hparts
  obtain ⟨⟨⟨rfl, -⟩, -⟩, -⟩ := hparts
  rfl

/-- What stands before a comma at the top and what stands behind it is parted apart. -/
theorem splitFrom_append_comma (hparts : (depthBehind s before).parts ',' = true)
    (after : List Char) :
    splitFrom s (before ++ ',' :: after) = splitFrom s before ++ split after := by
  induction before generalizing s with
  | nil =>
    obtain rfl := eq_of_parts hparts
    rfl
  | cons c before ih =>
    have hrest := ih (show (depthBehind (s.next c) before).parts ',' = true from hparts)
    by_cases hhere : s.parts c = true
    · rw [next_of_parts hhere] at hrest
      rw [List.cons_append, splitFrom, if_pos hhere, hrest, splitFrom, if_pos hhere]
      rfl
    · have hjoins : Joins s [c] (s.next c) := joins_char (by simpa using hhere)
      obtain ⟨first, others, hfirst⟩ :=
        List.exists_cons_of_ne_nil (splitFrom_ne_nil (s.next c) before)
      have hlong := hjoins (before ++ ',' :: after)
      have hshort := hjoins before
      rw [List.singleton_append] at hlong hshort
      rw [List.cons_append, hlong, hshort, hrest, hfirst]
      rfl

/-- Nothing is open behind texts that close what they open, and commas between them. -/
theorem depthBehind_joinWith (hclosed : ∀ part ∈ parts, depthBehind {} part = {}) :
    depthBehind {} (joinWith [','] parts) = {} := by
  induction parts with
  | nil => rfl
  | cons part parts ih =>
    have hpart := hclosed part List.mem_cons_self
    by_cases hnil : parts = []
    · subst hnil
      exact hpart
    · have hcomma : depthBehind {} [','] = {} := rfl
      rw [joinWith_cons part hnil, depthBehind_append, depthBehind_append, hpart, hcomma]
      exact ih fun other hother => hclosed other (List.mem_cons_of_mem _ hother)

/-! ## Ranges -/

/-- The ranges cut the parts out of a text. -/
theorem map_slice?_rangesFrom (front : List Char) (hne : parts ≠ []) :
    (rangesFrom (byteSize front) parts).map (slice? (front ++ joinWith [','] parts)) =
      parts.map some := by
  induction parts generalizing front with
  | nil => exact absurd rfl hne
  | cons part parts ih =>
    have hpart : ∀ behind, slice? (front ++ (part ++ behind))
        ⟨byteSize front, byteSize front + byteSize part⟩ = some part := fun behind =>
      slice?_eq_some_iff.mpr ⟨front, behind, rfl, rfl, rfl⟩
    by_cases hnil : parts = []
    · subst hnil
      simpa [rangesFrom, joinWith] using hpart []
    · have hrest := ih (front ++ part ++ [',']) hnil
      have hstart : byteSize (front ++ part ++ [',']) = byteSize front + byteSize part + 1 := by
        rw [byteSize_append, byteSize_append]
        rfl
      rw [joinWith_cons part hnil, rangesFrom, List.map_cons, List.map_cons]
      rw [hstart] at hrest
      congr 1
      · simpa using hpart (',' :: joinWith [','] parts)
      · simpa using hrest

theorem le_start_of_mem_rangesFrom {range : Range} (hrange : range ∈ rangesFrom start parts) :
    start ≤ range.start := by
  induction parts generalizing start with
  | nil => simp [rangesFrom] at hrange
  | cons part parts ih =>
    rcases List.mem_cons.mp hrange with rfl | hrange
    · exact Nat.le_refl _
    · have hlater := ih hrange
      omega

theorem pairwise_rangesFrom (start : Nat) (parts : List (List Char)) :
    (rangesFrom start parts).Pairwise fun first second => first.stop < second.start := by
  induction parts generalizing start with
  | nil => exact .nil
  | cons part parts ih =>
    refine .cons (fun range hrange => ?_) (ih _)
    exact le_start_of_mem_rangesFrom hrange

/-- Between two ranges in a row a list is cut in two. -/
def CutsAt (ranges : List Range) (offset : Nat) : Prop :=
  ∃ front first second back, ranges = front ++ first :: second :: back ∧
    first.stop = offset ∧ second.start = offset + 1

theorem cutsAt_rangesFrom_iff {offset : Nat} :
    CutsAt (rangesFrom start parts) offset ↔
      ∃ firsts others, parts = firsts ++ others ∧ firsts ≠ [] ∧ others ≠ [] ∧
        start + byteSize (joinWith [','] firsts) = offset := by
  constructor
  · rintro ⟨front, first, second, back, hranges, rfl, -⟩
    induction front generalizing start parts with
    | nil =>
      match parts with
      | [] => simp [rangesFrom] at hranges
      | [part] => simp [rangesFrom] at hranges
      | part :: next :: others =>
        obtain ⟨rfl, -⟩ := List.cons.inj hranges
        exact ⟨[part], next :: others, rfl, by simp, by simp, rfl⟩
    | cons range front ih =>
      match parts with
      | [] => simp [rangesFrom] at hranges
      | part :: parts =>
        obtain ⟨-, hranges⟩ := List.cons.inj hranges
        obtain ⟨firsts, others, rfl, hfirsts, hothers, hstop⟩ := ih hranges
        refine ⟨part :: firsts, others, rfl, by simp, hothers, ?_⟩
        rw [joinWith_cons part hfirsts, byteSize_append, byteSize_append, ← hstop]
        have hcomma : byteSize [','] = 1 := rfl
        omega
  · rintro ⟨firsts, others, rfl, hfirsts, hothers, rfl⟩
    induction firsts generalizing start with
    | nil => exact absurd rfl hfirsts
    | cons part firsts ih =>
      by_cases hnil : firsts = []
      · subst hnil
        obtain ⟨next, others, rfl⟩ := List.exists_cons_of_ne_nil hothers
        exact ⟨[], _, _, _, rfl, rfl, rfl⟩
      · obtain ⟨front, first, second, back, hranges, hstop, hstart⟩ :=
          @ih (start + byteSize part + 1) hnil
        refine ⟨_ :: front, first, second, back, congrArg (_ :: ·) hranges, ?_, ?_⟩
        all_goals
          rw [joinWith_cons part hnil, byteSize_append, byteSize_append]
          have hcomma : byteSize [','] = 1 := rfl
          omega

/-- A list is cut at a comma exactly if that is at its top. -/
theorem cutsAt_splitRanges_iff (before after : List Char) :
    CutsAt (splitRanges (before ++ ',' :: after)) (byteSize before) ↔ AtTop before := by
  rw [splitRanges, cutsAt_rangesFrom_iff, ← parts_depthBehind_iff]
  constructor
  · rintro ⟨firsts, others, hsplit, hfirsts, hothers, hsize⟩
    have htext : before ++ ',' :: after =
        joinWith [','] firsts ++ (',' :: joinWith [','] others) := by
      rw [← joinWith_splitFrom {} (before ++ ',' :: after), ← split, hsplit,
        joinWith_append hfirsts hothers]
      simp
    have hbefore : joinWith [','] firsts = before := by
      have hcut := splitAt?_append before (',' :: after)
      rw [← hsize, Nat.zero_add, htext, splitAt?_append] at hcut
      exact (Prod.mk.inj (Option.some.inj hcut)).1
    have hclosed : ∀ part ∈ firsts, depthBehind {} part = {} := by
      intro part hpart
      apply depthBehind_of_mem_dropLast
      rw [hsplit, List.dropLast_append_of_ne_nil hothers]
      exact List.mem_append_left _ hpart
    rw [← hbefore, depthBehind_joinWith hclosed]
    rfl
  · intro hparts
    refine ⟨split before, split after, splitFrom_append_comma hparts after,
      splitFrom_ne_nil {} before, splitFrom_ne_nil {} after, ?_⟩
    rw [split, joinWith_splitFrom, Nat.zero_add]

/-- Ranges part a list of selectors into slices. -/
structure PartsInto (list : List Char) (ranges : List Range) (slices : List (List Char)) :
    Prop where
  /-- Both ends of each range are places to cut, in order. -/
  aligned : ∀ range ∈ ranges, range.start ≤ range.stop ∧ isBoundary list range.start = true ∧
    isBoundary list range.stop = true
  ordered : ranges.Pairwise fun first second => first.stop < second.start
  cut : ranges.map (slice? list) = slices.map some
  joined : joinWith [','] slices = list
  /-- The list is cut at the commas at its top. -/
  parted : ∀ before after, list = before ++ ',' :: after →
    (CutsAt ranges (byteSize before) ↔ AtTop before)
  /-- None of the slices has such a comma, read by itself. -/
  whole : ∀ slice ∈ slices, ∀ before after, slice = before ++ ',' :: after → ¬ AtTop before

theorem map_slice?_splitRanges (list : List Char) :
    (splitRanges list).map (slice? list) = (split list).map some := by
  have hslices := map_slice?_rangesFrom [] (splitFrom_ne_nil {} list)
  rwa [List.nil_append, joinWith_splitFrom] at hslices

/-- A list is parted into its selectors. -/
theorem splitRanges_partsInto (list : List Char) :
    PartsInto list (splitRanges list) (split list) where
  aligned := by
    intro range hrange
    have hmem := List.mem_map_of_mem (f := slice? list) hrange
    rw [map_slice?_splitRanges] at hmem
    obtain ⟨part, -, hpart⟩ := List.mem_map.mp hmem
    have hbounds := (slice?_bounds hpart.symm).1
    exact ⟨by omega, isBoundary_of_slice? hpart.symm⟩
  ordered := pairwise_rangesFrom 0 (split list)
  cut := map_slice?_splitRanges list
  joined := joinWith_splitFrom {} list
  parted := by
    rintro before after rfl
    exact cutsAt_splitRanges_iff before after
  whole := by
    rintro slice hslice before after rfl htop
    have hunparted := (unparted_append.mp (unparted_of_mem_split hslice)).2.1
    rw [parts_depthBehind_iff.mpr htop] at hunparted
    exact absurd hunparted (by decide)

/-- The parenthesis that closes nothing leaves the last comma at the top. -/
example : split ".a\\,b:is(.c, .d), [x=\"1,2\"]), .e".toList =
    [".a\\,b:is(.c, .d)".toList, " [x=\"1,2\"])".toList, " .e".toList] := by decide

end Deadwood.Css
