/-
# Nothing is lost in a diff

A list of changes has two readings: the kept and deleted lines are the old text,
the kept and inserted ones the new text. Whatever the lengths in its table are,
the walk that lists the changes has both texts as its readings. Since no line
contains a line break, the lines can be read off the written diff as well.
-/

import Deadwood.Text.LineDiff

namespace Deadwood.Text

variable {text line file old new : List Char}

/-! ## Lines -/

theorem lines_ne_nil (text : List Char) : lines text ≠ [] := by
  cases text with
  | nil => simp [lines]
  | cons c rest =>
    unfold lines
    split
    · simp
    · split <;> simp

theorem lines_cons_of_ne (text : List Char) {c : Char} (hc : c ≠ '\n') :
    ∃ line others, lines text = line :: others ∧ lines (c :: text) = (c :: line) :: others := by
  cases hlines : lines text with
  | nil => exact absurd hlines (lines_ne_nil text)
  | cons line others => exact ⟨line, others, rfl, by rw [lines, if_neg hc, hlines]⟩

/-- A line break ends a line. -/
theorem lines_append_break (hline : '\n' ∉ line) (rest : List Char) :
    lines (line ++ '\n' :: rest) = line :: lines rest := by
  induction line with
  | nil => rw [List.nil_append, lines, if_pos rfl]
  | cons c line ih =>
    obtain ⟨hc, hline⟩ : '\n' ≠ c ∧ '\n' ∉ line := by simpa using hline
    obtain ⟨first, others, hlines, hcons⟩ := lines_cons_of_ne (line ++ '\n' :: rest) hc.symm
    rw [ih hline] at hlines
    obtain ⟨rfl, rfl⟩ := List.cons.inj hlines
    exact hcons

theorem break_not_mem_of_mem_lines (hline : line ∈ lines text) : '\n' ∉ line := by
  induction text generalizing line with
  | nil =>
    rw [lines, List.mem_singleton] at hline
    simp [hline]
  | cons c rest ih =>
    by_cases hc : c = '\n'
    · rw [lines, if_pos hc, List.mem_cons] at hline
      rcases hline with rfl | hline
      · simp
      · exact ih hline
    · obtain ⟨first, others, hlines, hcons⟩ := lines_cons_of_ne rest hc
      rw [hcons, List.mem_cons] at hline
      rcases hline with rfl | hline
      · have hfirst : '\n' ∉ first := ih (by rw [hlines]; exact List.mem_cons_self)
        simpa using ⟨Ne.symm hc, hfirst⟩
      · exact ih (by rw [hlines]; exact List.mem_cons_of_mem _ hline)

theorem unlines_cons {others : List (List Char)} (hothers : others ≠ []) :
    unlines (line :: others) = line ++ '\n' :: unlines others := by
  obtain ⟨next, more, rfl⟩ := List.exists_cons_of_ne_nil hothers
  simp [unlines, joinWith]

/-- Joining the lines of a text gives the text back. -/
theorem unlines_lines (text : List Char) : unlines (lines text) = text := by
  induction text with
  | nil => rfl
  | cons c rest ih =>
    by_cases hc : c = '\n'
    · rw [lines, if_pos hc, unlines_cons (lines_ne_nil rest), ih, hc, List.nil_append]
    · obtain ⟨line, others, hlines, hcons⟩ := lines_cons_of_ne rest hc
      rw [hlines] at ih
      rw [hcons, ← ih]
      by_cases hothers : others = []
      · rw [hothers]
        rfl
      · rw [unlines_cons hothers, unlines_cons hothers, List.cons_append]

/-! ## The two readings of changes -/

namespace Change

variable {α : Type}

/-- The line of the old text that a change speaks of. -/
def old? : Change α → Option α
  | .keep line => some line
  | .delete line => some line
  | .insert _ => none

/-- The line of the new text that a change speaks of. -/
def new? : Change α → Option α
  | .keep line => some line
  | .delete _ => none
  | .insert line => some line

end Change

namespace Diff

variable {α : Type}

/-- The changes between two lists, told without how they are found. -/
def Between (old new : List α) (changes : List (Change α)) : Prop :=
  changes.filterMap Change.old? = old ∧ changes.filterMap Change.new? = new

theorem Between.append {old old' new new' : List α} {front back : List (Change α)}
    (hfront : Between old new front) (hback : Between old' new' back) :
    Between (old ++ old') (new ++ new') (front ++ back) := by
  obtain ⟨rfl, rfl⟩ := hfront
  obtain ⟨rfl, rfl⟩ := hback
  exact ⟨List.filterMap_append, List.filterMap_append⟩

theorem between_keep (lines : List α) : Between lines lines (lines.map .keep) := by
  constructor
  · simp [List.filterMap_map, Function.comp_def, Change.old?]
  · simp [List.filterMap_map, Function.comp_def, Change.new?]

variable [BEq α] [LawfulBEq α]

/-- The walk lists the changes, whatever lengths guide it. -/
theorem between_walk (longest : List α → List α → Nat) (old new : List α) :
    Between old new (walk longest old new) := by
  fun_induction walk longest old new with
  | case1 new => simp [Between, List.filterMap_map, Function.comp_def, Change.old?, Change.new?]
  | case2 old => simp [Between, List.filterMap_map, Function.comp_def, Change.old?, Change.new?]
  | case3 x old y new hsame ih =>
    obtain rfl := eq_of_beq hsame
    exact (between_keep [x]).append ih
  | case4 x old y new hdiffer hlonger ih =>
    have hdelete : Between [x] [] [Change.delete x] := ⟨rfl, rfl⟩
    exact hdelete.append ih
  | case5 x old y new hdiffer hshorter ih =>
    have hinsert : Between [] [y] [Change.insert y] := ⟨rfl, rfl⟩
    exact hinsert.append ih

theorem take_sharedCount (old new : List α) :
    new.take (sharedCount old new) = old.take (sharedCount old new) ∧
      sharedCount old new ≤ old.length ∧ sharedCount old new ≤ new.length := by
  fun_induction sharedCount old new with
  | case1 x old y new hsame ih =>
    obtain rfl := eq_of_beq hsame
    simpa using ih
  | case2 x old y new hdiffer => simp
  | case3 old new hshort => simp

/-- What two lists share at the end is cut off by their lengths. -/
private theorem drop_sharedCount (old new : List α) :
    new.drop (new.length - sharedCount old.reverse new.reverse) =
      old.drop (old.length - sharedCount old.reverse new.reverse) := by
  obtain ⟨htake, -, -⟩ := take_sharedCount old.reverse new.reverse
  rw [List.take_reverse, List.take_reverse] at htake
  exact List.reverse_inj.mp htake

/-- Changes are looked for only between what two lists share in front and what they share
at the end. -/
theorem exists_changes_eq (old new : List α) : ∃ front oldMiddle newMiddle back,
    old = front ++ oldMiddle ++ back ∧ new = front ++ newMiddle ++ back ∧
      changes old new = front.map .keep ++ middle oldMiddle newMiddle ++ back.map .keep := by
  unfold changes
  dsimp only
  obtain ⟨hfront, -, -⟩ := take_sharedCount old new
  generalize sharedCount old new = front at hfront ⊢
  have hback := drop_sharedCount (old.drop front) (new.drop front)
  generalize sharedCount (old.drop front).reverse (new.drop front).reverse = back at hback ⊢
  refine ⟨_, _, _, _, ?_, ?_, rfl⟩
  · rw [List.append_assoc, List.take_append_drop, List.take_append_drop]
  · rw [← hfront, ← hback, List.append_assoc, List.take_append_drop, List.take_append_drop]

theorem between_changes (old new : List α) : Between old new (changes old new) := by
  obtain ⟨front, oldMiddle, newMiddle, back, rfl, rfl, hchanges⟩ := exists_changes_eq old new
  have hmiddle : Between _ _ (middle oldMiddle newMiddle) := between_walk _ _ _
  rw [hchanges]
  exact ((between_keep front).append hmiddle).append (between_keep back)

end Diff

/-! ## Reading a diff -/

/-- The lines of a diff, without the two that name the file, that bear one of some
marks. -/
def markedLines (marks diff : List Char) : List (List Char) :=
  ((lines diff).drop 2).filterMap fun line =>
    match line with
    | [] => none
    | mark :: line => if marks.contains mark then some line else none

/-- The text that is told by the lines of a diff that bear one of some marks. -/
def readDiff (marks diff : List Char) : List Char :=
  unlines (markedLines marks diff)

namespace Change

/-- The mark of a change, and the line behind it. -/
def marked : Change (List Char) → List Char
  | .keep line => ' ' :: line
  | .delete line => '-' :: line
  | .insert line => '+' :: line

theorem render_eq (change : Change (List Char)) : change.render = change.marked ++ ['\n'] := by
  cases change <;> rfl

end Change

/-- Written changes are one line each. -/
private theorem lines_render {changes : List (Change (List Char))}
    (hlines : ∀ change ∈ changes, '\n' ∉ change.marked) :
    lines (changes.flatMap Change.render) = changes.map Change.marked ++ [[]] := by
  induction changes with
  | nil => rfl
  | cons change changes ih =>
    rw [List.flatMap_cons, Change.render_eq, List.append_assoc, List.singleton_append,
      lines_append_break (hlines change List.mem_cons_self),
      ih fun other hother => hlines other (List.mem_cons_of_mem _ hother), List.map_cons,
      List.cons_append]

/-- The lines of a diff are two that name the file, one for each change, and an
empty one behind the last line break. -/
theorem lines_lineDiff (hfile : '\n' ∉ file) (old new : List Char) :
    lines (lineDiff file old new) = ("*** ".toList ++ file) :: ("--- ".toList ++ file) ::
      (Diff.changes (lines old) (lines new)).map Change.marked ++ [[]] := by
  have hbreaks : ∀ change ∈ Diff.changes (lines old) (lines new), '\n' ∉ change.marked := by
    obtain ⟨hold, hnew⟩ := Diff.between_changes (lines old) (lines new)
    intro change hchange
    have holdLine : ∀ line, change.old? = some line → '\n' ∉ line := fun line hline =>
      break_not_mem_of_mem_lines (hold ▸ List.mem_filterMap.mpr ⟨change, hchange, hline⟩)
    have hnewLine : ∀ line, change.new? = some line → '\n' ∉ line := fun line hline =>
      break_not_mem_of_mem_lines (hnew ▸ List.mem_filterMap.mpr ⟨change, hchange, hline⟩)
    cases change with
    | keep line => simpa [Change.marked] using holdLine line rfl
    | delete line => simpa [Change.marked] using holdLine line rfl
    | insert line => simpa [Change.marked] using hnewLine line rfl
  have hfirst : '\n' ∉ "*** ".toList ++ file := by simpa using hfile
  have hsecond : '\n' ∉ "--- ".toList ++ file := by simpa using hfile
  have hdiff : lineDiff file old new = ("*** ".toList ++ file) ++ '\n' :: (("--- ".toList ++ file) ++
      '\n' :: (Diff.changes (lines old) (lines new)).flatMap Change.render) := by
    have hheads : "\n--- ".toList = '\n' :: "--- ".toList := by decide
    unfold lineDiff
    simp only [hheads, List.append_assoc, List.cons_append, List.nil_append]
  rw [hdiff, lines_append_break hfirst, lines_append_break hsecond, lines_render hbreaks]
  rfl

/-- The lines of a diff with some marks, if the marks are those of the changes that
have a line in a reading. -/
private theorem markedLines_lineDiff {marks : List Char}
    {reading : Change (List Char) → Option (List Char)} (hfile : '\n' ∉ file)
    (hmarks : ∀ change, reading change =
      match change.marked with
      | [] => none
      | mark :: line => if marks.contains mark then some line else none)
    (old new : List Char) :
    markedLines marks (lineDiff file old new) =
      (Diff.changes (lines old) (lines new)).filterMap reading := by
  rw [markedLines, lines_lineDiff hfile, funext hmarks, List.cons_append, List.cons_append,
    List.drop_succ_cons, List.drop_succ_cons, List.drop_zero, List.filterMap_append,
    List.filterMap_map]
  exact List.append_nil _

/-- The kept and deleted lines of a diff tell the old text, the kept and inserted
ones the new text. -/
theorem readDiff_lineDiff (hfile : '\n' ∉ file) (old new : List Char) :
    readDiff [' ', '-'] (lineDiff file old new) = old ∧
      readDiff [' ', '+'] (lineDiff file old new) = new := by
  obtain ⟨hold, hnew⟩ := Diff.between_changes (lines old) (lines new)
  constructor
  · have hmarks : ∀ change : Change (List Char), change.old? =
        match change.marked with
        | [] => none
        | mark :: line => if [' ', '-'].contains mark then some line else none := by
      intro change
      cases change <;> rfl
    rw [readDiff, markedLines_lineDiff hfile hmarks, hold, unlines_lines]
  · have hmarks : ∀ change : Change (List Char), change.new? =
        match change.marked with
        | [] => none
        | mark :: line => if [' ', '+'].contains mark then some line else none := by
      intro change
      cases change <;> rfl
    rw [readDiff, markedLines_lineDiff hfile hmarks, hnew, unlines_lines]

theorem Change.exists_mark (change : Change (List Char)) :
    ∃ mark ∈ [' ', '-', '+'], ∃ line, change.marked = mark :: line := by
  cases change with
  | keep line => exact ⟨' ', by simp, line, rfl⟩
  | delete line => exact ⟨'-', by simp, line, rfl⟩
  | insert line => exact ⟨'+', by simp, line, rfl⟩

/-- A diff tells both texts to the letter. Below two lines that name the file, each line
bears one of three marks; behind those of the kept and deleted lines stands the old
text, and behind those of the kept and inserted lines the new one. -/
theorem lineDiff_lossless (hfile : '\n' ∉ file) (old new : List Char) :
    (∃ body, lines (lineDiff file old new) =
        ("*** ".toList ++ file) :: ("--- ".toList ++ file) :: (body ++ [[]]) ∧
      ∀ line ∈ body, ∃ mark ∈ [' ', '-', '+'], ∃ rest, line = mark :: rest) ∧
      readDiff [' ', '-'] (lineDiff file old new) = old ∧
      readDiff [' ', '+'] (lineDiff file old new) = new := by
  refine ⟨⟨_, lines_lineDiff hfile old new, fun line hline => ?_⟩, readDiff_lineDiff hfile old new⟩
  obtain ⟨change, -, rfl⟩ := List.mem_map.mp hline
  exact change.exists_mark

/-- Lines that begin with marks, that end with a carriage return or that are empty. -/
theorem lineDiff_lossless_marks :
    lineDiff "a.css".toList "- x\r\n\n+ y".toList "\n+ y\n".toList =
        "*** a.css\n--- a.css\n-- x\r\n \n + y\n+\n".toList ∧
      readDiff [' ', '-'] "*** a.css\n--- a.css\n-- x\r\n \n + y\n+\n".toList =
        "- x\r\n\n+ y".toList ∧
      readDiff [' ', '+'] "*** a.css\n--- a.css\n-- x\r\n \n + y\n+\n".toList =
        "\n+ y\n".toList := by
  have hdiff : lineDiff "a.css".toList "- x\r\n\n+ y".toList "\n+ y\n".toList =
      "*** a.css\n--- a.css\n-- x\r\n \n + y\n+\n".toList := by
    decide +kernel
  have hboth := (@lineDiff_lossless "a.css".toList (by decide) "- x\r\n\n+ y".toList
    "\n+ y\n".toList).2
  rw [hdiff] at hboth
  exact ⟨hdiff, hboth⟩

end Deadwood.Text
