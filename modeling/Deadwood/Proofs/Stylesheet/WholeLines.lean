/-
# Whole lines

A rule that is alone on its lines goes with its indentation and the line end behind it,
or with the blanks behind it at the end of the text. Any other rule goes by itself.
Either way text that is not blank keeps to its side: what ends before the rule is not
reached, nor is what begins behind it.
-/

import Deadwood.Proofs.Text.Splice
import Deadwood.Stylesheet.Strip
import Mathlib.Order.Bounds.Defs

namespace Deadwood.Stylesheet

open Deadwood.Text

variable {source : List Char} {place : Nat} {range : Range} {test : Char → Bool}

/-- Blanks that may stand between a rule and the end of its line. -/
def isTrailing (c : Char) : Bool :=
  isIndent c || c == '\r'

theorem isAsciiBlank_of_isTrailing {c : Char} (hc : isTrailing c = true) :
    isAsciiBlank c = true := by
  simp only [isTrailing, isIndent, Bool.or_eq_true, beq_iff_eq] at hc
  rcases hc with (rfl | rfl) | rfl <;> decide

theorem byteSize_reverse (text : List Char) : byteSize text.reverse = byteSize text := by
  induction text with
  | nil => rfl
  | cons c text ih =>
    rw [List.reverse_cons, byteSize_append, ih, byteSize, byteSize, byteSize, Nat.add_zero,
      Nat.add_comm]

theorem byteSize_eq_zero {text : List Char} : byteSize text = 0 ↔ text = [] := by
  cases text with
  | nil => simp [byteSize]
  | cons c text => simp [byteSize, Nat.ne_of_gt c.utf8Size_pos]

/-- What stands around a stretch that is alone on its lines: its indentation behind the
last line end, and the blanks up to the next one or to the end of the text. -/
structure AloneOnLines (front indent gap rest : List Char) : Prop where
  indent : ∀ c ∈ indent, isIndent c = true
  begins : front = [] ∨ front.getLast? = some '\n'
  ends : (∃ blanks, gap = blanks ++ ['\n'] ∧ ∀ c ∈ blanks, isTrailing c = true) ∨
    rest = [] ∧ ∀ c ∈ gap, isTrailing c = true

/-- A stretch is alone on its lines. -/
def IsAlone (source : List Char) (range : Range) : Prop :=
  ∃ front indent body gap rest, source = front ++ indent ++ (body ++ (gap ++ rest)) ∧
    range = ⟨byteSize (front ++ indent), byteSize (front ++ indent) + byteSize body⟩ ∧
    AloneOnLines front indent gap rest

/-- Blanks are skipped up to a line end or the end of the text. -/
theorem skip_append {blanks line : List Char} (hblanks : ∀ c ∈ blanks, test c = true)
    (hline : line = [] ∨ line.head? = some '\n') (hbreak : test '\n' = false) :
    (blanks ++ line).takeWhile test = blanks ∧ (blanks ++ line).dropWhile test = line := by
  rw [List.takeWhile_append_of_pos hblanks, List.dropWhile_append_of_pos hblanks]
  rcases hline with rfl | hhead
  · exact ⟨List.append_nil _, rfl⟩
  · obtain ⟨rest, rfl⟩ := List.head?_eq_some_iff.mp hhead
    simp [hbreak]

theorem splitAt?_ends (before body after : List Char) :
    splitAt? (byteSize before) (before ++ (body ++ after)) = some (before, body ++ after) ∧
      splitAt? (byteSize before + byteSize body) (before ++ (body ++ after)) =
        some (before ++ body, after) := by
  rw [splitAt?_append, ← byteSize_append, ← List.append_assoc, splitAt?_append]
  exact ⟨rfl, rfl⟩

namespace AloneOnLines

variable {front indent gap rest : List Char}

theorem isAsciiBlank_of_mem (halone : AloneOnLines front indent gap rest) {c : Char} (hc : c ∈ gap) :
    isAsciiBlank c = true := by
  rcases halone.ends with ⟨blanks, rfl, hblanks⟩ | ⟨-, hblanks⟩
  · rcases List.mem_append.mp hc with hc | hc
    · exact isAsciiBlank_of_isTrailing (hblanks c hc)
    · rw [List.mem_singleton.mp hc]
      decide
  · exact isAsciiBlank_of_isTrailing (hblanks c hc)

/-- The blanks behind a stretch end with a line feed, or with the text. -/
theorem exists_feed (halone : AloneOnLines front indent gap rest) :
    ∃ blanks feed, gap = blanks ++ feed ∧ (∀ c ∈ blanks, isTrailing c = true) ∧
      (feed = ['\n'] ∨ feed = [] ∧ rest = []) := by
  rcases halone.ends with ⟨blanks, rfl, hblanks⟩ | ⟨hrest, hblanks⟩
  · exact ⟨blanks, _, rfl, hblanks, .inl rfl⟩
  · exact ⟨gap, [], (List.append_nil _).symm, hblanks, .inr ⟨rfl, hrest⟩⟩

/-- A stretch that is alone on its lines is widened to them. -/
theorem widenToLines_eq (halone : AloneOnLines front indent gap rest) (body : List Char) :
    widenToLines (front ++ indent ++ (body ++ (gap ++ rest)))
        ⟨byteSize (front ++ indent), byteSize (front ++ indent) + byteSize body⟩ =
      ⟨byteSize front, byteSize (front ++ indent) + byteSize body + byteSize gap⟩ := by
  obtain ⟨hbefore, hafter⟩ := splitAt?_ends (front ++ indent) body (gap ++ rest)
  obtain ⟨htake, hdrop⟩ := skip_append (fun c hc => halone.indent c (List.mem_reverse.mp hc))
    (by simpa using halone.begins : front.reverse = [] ∨ front.reverse.head? = some '\n') rfl
  obtain ⟨blanks, feed, rfl, hblanks, hends⟩ := halone.exists_feed
  obtain ⟨hgap, hrest⟩ := skip_append hblanks
    (by rcases hends with rfl | ⟨rfl, rfl⟩ <;> simp :
      feed ++ rest = [] ∨ (feed ++ rest).head? = some '\n') rfl
  have htrailing : (fun c => isIndent c || c == '\r') = isTrailing := rfl
  have hbegins : (front.reverse.isEmpty || front.reverse.head? == some '\n') = true := by
    simpa using halone.begins
  simp only [widenToLines, hbefore, hafter]
  simp only [List.reverse_append, htake, hdrop, htrailing, List.append_assoc, hgap, hrest,
    hbegins, if_true, byteSize_append, byteSize_reverse, Nat.add_sub_cancel]
  rcases hends with rfl | ⟨rfl, rfl⟩ <;> rfl

end AloneOnLines

/-- A stretch is alone on its lines, or left as it is. -/
theorem widenToLines_cases {body : List Char} (hbody : slice? source range = some body) :
    widenToLines source range = range ∨ IsAlone source range := by
  obtain ⟨start, stop⟩ := range
  obtain ⟨before, after, rfl, rfl, rfl⟩ := slice?_eq_some_iff.mp hbody
  have hindented : before = (before.reverse.dropWhile isIndent).reverse ++
      (before.reverse.takeWhile isIndent).reverse := by
    rw [← List.reverse_append, List.takeWhile_append_dropWhile, List.reverse_reverse]
  have hindent : ∀ c ∈ (before.reverse.takeWhile isIndent).reverse, isIndent c = true :=
    fun c hc => List.all_eq_true.mp List.all_takeWhile c (List.mem_reverse.mp hc)
  have hspaced : after = after.takeWhile isTrailing ++ after.dropWhile isTrailing :=
    List.takeWhile_append_dropWhile.symm
  have hgap : ∀ c ∈ after.takeWhile isTrailing, isTrailing c = true :=
    fun c hc => List.all_eq_true.mp List.all_takeWhile c hc
  obtain ⟨hbefore, hafter⟩ := splitAt?_ends before body after
  simp only [widenToLines, hbefore, hafter]
  split
  · rename_i hahead
    have hbegins : (before.reverse.dropWhile isIndent).reverse = [] ∨
        (before.reverse.dropWhile isIndent).reverse.getLast? = some '\n' := by
      simpa using hahead
    split
    · rename_i hbehind
      exact .inr ⟨_, _, body, _, after.dropWhile isTrailing, by rw [← hindented, ← hspaced],
        by rw [← hindented],
        hindent, hbegins, .inr ⟨hbehind, hgap⟩⟩
    · rename_i c rest hbehind
      split
      · rename_i hbreak
        subst hbreak
        have hended : after = (after.takeWhile isTrailing ++ ['\n']) ++ rest := by
          rw [List.append_assoc, List.singleton_append, ← hbehind]
          exact hspaced
        exact .inr ⟨_, _, body, _, _, by rw [← hindented, ← hended], by rw [← hindented],
          hindent, hbegins, .inl ⟨_, rfl, hgap⟩⟩
      · exact .inl rfl
  · exact .inl rfl

/-! ## Text around a stretch -/

/-- A character that passes a test begins at a place. -/
def BeginsAt (test : Char → Bool) (source : List Char) (place : Nat) : Prop :=
  ∃ front c behind, source = front ++ c :: behind ∧ byteSize front = place ∧ test c = true

/-- A character that passes a test ends at a place. -/
def EndsAt (test : Char → Bool) (source : List Char) (place : Nat) : Prop :=
  ∃ front c behind, source = front ++ c :: behind ∧ byteSize front + c.utf8Size = place ∧
    test c = true

theorem beginsAt_iff : BeginsAt test source place ↔
    (splitAt? place source).any (fun cut => cut.2.head?.any test) = true := by
  constructor
  · rintro ⟨front, c, behind, rfl, rfl, hc⟩
    rw [splitAt?_append]
    exact hc
  · intro hany
    obtain ⟨⟨front, behind⟩, hcut, hany⟩ := (Option.any_eq_true _ _).mp hany
    obtain ⟨c, hhead, hc⟩ := (Option.any_eq_true _ _).mp hany
    obtain ⟨rest, rfl⟩ := List.head?_eq_some_iff.mp hhead
    obtain ⟨hsource, hplace⟩ := splitAt?_eq_some_iff.mp hcut
    exact ⟨front, c, rest, hsource, hplace, hc⟩

theorem endsAt_iff : EndsAt test source place ↔
    (splitAt? place source).any (fun cut => cut.1.getLast?.any test) = true := by
  constructor
  · rintro ⟨front, c, behind, rfl, rfl, hc⟩
    have hcut : splitAt? (byteSize front + c.utf8Size) (front ++ c :: behind) =
        some (front ++ [c], behind) := by
      simpa [byteSize_append, byteSize] using splitAt?_append (front ++ [c]) behind
    simpa [hcut] using hc
  · intro hany
    obtain ⟨⟨front, behind⟩, hcut, hany⟩ := (Option.any_eq_true _ _).mp hany
    obtain ⟨c, hlast, hc⟩ := (Option.any_eq_true _ _).mp hany
    obtain ⟨before, rfl⟩ := List.getLast?_eq_some_iff.mp hlast
    obtain ⟨hsource, hplace⟩ := splitAt?_eq_some_iff.mp hcut
    exact ⟨before, c, behind, by simpa using hsource,
      by simpa [byteSize_append, byteSize] using hplace, hc⟩

instance : Decidable (BeginsAt test source place) :=
  decidable_of_iff _ beginsAt_iff.symm

instance : Decidable (EndsAt test source place) :=
  decidable_of_iff _ endsAt_iff.symm

/-- Text is no indentation. -/
theorem EndsAt.not_isIndent (hends : EndsAt (!isAsciiBlank ·) source place) :
    EndsAt (!isIndent ·) source place := by
  obtain ⟨front, c, behind, hsource, hplace, hc⟩ := hends
  refine ⟨front, c, behind, hsource, hplace, ?_⟩
  rw [Bool.not_eq_true', ← Bool.not_eq_true] at hc ⊢
  exact fun hindent => hc (isAsciiBlank_of_isTrailing (by simp [isTrailing, hindent]))

/-- What begins within a part of a text is a character of the part. -/
theorem BeginsAt.exists_mem {front part rest : List Char}
    (hbegins : BeginsAt test (front ++ (part ++ rest)) place)
    (hfrom : byteSize front ≤ place) (hto : place < byteSize front + byteSize part) :
    ∃ c ∈ part, test c = true := by
  obtain ⟨before, c, behind, hsame, rfl, hc⟩ := hbegins
  obtain ⟨skipped, rfl, hpart⟩ := exists_append_of_byteSize_le hsame hfrom
  rw [byteSize_append] at hto
  obtain ⟨more, rfl, hmore⟩ := exists_append_of_byteSize_le hpart.symm (by omega)
  cases more with
  | nil => simp at hto
  | cons d more =>
    obtain ⟨rfl, -⟩ := List.cons.inj hmore
    exact ⟨c, by simp, hc⟩

/-- What ends within a part of a text is a character of the part. -/
theorem EndsAt.exists_mem {front part rest : List Char}
    (hends : EndsAt test (front ++ (part ++ rest)) place)
    (hfrom : byteSize front < place) (hto : place ≤ byteSize front + byteSize part) :
    ∃ c ∈ part, test c = true := by
  obtain ⟨before, c, behind, hsame, hplace, hc⟩ := hends
  have hsize : byteSize (before ++ [c]) = place := by
    rw [byteSize_append, ← hplace]
    rfl
  have hcut : front ++ (part ++ rest) = (before ++ [c]) ++ behind := by simpa using hsame
  obtain ⟨upTo, hupTo, hpart⟩ := exists_append_of_byteSize_le hcut (by omega)
  rw [hupTo, byteSize_append] at hsize
  obtain ⟨more, rfl, -⟩ := exists_append_of_byteSize_le hpart.symm (by omega)
  have hne : upTo ≠ [] := by
    rintro rfl
    simp only [byteSize] at hsize
    omega
  have hlast := congrArg List.getLast? hupTo
  rw [List.getLast?_concat, List.getLast?_append, List.getLast?_eq_some_getLast hne,
    Option.some_or, Option.some.injEq] at hlast
  exact ⟨c, List.mem_append_left _ (hlast ▸ List.getLast_mem hne), hc⟩

/-- What ends before a stretch without being indentation is not reached by widening it. -/
theorem EndsAt.le_widenToLines {body : List Char} (hbody : slice? source range = some body)
    (hends : EndsAt (!isIndent ·) source place) (hle : place ≤ range.start) :
    place ≤ (widenToLines source range).start := by
  rcases widenToLines_cases hbody with hsame | ⟨front, indent, body, gap, rest, rfl, rfl, halone⟩
  · rwa [hsame]
  · rw [halone.widenToLines_eq, ← Nat.not_lt]
    intro hinside
    rw [byteSize_append] at hle
    rw [List.append_assoc] at hends
    obtain ⟨c, hc, htext⟩ := hends.exists_mem hinside hle
    simp [halone.indent c hc] at htext

/-- What begins behind a stretch without being blank is not reached by widening it, and
the widened stretch ends with text or a line end if the stretch itself does. -/
theorem BeginsAt.widenToLines_le {body : List Char} (hbody : slice? source range = some body)
    (hbegins : BeginsAt (!isAsciiBlank ·) source place) (hle : range.stop ≤ place)
    (hends : EndsAt (!isIndent ·) source range.stop) :
    (widenToLines source range).stop ≤ place ∧
      EndsAt (!isIndent ·) source (widenToLines source range).stop := by
  rcases widenToLines_cases hbody with hsame | ⟨front, indent, body, gap, rest, rfl, rfl, halone⟩
  · rw [hsame]
    exact ⟨hle, hends⟩
  · rw [halone.widenToLines_eq]
    generalize front ++ indent = before at *
    have hsplit : before ++ (body ++ (gap ++ rest)) = (before ++ body) ++ (gap ++ rest) := by simp
    have hstop : byteSize before + byteSize body + byteSize gap ≤ place := by
      rw [← Nat.not_lt]
      intro hinside
      rw [hsplit] at hbegins
      rw [← byteSize_append] at hle hinside
      obtain ⟨c, hc, htext⟩ := hbegins.exists_mem hle hinside
      simp [halone.isAsciiBlank_of_mem hc] at htext
    refine ⟨hstop, ?_⟩
    rcases halone.ends with ⟨blanks, rfl, -⟩ | ⟨rfl, -⟩
    · refine ⟨before ++ (body ++ blanks), '\n', rest, by simp, ?_, by decide⟩
      simp only [byteSize_append, byteSize]
      omega
    · -- Behind the last blanks of the text nothing begins.
      obtain ⟨front, c, behind, hsame, rfl, -⟩ := hbegins
      have hsize := congrArg byteSize hsame
      have hpos := c.utf8Size_pos
      simp only [byteSize_append, byteSize] at hsize
      omega

/-! ## The lines of a stretch -/

/-- The lines of a stretch: they begin with the last line that begins no later than the
stretch, and end with the first line end behind it or with the text. -/
structure AreLinesOf (source : List Char) (range lines : Range) : Prop where
  start : IsGreatest
    {place | place ≤ range.start ∧ (place = 0 ∨ EndsAt (· == '\n') source place)} lines.start
  stop : IsLeast
    {place | place = byteSize source ∨ range.stop < place ∧ EndsAt (· == '\n') source place}
    lines.stop

namespace AloneOnLines

variable {front indent gap rest : List Char}

theorem areLinesOf (halone : AloneOnLines front indent gap rest) (body : List Char) :
    AreLinesOf (front ++ indent ++ (body ++ (gap ++ rest)))
      ⟨byteSize (front ++ indent), byteSize (front ++ indent) + byteSize body⟩
      ⟨byteSize front, byteSize (front ++ indent) + byteSize body + byteSize gap⟩ := by
  obtain ⟨blanks, feed, rfl, hblanks, hends⟩ := halone.exists_feed
  refine ⟨⟨⟨?_, ?_⟩, ?_⟩, ⟨?_, ?_⟩⟩
  · rw [byteSize_append]
    exact Nat.le_add_right ..
  · rcases halone.begins with rfl | hlast
    · exact .inl rfl
    · obtain ⟨line, rfl⟩ := List.getLast?_eq_some_iff.mp hlast
      refine .inr ⟨line, '\n', indent ++ (body ++ (blanks ++ feed ++ rest)), by simp, ?_, rfl⟩
      rw [byteSize_append]
      rfl
  · rintro place ⟨hle, rfl | hbreak⟩
    · exact Nat.zero_le _
    · -- A line end behind the front would stand in the indentation.
      rw [← Nat.not_lt]
      intro hinside
      rw [List.append_assoc] at hbreak
      obtain ⟨c, hc, hfeed⟩ := hbreak.exists_mem hinside (byteSize_append front indent ▸ hle)
      have hindent := halone.indent c hc
      rw [beq_iff_eq.mp hfeed] at hindent
      exact absurd hindent (by decide)
  · rcases hends with rfl | ⟨rfl, rfl⟩
    · refine .inr ⟨?_, front ++ indent ++ (body ++ blanks), '\n', rest, by simp, ?_, rfl⟩
      · have hfeed := Char.utf8Size_pos '\n'
        simp only [byteSize_append, byteSize]
        omega
      · simp only [byteSize_append, byteSize]
        omega
    · left
      simp [byteSize_append, Nat.add_assoc]
  · rintro place (rfl | ⟨hlt, hbreak⟩)
    · simp only [byteSize_append]
      omega
    · -- A line end before the last one would stand among the blanks.
      rw [← Nat.not_lt]
      intro hinside
      have hto : place ≤ byteSize (front ++ indent ++ body) + byteSize blanks := by
        have hfeed : byteSize feed ≤ 1 := by
          rcases hends with rfl | ⟨rfl, -⟩ <;> decide
        simp only [byteSize_append] at hinside ⊢
        omega
      have hsplit : front ++ indent ++ (body ++ (blanks ++ feed ++ rest)) =
          front ++ indent ++ body ++ (blanks ++ (feed ++ rest)) := by
        simp
      rw [hsplit] at hbreak
      obtain ⟨c, hc, hfeed⟩ := hbreak.exists_mem (byteSize_append _ body ▸ hlt) hto
      have hblank := hblanks c hc
      rw [beq_iff_eq.mp hfeed] at hblank
      exact absurd hblank (by decide)

/-- What stands around the stretch on its lines is blank, with one line feed at most. -/
theorem added (halone : AloneOnLines front indent gap rest) :
    (∀ c ∈ indent ++ gap, c ∈ [' ', '\t', '\r', '\n']) ∧ (indent ++ gap).count '\n' ≤ 1 := by
  obtain ⟨blanks, feed, rfl, hblanks, hends⟩ := halone.exists_feed
  have hblank : ∀ c ∈ indent ++ blanks, c = ' ' ∨ c = '\t' ∨ c = '\r' := by
    intro c hc
    have htrailing : isTrailing c = true := by
      rcases List.mem_append.mp hc with hc | hc
      · simp [isTrailing, halone.indent c hc]
      · exact hblanks c hc
    simpa [isTrailing, isIndent, or_assoc] using htrailing
  have hnone : (indent ++ blanks).count '\n' = 0 :=
    List.count_eq_zero.mpr fun hbreak => absurd (hblank _ hbreak) (by decide)
  rw [← List.append_assoc]
  constructor
  · intro c hc
    rcases List.mem_append.mp hc with hc | hc
    · rcases hblank c hc with rfl | rfl | rfl <;> decide
    · rcases hends with rfl | ⟨rfl, -⟩ <;> simp_all
  · rw [List.count_append, hnone]
    rcases hends with rfl | ⟨rfl, -⟩ <;> decide

end AloneOnLines

theorem IsAlone.areLinesOf (halone : IsAlone source range) :
    AreLinesOf source range (widenToLines source range) := by
  obtain ⟨front, indent, body, gap, rest, rfl, rfl, halone⟩ := halone
  rw [halone.widenToLines_eq]
  exact halone.areLinesOf body

/-- A stretch that is all of its lines is alone on them. -/
theorem isAlone_of_areLinesOf_self {body : List Char} (hbody : slice? source range = some body)
    (hlines : AreLinesOf source range range) : IsAlone source range := by
  obtain ⟨start, stop⟩ := range
  obtain ⟨before, after, rfl, rfl, rfl⟩ := slice?_eq_some_iff.mp hbody
  refine ⟨before, [], body, [], after, by simp, by simp, by simp, ?_, .inr ⟨?_, by simp⟩⟩
  · rcases hlines.start.1.2 with hzero | hends
    · exact .inl (byteSize_eq_zero.mp hzero)
    · rw [endsAt_iff, splitAt?_append] at hends
      exact .inr (by simpa [Option.any_eq_true] using hends)
  · rcases hlines.stop.1 with hsize | ⟨hlt, -⟩
    · simp only [byteSize_append] at hsize
      exact byteSize_eq_zero.mp (by omega)
    · exact absurd hlt (Nat.lt_irrefl _)

/-- A stretch is another one with blanks around it, by which it has become all of its lines
if nothing but blanks stands there. -/
structure Widens (source : List Char) (range wide : Range) : Prop where
  within : wide.start ≤ range.start ∧ range.stop ≤ wide.stop
  aligned : isBoundary source wide.start = true ∧ isBoundary source wide.stop = true
  form : wide = range ∨ AreLinesOf source range wide
  added : ∃ indent gap, slice? source ⟨wide.start, range.start⟩ = some indent ∧
    slice? source ⟨range.stop, wide.stop⟩ = some gap ∧
    (∀ c ∈ indent ++ gap, c ∈ [' ', '\t', '\r', '\n']) ∧ (indent ++ gap).count '\n' ≤ 1
  whole : AreLinesOf source range wide ↔ IsAlone source range

/-- A stretch between places to cut is widened by blanks only, and to its lines exactly if it
is alone on them. -/
theorem widens_widenToLines (hordered : range.start ≤ range.stop)
    (hstart : isBoundary source range.start = true)
    (hstop : isBoundary source range.stop = true) :
    Widens source range (widenToLines source range) := by
  obtain ⟨before, behind, rfl, hfrom⟩ := isBoundary_iff.mp hstart
  obtain ⟨upTo, after, hupTo, hto⟩ := isBoundary_iff.mp hstop
  obtain ⟨body, rfl, rfl⟩ := exists_append_of_byteSize_le hupTo (by omega)
  have hbody : slice? (before ++ (body ++ after)) range = some body :=
    slice?_eq_some_iff.mpr ⟨before, after, rfl, hfrom, by rw [← hfrom, ← hto, byteSize_append]⟩
  rcases widenToLines_cases hbody with
    hsame | ⟨front, indent, part, gap, rest, hsource, rfl, halone⟩
  · have hfirst : slice? (before ++ (body ++ after)) ⟨range.start, range.start⟩ = some [] :=
      slice?_eq_some_iff.mpr ⟨before, body ++ after, rfl, hfrom, rfl⟩
    have hlast : slice? (before ++ (body ++ after)) ⟨range.stop, range.stop⟩ = some [] :=
      slice?_eq_some_iff.mpr ⟨before ++ body, after, hupTo, hto, rfl⟩
    have hlines : IsAlone (before ++ (body ++ after)) range → _ := IsAlone.areLinesOf
    rw [hsame] at hlines ⊢
    exact ⟨⟨Nat.le_refl _, Nat.le_refl _⟩, ⟨hstart, hstop⟩, .inl rfl,
      ⟨[], [], hfirst, hlast, by simp, by simp⟩, isAlone_of_areLinesOf_self hbody, hlines⟩
  · have hfirst : slice? (front ++ indent ++ (part ++ (gap ++ rest)))
        ⟨byteSize front, byteSize (front ++ indent)⟩ = some indent :=
      slice?_eq_some_iff.mpr ⟨front, part ++ (gap ++ rest), List.append_assoc .., rfl,
        (byteSize_append front indent).symm⟩
    have hlast : slice? (front ++ indent ++ (part ++ (gap ++ rest)))
        ⟨byteSize (front ++ indent) + byteSize part,
          byteSize (front ++ indent) + byteSize part + byteSize gap⟩ = some gap :=
      slice?_eq_some_iff.mpr ⟨front ++ indent ++ part, rest, by simp, byteSize_append .., rfl⟩
    rw [hsource, halone.widenToLines_eq]
    exact ⟨⟨by simp [byteSize_append], Nat.le_add_right ..⟩,
      ⟨(isBoundary_of_slice? hfirst).1, (isBoundary_of_slice? hlast).2⟩,
      .inr (halone.areLinesOf part), ⟨indent, gap, hfirst, hlast, halone.added⟩,
      fun _ => ⟨front, indent, part, gap, rest, rfl, rfl, halone⟩,
      fun _ => halone.areLinesOf part⟩

/-- A rule goes with its tab and both characters of its line end. -/
theorem widens_widenToLines_rule :
    Widens "é\r\n\t.a\x7b\x7d \r\nb".toList ⟨5, 9⟩ ⟨4, 12⟩ := by
  have hwide : widenToLines "é\r\n\t.a\x7b\x7d \r\nb".toList ⟨5, 9⟩ = ⟨4, 12⟩ := by decide
  rw [← hwide]
  exact widens_widenToLines (by decide) (by decide) (by decide)

end Deadwood.Stylesheet
