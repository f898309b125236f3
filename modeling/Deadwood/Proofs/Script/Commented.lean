/-
# Nothing of a commented function runs

What takes the place of a function is read here as the language reads it, where a line
ends at a carriage return and at two separators too. Its first line is a comment of its
own, and what follows it begins on a line of its own. The lines between are blank or
comments, unless a line of the function goes on behind a carriage return or a separator:
only its first part is commented.
-/

import Deadwood.Proofs.Text.LineDiff
import Deadwood.Script.Grammar
import Deadwood.Script.Removal
import Deadwood.Stamp
import Mathlib.Data.List.TakeWhile

namespace Deadwood.Script

open Deadwood.Text

variable {name text indent line front back piece : List Char}

/-! ## Lines of a script -/

/-- Characters that end a line of a script. -/
def endsLine (c : Char) : Bool :=
  c == '\n' || c == '\r' || isSeparator c

/-- A text that goes on one line. -/
def IsUnbroken (text : List Char) : Prop :=
  ∀ c ∈ text, endsLine c = false

instance : DecidablePred IsUnbroken := fun text =>
  List.decidableBAll (fun c => endsLine c = false) text

/-- A text without the carriage returns in front of line feeds. -/
def joinBreaks : List Char → List Char
  | '\r' :: '\n' :: rest => '\n' :: joinBreaks rest
  | c :: rest => c :: joinBreaks rest
  | [] => []

/-- The lines of a script. A carriage return and a line feed end one line together. -/
def codeLines (text : List Char) : List (List Char) :=
  (joinBreaks text).splitOnP endsLine

/-- Whether nothing on a line runs: it is blank, or a comment to its end behind blanks. -/
def isQuiet (line : List Char) : Bool :=
  line.all isBlank || "//".toList.isPrefixOf (line.dropWhile isBlank)

/-- A line is one comment, which ends where the line ends. -/
def IsBlockComment (line : List Char) : Prop :=
  ∃ body, line = "/*".toList ++ body ++ "*/".toList ∧ ¬ "*/".toList <:+: body

theorem joinBreaks_cons {c : Char} (hbreak : c = '\r' → text.head? ≠ some '\n') :
    joinBreaks (c :: text) = c :: joinBreaks text := by
  rw [joinBreaks]
  rintro rest rfl rfl
  exact hbreak rfl rfl

theorem codeLines_of_not_mem (hline : '\n' ∉ line) : codeLines line = line.splitOnP endsLine := by
  have hsame : joinBreaks line = line := by
    induction line with
    | nil => rfl
    | cons c line ih =>
      rw [joinBreaks_cons, ih fun hmem => hline (List.mem_cons_of_mem _ hmem)]
      intro _ hhead
      exact hline (List.mem_cons_of_mem _ (List.mem_of_mem_head? hhead))
  rw [codeLines, hsame]

/-- A line feed behind a text ends a line of it, and no other character does it too. -/
def TakesBreak (line : List Char) : Prop :=
  '\n' ∉ line ∧ line.getLast? ≠ some '\r'

instance (line : List Char) : Decidable (TakesBreak line) :=
  inferInstanceAs (Decidable (_ ∧ _))

theorem codeLines_append_break (hbreak : TakesBreak line) (rest : List Char) :
    codeLines (line ++ '\n' :: rest) = line.splitOnP endsLine ++ codeLines rest := by
  obtain ⟨hline, hlast⟩ := hbreak
  have hjoin : joinBreaks (line ++ '\n' :: rest) = line ++ '\n' :: joinBreaks rest := by
    induction line with
    | nil => exact joinBreaks_cons fun hbreak => absurd hbreak (by decide)
    | cons c line ih =>
      have hrest : '\n' ∉ line := fun hmem => hline (List.mem_cons_of_mem _ hmem)
      rw [List.cons_append, List.cons_append]
      cases line with
      | nil =>
        rw [joinBreaks_cons, ih hrest (by simp)]
        rintro rfl
        exact absurd rfl hlast
      | cons d line =>
        rw [joinBreaks_cons, ih hrest (by rwa [List.getLast?_cons_cons] at hlast)]
        intro _ hhead
        exact hrest (List.mem_of_mem_head? hhead)
  rw [codeLines, hjoin, List.splitOnP_append_cons _ _ (by decide)]
  rfl

theorem IsUnbroken.append (hfront : IsUnbroken front) (hback : IsUnbroken back) :
    IsUnbroken (front ++ back) :=
  List.forall_mem_append.mpr ⟨hfront, hback⟩

/-- What has no line end is put in front of the first line. -/
theorem IsUnbroken.splitOnP_append (hfront : IsUnbroken front) (text : List Char) :
    (front ++ text).splitOnP endsLine = (text.splitOnP endsLine).modifyHead (front ++ ·) := by
  induction front with
  | nil =>
    rw [List.nil_append]
    exact (congrFun List.modifyHead_id _).symm
  | cons c front ih =>
    rw [List.cons_append, List.splitOnP_cons_eq_if_modifyHead,
      if_neg (by simp [hfront c List.mem_cons_self]),
      ih fun d hd => hfront d (List.mem_cons_of_mem _ hd), List.modifyHead_modifyHead]
    rfl

/-! ## Trimmed lines -/

theorem trimEnd_append (front text : List Char) :
    trimEnd (front ++ text) =
      if trimEnd text = [] then trimEnd front else front ++ trimEnd text := by
  simp only [trimEnd, List.reverse_append, List.dropWhile_append, List.reverse_eq_nil_iff,
    List.isEmpty_iff]
  split <;> simp

theorem mem_of_mem_trimEnd {c : Char} (hc : c ∈ trimEnd text) : c ∈ text := by
  rw [trimEnd, List.mem_reverse] at hc
  exact List.mem_reverse.mp ((List.dropWhile_sublist _).mem hc)

theorem trimEnd_eq_nil (htext : ∀ c ∈ text, Text.isBlank c = true) : trimEnd text = [] := by
  rw [trimEnd, List.dropWhile_eq_nil_iff.mpr, List.reverse_nil]
  exact fun c hc => htext c (List.mem_reverse.mp hc)

theorem getLast?_trimEnd (text : List Char) : (trimEnd text).getLast? ≠ some '\r' := by
  rw [trimEnd, List.getLast?_reverse]
  intro hlast
  have hnot := List.head?_dropWhile_not Text.isBlank text.reverse
  rw [hlast] at hnot
  exact absurd hnot (by decide)

/-! ## Names and dates -/

/-- A text that ends no line and, inside of a comment, does not begin to close it. -/
def IsInert (text : List Char) : Prop :=
  ∀ c ∈ text, c ≠ '*' ∧ endsLine c = false

instance : DecidablePred IsInert := fun text =>
  List.decidableBAll (fun c => c ≠ '*' ∧ endsLine c = false) text

theorem IsInert.append (hfront : IsInert front) (hback : IsInert back) : IsInert (front ++ back) :=
  List.forall_mem_append.mpr ⟨hfront, hback⟩

/-- The text of an identifier has the characters of names, and those of escapes. -/
def IsIdentifier (name : List Char) : Prop :=
  ∀ c ∈ name, isNameChar c = true ∨ c = '\\' ∨ c = '\x7b' ∨ c = '\x7d'

instance : DecidablePred IsIdentifier := fun name =>
  List.decidableBAll (fun c => isNameChar c = true ∨ c = '\\' ∨ c = '\x7b' ∨ c = '\x7d') name

theorem endsLine_iff {c : Char} :
    endsLine c = true ↔ c = '\n' ∨ c = '\r' ∨ c.toNat = 0x2028 ∨ c.toNat = 0x2029 := by
  simp [endsLine, isSeparator, or_assoc]

theorem IsIdentifier.isInert (hname : IsIdentifier name) : IsInert name := by
  intro c hc
  rcases hname c hc with hpart | rfl | rfl | rfl
  · refine ⟨?_, Bool.eq_false_iff.mpr fun hend => ?_⟩
    · rintro rfl
      exact absurd hpart (by decide)
    · rcases endsLine_iff.mp hend with rfl | rfl | hsep | hsep
      · exact absurd hpart (by decide)
      · exact absurd hpart (by decide)
      · simp [isNameChar, isBlank, hsep] at hpart
      · simp [isNameChar, isBlank, hsep] at hpart
  all_goals decide

theorem isInert_padded (width n : Nat) : IsInert (Stamp.padded width n).toList := by
  have hdigit : ∀ c : Char, c.isDigit = true → c ≠ '*' ∧ endsLine c = false := by
    intro c hc
    have hrange : 48 ≤ c.toNat ∧ c.toNat ≤ 57 := by
      simpa [Char.isDigit, UInt32.le_iff_toNat_le] using hc
    refine ⟨?_, Bool.eq_false_iff.mpr fun hend => ?_⟩
    · rintro rfl
      exact absurd hrange (by decide)
    · rcases endsLine_iff.mp hend with rfl | rfl | hsep | hsep
      · exact absurd hrange (by decide)
      · exact absurd hrange (by decide)
      · omega
      · omega
  rw [Stamp.padded, String.toList_ofList]
  apply IsInert.append
  · intro c hc
    rw [List.eq_of_mem_replicate hc]
    decide
  · intro c hc
    exact hdigit c (Nat.isDigit_of_mem_toDigits (by decide) (by decide) hc)

/-- A date is inert. -/
theorem isInert_isoText (millis : Int) : IsInert (Stamp.isoText millis).toList := by
  have hyear : ∀ year : Int, IsInert (Stamp.yearText year).toList := by
    intro year
    unfold Stamp.yearText
    split
    · exact isInert_padded _ _
    · split <;> rw [String.toList_append] <;> exact .append (by decide) (isInert_padded _ _)
  have hdash : IsInert "-".toList := by decide
  have hcolon : IsInert ":".toList := by decide
  have hdate : IsInert "T".toList := by decide
  have hpoint : IsInert ".".toList := by decide
  have hzone : IsInert "Z".toList := by decide
  simp only [Stamp.isoText, String.toList_append]
  exact (((((((((((((hyear _).append hdash).append (isInert_padded _ _)).append hdash).append
    (isInert_padded _ _)).append hdate).append (isInert_padded _ _)).append hcolon).append
    (isInert_padded _ _)).append hcolon).append (isInert_padded _ _)).append hpoint).append
    (isInert_padded _ _)).append hzone

/-! ## The lines of a block -/

/-- Blanks and tabs. -/
def IsIndent (indent : List Char) : Prop :=
  ∀ c ∈ indent, c = ' ' ∨ c = '\t'

instance : DecidablePred IsIndent := fun indent =>
  List.decidableBAll (fun c => c = ' ' ∨ c = '\t') indent

theorem IsIndent.isUnbroken (hindent : IsIndent indent) : IsUnbroken indent := by
  intro c hc
  rcases hindent c hc with rfl | rfl <;> decide

theorem isQuiet_comment (hindent : IsIndent indent) (shown : List Char) :
    isQuiet (indent ++ ("//".toList ++ shown)) = true := by
  have hblank : ∀ c ∈ indent, isBlank c = true := by
    intro c hc
    rcases hindent c hc with rfl | rfl <;> decide
  have hslash : isBlank '/' = false := by decide
  simp [isQuiet, List.dropWhile_append_of_pos hblank, hslash]

theorem TakesBreak.indented (hbreak : TakesBreak line) (hindent : IsIndent indent) :
    TakesBreak (indent ++ line) := by
  obtain ⟨hline, hlast⟩ := hbreak
  constructor
  · intro hmem
    rcases List.mem_append.mp hmem with hmem | hmem
    · exact absurd (hindent.isUnbroken _ hmem) (by decide)
    · exact hline hmem
  · rw [List.getLast?_append]
    intro hor
    rcases Option.or_eq_some_iff.mp hor with hend | ⟨-, hend⟩
    · exact hlast hend
    · exact absurd (hindent.isUnbroken _ (List.mem_of_getLast? hend)) (by decide)

/-- Texts that are joined with line feeds and indentation are lines of their own. -/
theorem codeLines_joinWith (hindent : IsIndent indent) {first : List Char} {rest : List (List Char)}
    (hpieces : ∀ piece ∈ first :: rest, TakesBreak piece) (after : List Char) :
    codeLines (joinWith ('\n' :: indent) (first :: rest) ++ '\n' :: after) =
      first.splitOnP endsLine ++
        (rest.flatMap fun piece => (indent ++ piece).splitOnP endsLine) ++ codeLines after := by
  induction rest generalizing first with
  | nil => simp [joinWith, codeLines_append_break (hpieces first List.mem_cons_self)]
  | cons next rest ih =>
    have hjoin : joinWith ('\n' :: indent) (first :: next :: rest) ++ '\n' :: after =
        first ++ '\n' ::
          (joinWith ('\n' :: indent) ((indent ++ next) :: rest) ++ '\n' :: after) := by
      cases rest <;> simp [joinWith]
    have hnext : ∀ piece ∈ (indent ++ next) :: rest, TakesBreak piece := by
      intro piece hpiece
      rcases List.mem_cons.mp hpiece with rfl | hpiece
      · exact (hpieces next (by simp)).indented hindent
      · exact hpieces piece (by simp [hpiece])
    rw [hjoin, codeLines_append_break (hpieces first List.mem_cons_self), ih hnext,
      List.flatMap_cons]
    simp only [List.append_assoc]

/-- Of a line that is commented, only the first part is behind the mark of the comment. -/
theorem exists_splitOnP_commented (hindent : IsIndent indent) {outdented : List Char}
    (hline : outdented = line ∨ outdented = outdent indent line) :
    ∃ shown, (indent ++ commented outdented).splitOnP endsLine =
      (indent ++ ("//".toList ++ shown)) :: ((trimEnd line).splitOnP endsLine).tail := by
  obtain ⟨blanks, hblanks, rfl⟩ : ∃ blanks, IsIndent blanks ∧ line = blanks ++ outdented := by
    rcases hline with rfl | rfl
    · exact ⟨[], by decide, rfl⟩
    · unfold outdent
      split
      · rename_i hprefix
        exact ⟨indent, hindent, (List.prefix_iff_eq_append.mp
          (List.isPrefixOf_iff_prefix.mp hprefix)).symm⟩
      · exact ⟨[], by decide, rfl⟩
  have hmark : IsUnbroken "// ".toList := by decide
  rw [commented, trimEnd_append, trimEnd_append]
  split
  · -- Nothing is left of the line.
    have hnone : trimEnd blanks = [] := by
      apply trimEnd_eq_nil
      intro c hc
      rcases hblanks c hc with rfl | rfl <;> decide
    have hslashes : trimEnd "// ".toList = "//".toList := by decide
    refine ⟨[], ?_⟩
    rw [hnone, hslashes, hindent.isUnbroken.splitOnP_append]
    rfl
  · rw [hindent.isUnbroken.splitOnP_append, hmark.splitOnP_append,
      hblanks.isUnbroken.splitOnP_append, List.tail_modifyHead]
    obtain ⟨first, others, hsplit⟩ :=
      List.exists_cons_of_ne_nil (List.splitOnP_ne_nil endsLine (trimEnd outdented))
    exact ⟨' ' :: first, by rw [hsplit]; rfl⟩

/-- A commented line is quiet as far as its parts behind the first are. -/
theorem isQuiet_commented_iff (hindent : IsIndent indent) {outdented : List Char}
    (hline : outdented = line ∨ outdented = outdent indent line) (hbreak : '\n' ∉ line) :
    (∀ piece ∈ (indent ++ commented outdented).splitOnP endsLine, isQuiet piece = true) ↔
      ∀ part ∈ (codeLines (trimEnd line)).tail, isQuiet part = true := by
  obtain ⟨shown, hsplit⟩ := exists_splitOnP_commented hindent hline
  rw [hsplit, codeLines_of_not_mem fun hmem => hbreak (mem_of_mem_trimEnd hmem),
    List.forall_mem_cons]
  exact and_iff_right (isQuiet_comment hindent shown)

theorem takesBreak_commented {outdented : List Char}
    (hline : outdented = line ∨ outdented = outdent indent line) (hbreak : '\n' ∉ line) :
    TakesBreak (commented outdented) := by
  refine ⟨fun hmem => ?_, getLast?_trimEnd _⟩
  rcases List.mem_append.mp (mem_of_mem_trimEnd hmem) with hmark | hmem
  · exact absurd hmark (by decide)
  · rcases hline with rfl | rfl
    · exact hbreak hmem
    · unfold outdent at hmem
      split at hmem
      · exact hbreak (List.mem_of_mem_drop hmem)
      · exact hbreak hmem

theorem IsUnbroken.takesBreak (hline : IsUnbroken line) : TakesBreak line :=
  ⟨fun hmem => absurd (hline _ hmem) (by decide),
    fun hlast => absurd (hline _ (List.mem_of_getLast? hlast)) (by decide)⟩

/-- Around an inert text, the marks of a comment make up one comment on one line. -/
theorem isBlockComment_of_isInert (htext : IsInert text) :
    IsBlockComment ("/*".toList ++ text ++ "*/".toList) ∧
      IsUnbroken ("/*".toList ++ text ++ "*/".toList) := by
  refine ⟨⟨text, rfl, fun hclose => (htext '*' (hclose.mem (by simp))).1 rfl⟩, ?_⟩
  have htext : IsUnbroken text := fun c hc => (htext c hc).2
  have hopening : IsUnbroken "/*".toList := by decide
  exact (hopening.append htext).append (by decide)

/-- What the first line of a block says. -/
def bannerText (name iso : List Char) : List Char :=
  " DEADWATCHER REMOVED FUNCTION: ".toList ++ name ++ " - ".toList ++ iso ++ " ".toList

/-- The lines of a function, each with its text as it is commented. -/
def bodyLines (indent text : List Char) : List (List Char × List Char) :=
  match lines text with
  | [] => []
  | first :: others => (first, first) :: others.map fun line => (line, outdent indent line)

theorem map_fst_bodyLines (indent text : List Char) :
    (bodyLines indent text).map Prod.fst = lines text := by
  unfold bodyLines
  split <;> simp [*, Function.comp_def]

theorem eq_of_mem_bodyLines {body : List Char × List Char} (hbody : body ∈ bodyLines indent text) :
    '\n' ∉ body.1 ∧ (body.2 = body.1 ∨ body.2 = outdent indent body.1) := by
  have hmem : body.1 ∈ lines text := by
    rw [← map_fst_bodyLines indent]
    exact List.mem_map_of_mem hbody
  refine ⟨break_not_mem_of_mem_lines hmem, ?_⟩
  unfold bodyLines at hbody
  split at hbody
  · simp at hbody
  · rcases List.mem_cons.mp hbody with rfl | hbody
    · exact .inl rfl
    · obtain ⟨line, -, rfl⟩ := List.mem_map.mp hbody
      exact .inr rfl

theorem isInert_bannerText {iso : List Char} (hname : IsInert name) (hiso : IsInert iso) :
    IsInert (bannerText name iso) := by
  have hopening : IsInert " DEADWATCHER REMOVED FUNCTION: ".toList := by decide +kernel
  exact (((hopening.append hname).append (by decide)).append hiso).append (by decide)

theorem removalBlock_append (name text indent iso after : List Char) :
    removalBlock name text indent iso ++ after = joinWith ('\n' :: indent)
      (("/*".toList ++ bannerText name iso ++ "*/".toList) :: "// ORIGINAL (kept commented):".toList ::
        (bodyLines indent text).map fun body => commented body.2) ++ '\n' :: after := by
  have hopen : "/* DEADWATCHER REMOVED FUNCTION: ".toList =
      "/*".toList ++ " DEADWATCHER REMOVED FUNCTION: ".toList := by decide +kernel
  have hclose : " */".toList = " ".toList ++ "*/".toList := by decide +kernel
  unfold removalBlock bodyLines bannerText
  rw [hopen, hclose]
  cases lines text <;>
    simp only [List.append_assoc, List.map_nil, List.map_cons, List.map_map, List.singleton_append,
      Function.comp_def]

/-- The lines of a block: a banner, a line that announces the function, and the lines of the
function as comments. -/
theorem codeLines_removalBlock {iso : List Char} (hname : IsInert name) (hiso : IsInert iso)
    (hindent : IsIndent indent) (text after : List Char) :
    codeLines (removalBlock name text indent iso ++ after) =
      ("/*".toList ++ bannerText name iso ++ "*/".toList) ::
        (((indent ++ "// ORIGINAL (kept commented):".toList) ::
          (bodyLines indent text).flatMap fun body =>
            (indent ++ commented body.2).splitOnP endsLine) ++ codeLines after) := by
  have hends := (isBlockComment_of_isInert (isInert_bannerText hname hiso)).2
  have hpieces : ∀ piece ∈ ("/*".toList ++ bannerText name iso ++ "*/".toList) ::
      "// ORIGINAL (kept commented):".toList ::
        (bodyLines indent text).map fun body => commented body.2, TakesBreak piece := by
    simp only [List.forall_mem_cons, List.forall_mem_map]
    refine ⟨hends.takesBreak, by decide, fun body hbody => ?_⟩
    obtain ⟨hbreak, hline⟩ := eq_of_mem_bodyLines hbody
    exact takesBreak_commented hline hbreak
  have hmarker : (indent ++ "// ORIGINAL (kept commented):".toList).splitOnP endsLine =
      [indent ++ "// ORIGINAL (kept commented):".toList] := by
    apply List.splitOnP_eq_singleton
    exact hindent.isUnbroken.append (by decide)
  rw [removalBlock_append, codeLines_joinWith hindent hpieces, List.splitOnP_eq_singleton hends,
    List.flatMap_cons, hmarker, List.flatMap_map]
  rfl

/-- Nothing of a commented function runs, if its lines end at line feeds. The first line of
the block is a comment, and what follows the block begins a line of its own. The lines
between are blank or comments exactly if no line of the function, without the blanks at its
end, goes on with code behind a carriage return or a separator. -/
theorem removalBlock_quiet_iff (hname : IsIdentifier name) (hindent : IsIndent indent)
    (text : List Char) (millis : Int) :
    ∃ banner others, IsBlockComment banner ∧
      (∀ after, codeLines (removalBlock name text indent (Stamp.isoText millis).toList ++ after) =
        banner :: (others ++ codeLines after)) ∧
      (removalBlock name text indent (Stamp.isoText millis).toList).getLast? = some '\n' ∧
      ((∀ line ∈ others, isQuiet line = true) ↔
        ∀ line ∈ lines text, ∀ part ∈ (codeLines (trimEnd line)).tail, isQuiet part = true) := by
  have hiso := isInert_isoText millis
  have hbanner := isInert_bannerText hname.isInert hiso
  refine ⟨_, _, (isBlockComment_of_isInert hbanner).1,
    codeLines_removalBlock hname.isInert hiso hindent text, by simp [removalBlock], ?_⟩
  have hsplit : "// ORIGINAL (kept commented):".toList =
      "//".toList ++ " ORIGINAL (kept commented):".toList := by decide +kernel
  have hmarker : isQuiet (indent ++ "// ORIGINAL (kept commented):".toList) = true := by
    rw [hsplit]
    exact isQuiet_comment hindent _
  rw [List.forall_mem_cons, and_iff_right hmarker, ← map_fst_bodyLines indent, List.forall_mem_map,
    List.forall_mem_flatMap]
  refine forall₂_congr fun body hbody => ?_
  obtain ⟨hbreak, hline⟩ := eq_of_mem_bodyLines hbody
  exact isQuiet_commented_iff hindent hline hbreak

/-- Where carriage returns alone end the lines of a function, it goes on behind its first
line; with line feeds behind them, nothing of it runs. -/
theorem removalBlock_quiet_iff_returns :
    IsIdentifier "dead".toList ∧ IsIndent "\t ".toList ∧
      (∃ banner others, IsBlockComment banner ∧
        (∀ after, codeLines (removalBlock "dead".toList
            "function dead() \x7b\r\t start();\r\t \x7d".toList "\t ".toList
            (Stamp.isoText 100).toList ++ after) = banner :: (others ++ codeLines after)) ∧
        ∃ line ∈ others, isQuiet line = false) ∧
      ∃ banner others, IsBlockComment banner ∧
        (∀ after, codeLines (removalBlock "dead".toList
            "function dead() \x7b\r\n\t start();\r\n\t \x7d".toList "\t ".toList
            (Stamp.isoText 100).toList ++ after) = banner :: (others ++ codeLines after)) ∧
        ∀ line ∈ others, isQuiet line = true := by
  have hname : IsIdentifier "dead".toList := by decide
  have hindent : IsIndent "\t ".toList := by decide
  refine ⟨hname, hindent, ?_, ?_⟩
  · obtain ⟨banner, others, hbanner, hlines, -, hquiet⟩ := removalBlock_quiet_iff hname hindent
      "function dead() \x7b\r\t start();\r\t \x7d".toList 100
    refine ⟨banner, others, hbanner, hlines, ?_⟩
    by_contra hnone
    refine absurd (hquiet.mp fun line hline => ?_) (by decide +kernel)
    exact eq_true_of_ne_false fun hloud => hnone ⟨line, hline, hloud⟩
  · obtain ⟨banner, others, hbanner, hlines, -, hquiet⟩ := removalBlock_quiet_iff hname hindent
      "function dead() \x7b\r\n\t start();\r\n\t \x7d".toList 100
    exact ⟨banner, others, hbanner, hlines, hquiet.mpr (by decide +kernel)⟩

end Deadwood.Script
