/-
# Lists of selectors in pieces

A list of selectors need not make sense to be read. It is enough that it falls into
pieces: characters by themselves, escapes, strings and conditions in brackets. Behind
every piece the readings of a list are outside of strings, brackets and escapes, and
only parentheses can be open.

A `Seam` is a place between two pieces where no name is cut: at an end of the list,
or beside a blank, a comma or a combinator. The blank that ends an escape by number
belongs to a name, and is no such place.
-/

import Deadwood.Proofs.Stylesheet.Conditions
import Deadwood.Proofs.Stylesheet.Splitting

namespace Deadwood.Css

open Deadwood.Text (isBlank isHexDigit)
open Deadwood.Selector (Depth Nesting shade split splitFrom)

variable {c : Char} {text rest front back : List Char} {P : List Char → Prop}

/-! ## Pieces -/

theorem MadeOf.of_all {avoided : List Char} (hchar : ∀ {c : Char}, c ∉ avoided → P [c])
    (htext : text.all (fun c => !avoided.contains c) = true) : MadeOf P text := by
  induction text with
  | nil => exact .nil
  | cons c text ih =>
    rw [List.all_cons, Bool.and_eq_true] at htext
    exact .cons (hchar (by simpa using htext.1)) (ih htext.2)

theorem MadeOf.exists_cons (htext : MadeOf P text) (hne : text ≠ []) :
    ∃ piece rest, text = piece ++ rest ∧ P piece ∧ MadeOf P rest := by
  cases htext with
  | nil => exact absurd rfl hne
  | cons hpiece hrest => exact ⟨_, _, rfl, hpiece, hrest⟩

/-- A string. No bracket in it can be taken for that of a condition on the class
attribute. -/
inductive IsString : List Char → Prop
  | quoted {quote : Char} {content : List Char} (hquote : quote = '"' ∨ quote = '\'')
      (hcontent : MadeOf (IsStringPiece quote) content)
      (hopen : ∀ front behind, content = front ++ '[' :: behind → Guarded (behind ++ [quote])) :
      IsString (quote :: (content ++ [quote]))

/-- The pieces of what stands between brackets. -/
inductive IsInnerPiece : List Char → Prop
  | char {c : Char} (hc : c ∉ ['\\', '"', '\'', '[', ']', '(', ')']) : IsInnerPiece [c]
  | escape (c : Char) : IsInnerPiece ['\\', c]
  | string {text : List Char} (htext : IsString text) : IsInnerPiece text

/-- The pieces of a list of selectors. -/
inductive IsPiece : List Char → Prop
  | char {c : Char} (hc : c ∉ ['\\', '"', '\'', '[', ']', '=']) : IsPiece [c]
  | escape (c : Char) : IsPiece ['\\', c]
  | string {text : List Char} (htext : IsString text) : IsPiece text
  | condition {inner : List Char} (hinner : MadeOf IsInnerPiece inner) :
      IsPiece ('[' :: (inner ++ [']']))

/-- A list of selectors without comments. -/
def Lexed (text : List Char) : Prop :=
  MadeOf IsPiece text

/-- Behind a character that stands for itself the list goes on. -/
theorem Lexed.tail (hlexed : Lexed (c :: rest)) (hc : c ∉ ['\\', '"', '\'', '[']) : Lexed rest := by
  obtain ⟨piece, more, hsplit, hpiece, hmore⟩ := hlexed.exists_cons (by simp)
  cases hpiece with
  | char _ =>
    obtain ⟨-, rfl⟩ := List.cons.inj hsplit
    exact hmore
  | escape _ =>
    obtain ⟨rfl, -⟩ := List.cons.inj hsplit
    simp at hc
  | string htext =>
    obtain ⟨hquote, -⟩ := htext
    obtain ⟨rfl, -⟩ := List.cons.inj hsplit
    rcases hquote with rfl | rfl <;> simp at hc
  | condition _ =>
    obtain ⟨rfl, -⟩ := List.cons.inj hsplit
    simp at hc

/-! ## Seams -/

/-- How an escape goes on with a character: a number has up to six digits, and anything
else is escaped by itself. The count is that of the digits behind the backslash. -/
def escapeStep (escape : Option Nat) (c : Char) : Option Nat :=
  if isHexDigit c && escape.any (· < 6) then escape.map (· + 1)
  else if c = '\\' ∧ escape ≠ some 0 then some 0
  else none

/-- The escape that is under way at the end of a text. -/
def escapeAt (text : List Char) : Option Nat :=
  text.foldl escapeStep none

/-- A text that ends with an escape by number. A blank behind it would belong to the
escape. -/
def EndsOpen (text : List Char) : Prop :=
  ∃ count, escapeAt text = some (count + 1)

/-- The blanks, the comma and the combinators. -/
def separators : List Char :=
  [' ', '\t', '\n', '\x0c', '\r', ',', '>', '+', '~']

/-- A place in a list of selectors where no name is cut. -/
inductive Seam : List Char → List Char → Prop
  | start (back : List Char) : Seam [] back
  | stop (front : List Char) : Seam front []
  | before {front : List Char} {c : Char} (back : List Char) (hc : c ∈ separators)
      (hopen : isBlank c = true → ¬ EndsOpen front) : Seam front (c :: back)
  | behind {front : List Char} {c : Char} (back : List Char) (hfront : Lexed front)
      (hc : c ∈ separators) (hopen : isBlank c = true → ¬ EndsOpen front) :
      Seam (front ++ [c]) back

/-- An escape ends with a character that is neither a digit nor a backslash. -/
theorem escapeAt_append_cons (hhex : isHexDigit c = false) (hbackslash : c ≠ '\\')
    (front rest : List Char) : escapeAt (front ++ c :: rest) = escapeAt rest := by
  have hstep : ∀ escape, escapeStep escape c = none := fun escape => by
    simp [escapeStep, hhex, hbackslash]
  rw [escapeAt, List.foldl_append, List.foldl_cons, hstep]
  rfl

/-! ## Reading to the end of a text -/

variable {negations : Bool} {s : Nesting}

/-- No text is continued to a negation by a character that does not belong to one. -/
theorem continuesNegation_append
    (hrest : ∀ c ∈ rest.head?, c.toLower ∉ ['n', 'o', 't', '(']) :
    Nesting.continuesNegation (text ++ rest) = Nesting.continuesNegation text := by
  by_cases hlength : 4 ≤ text.length
  · rw [Nesting.continuesNegation, List.take_append_of_le_length hlength]
    rfl
  · have hshort : Nesting.continuesNegation text = false := by
      rw [Nesting.continuesNegation, beq_eq_false_iff_ne]
      intro hsame
      have hlengths := congrArg List.length hsame
      simp at hlengths
      omega
    rw [hshort, Nesting.continuesNegation, beq_eq_false_iff_ne]
    intro hsame
    cases rest with
    | nil =>
      rw [List.append_nil] at hsame
      simp [Nesting.continuesNegation, hsame] at hshort
    | cons c rest =>
      apply hrest c rfl
      rw [← hsame, List.take_append]
      obtain ⟨n, hn⟩ : ∃ n, 4 - text.length = n + 1 := ⟨3 - text.length, by omega⟩
      simp [hn]

/-- A text is shaded alike before whatever does not continue it to a negation. -/
theorem shade_append (hrest : ∀ c ∈ rest.head?, c.toLower ∉ ['n', 'o', 't', '(']) :
    shade negations s (text ++ rest) =
      shade negations s text ++ shade negations (endOf negations s text) rest := by
  induction text generalizing s with
  | nil => rfl
  | cons c text ih =>
    have hstep : s.step negations c (text ++ rest) = s.step negations c text := by
      simp only [Nesting.step, continuesNegation_append hrest]
    simp only [List.cons_append, shade, hstep, endOf, ih]

/-- Characters without a meaning leave the reading where it is. -/
theorem leads_mute (n : Nat)
    (hc : c ∉ ['\\', '"', '\'', '[', ']', '(', ')', ':']) :
    Leads negations (outside n) [c] (outside n).hides (outside n) := by
  simp only [List.mem_cons, List.not_mem_nil, or_false, not_or] at hc
  exact leads_char fun rest => by simp [Nesting.step, outside, hc]

/-- A string is hidden, and behind it the reading is where it was before it. -/
theorem leads_string (hs : AtRest s) (htext : IsString text) : Leads negations s text true s := by
  obtain ⟨hquote, hcontent, -⟩ := htext
  exact leads_quoted hs hquote hcontent

/-- How many parentheses are open behind a character, in a negation. -/
def counted (c : Char) (n : Nat) : Nat :=
  if n = 0 then 0 else if c = '(' then n + 1 else if c = ')' then n - 1 else n

/-- A character by itself is counted, unless it begins a negation. -/
theorem step_char (hs : AtRest s) (hc : c ∉ ['\\', '"', '\'', '[', ']'])
    (hcolon : ¬ (negations = true ∧ c = ':' ∧ s.brackets = 0 ∧ s.negations = 0 ∧
      Nesting.continuesNegation rest = true)) :
    (s.step negations c rest).2 = { s with negations := counted c s.negations } := by
  obtain ⟨brackets, n, quote, literal⟩ := s
  obtain ⟨rfl, rfl⟩ : literal = 0 ∧ quote = none := hs
  simp only [List.mem_cons, List.not_mem_nil, or_false, not_or] at hc
  by_cases hn : n = 0
  · subst hn
    simp only [true_and] at hcolon
    simp [Nesting.step, counted, hc, hcolon]
  by_cases hopen : c = '('
  · simp [Nesting.step, counted, hopen, hn, Nat.pos_of_ne_zero hn]
  by_cases hclose : c = ')'
  · simp [Nesting.step, counted, hclose, hn, Nat.pos_of_ne_zero hn]
  · simp [Nesting.step, counted, hc, hopen, hclose, hn]

/-- Between brackets all is hidden, up to the one that closes them. -/
theorem leads_inner {inner : List Char} (hinner : MadeOf IsInnerPiece inner) (n : Nat) :
    Leads negations (inBrackets n) (inner ++ [']']) true (outside n) := by
  have hclose : Leads negations (inBrackets n) [']'] true (outside n) := leads_char fun _ => rfl
  have hinside : Leads negations (inBrackets n) inner true (inBrackets n) := by
    refine hinner.piecewise (piecewise_leads negations _ true) ?_
    rintro piece (@⟨c, hc⟩ | c | htext)
    · simp only [List.mem_cons, List.not_mem_nil, or_false, not_or] at hc
      exact leads_char fun rest => by simp [Nesting.step, Nesting.hides, inBrackets, hc]
    · rw [← hides_inBrackets n]
      exact leads_escape rfl c
    · exact leads_string (atRest_inBrackets n) htext
  exact hinside.append hclose

/-- What continues a colon to a negation are four characters by themselves. -/
theorem exists_of_continuesNegation (hcontinues : Nesting.continuesNegation text = true) :
    ∃ four rest, text = four ++ rest ∧ four.length = 4 ∧
      ∀ c ∈ four, c ∉ ['\\', '"', '\'', '['] := by
  have hsame : (text.take 4).map Char.toLower = ['n', 'o', 't', '('] := eq_of_beq hcontinues
  refine ⟨text.take 4, text.drop 4, (List.take_append_drop 4 text).symm, ?_, ?_⟩
  · simpa using congrArg List.length hsame
  · intro c hc hmem
    have hlower : c.toLower ∈ ['n', 'o', 't', '('] := hsame ▸ List.mem_map_of_mem hc
    have hnone : ['\\', '"', '\'', '['].all (fun c => c.toLower ∉ ['n', 'o', 't', '(']) = true := by
      decide
    exact absurd hlower (by simpa using List.all_eq_true.mp hnone c hmem)

/-- Characters that stand for themselves can be left out in front. -/
theorem Lexed.of_append (hlexed : Lexed (text ++ rest))
    (htext : ∀ c ∈ text, c ∉ ['\\', '"', '\'', '[']) : Lexed rest := by
  induction text with
  | nil => exact hlexed
  | cons c text ih =>
    exact ih (hlexed.tail (htext c List.mem_cons_self)) fun d hd =>
      htext d (List.mem_cons_of_mem _ hd)

/-- Characters that stand for themselves are passed over one by one. -/
theorem endOf_literal (n : Nat) {four : List Char} :
    endOf negations { outside n with literal := four.length } (four ++ rest) =
      endOf negations (outside n) rest := by
  induction four with
  | nil => rfl
  | cons c four ih => exact ih

/-- Behind all pieces of a list the reading is outside of everything but
parentheses. -/
theorem exists_endOf (hlexed : Lexed text) (n : Nat) :
    ∃ m, endOf negations (outside n) text = outside m := by
  induction hlength : text.length using Nat.strong_induction_on generalizing text n with
  | _ length ih =>
    cases hlexed with
    | nil => exact ⟨n, rfl⟩
    | @cons piece rest hpiece hrest =>
      have hbehind : piece ≠ [] →
          endOf negations (outside n) (piece ++ rest) = endOf negations (outside n) rest →
            ∃ m, endOf negations (outside n) (piece ++ rest) = outside m := by
        intro hne hsame
        rw [hsame]
        refine ih rest.length ?_ hrest n rfl
        have := List.length_pos_iff.mpr hne
        rw [← hlength, List.length_append]
        omega
      cases hpiece with
      | @char c hc =>
        have hmarks : c ∉ ['\\', '"', '\'', '[', ']'] := fun hmem => hc (by
          simp only [List.mem_cons, List.not_mem_nil, or_false] at hmem ⊢
          tauto)
        by_cases hnegation : negations = true ∧ c = ':' ∧ (outside n).brackets = 0 ∧
            (outside n).negations = 0 ∧ Nesting.continuesNegation rest = true
        · obtain ⟨rfl, rfl, -, rfl, hcontinues⟩ := hnegation
          obtain ⟨four, behind, rfl, hfour, hplain⟩ := exists_of_continuesNegation hcontinues
          have hstep : ((outside 0).step true ':' (four ++ behind)).2 =
              { outside 1 with literal := four.length } := by
            simp [Nesting.step, outside, hcontinues, hfour]
          rw [List.singleton_append, endOf, hstep, endOf_literal]
          have hshorter : behind.length < length := by
            rw [← hlength, List.length_append, List.length_append, List.length_singleton]
            omega
          exact ih _ hshorter (Lexed.of_append hrest hplain) 1 rfl
        · have hstep : ((outside n).step negations c rest).2 = outside (counted c n) :=
            step_char (atRest_outside n) hmarks hnegation
          rw [List.singleton_append, endOf, hstep]
          exact ih rest.length (by simp [← hlength]) hrest _ rfl
      | escape c => exact hbehind (by simp) ((leads_escape rfl c).endOf rest)
      | string htext =>
        exact hbehind (by cases htext; simp) ((leads_string (atRest_outside n) htext).endOf rest)
      | condition hinner => exact hbehind (by simp) ((leads_inner hinner n).endOf rest)

/-! ## Falling into parts -/

theorem joins_string (depth : Nat) (htext : IsString text) :
    Joins (level depth) text (level depth) := by
  obtain ⟨hquote, hcontent, -⟩ := htext
  exact joins_quoted depth hquote hcontent

/-- A character that opens and closes nothing belongs to a selector, where it does not
part two. -/
theorem joins_plain {depth : Nat} (hc : c ∉ ['\\', '"', '\'', '[', ']', '(', ')'])
    (hcomma : c = ',' → 0 < depth) : Joins (level depth) [c] (level depth) := by
  simp only [List.mem_cons, List.not_mem_nil, or_false, not_or] at hc
  have hsame : (level depth).next c = level depth := by simp [Depth.next, level, hc]
  have hparts : (level depth).parts c = false := by
    by_cases hc : c = ','
    · simp [Depth.parts, level, Nat.ne_of_gt (hcomma hc)]
    · simp [Depth.parts, hc]
  have hjoins := joins_char hparts
  rwa [hsame] at hjoins

theorem joins_brackets (depth : Nat) {inner : List Char} (hinner : MadeOf IsInnerPiece inner) :
    Joins (level depth) ('[' :: (inner ++ [']'])) (level depth) := by
  have hopen : Joins (level depth) ['['] (level (depth + 1)) := joins_char rfl
  have hclose : Joins (level (depth + 1)) [']'] (level depth) := joins_char rfl
  have hinside : Joins (level (depth + 1)) inner (level (depth + 1)) := by
    refine hinner.piecewise (piecewise_joins _) ?_
    rintro piece (@⟨c, hc⟩ | c | htext)
    · exact joins_plain hc fun _ => Nat.succ_pos depth
    · exact joins_escape rfl c
    · exact joins_string (depth + 1) htext
  exact hopen.append (hinside.append hclose)

/-- A piece belongs to a selector, unless it is a comma that parts two. -/
theorem IsPiece.joins {piece : List Char} (hpiece : IsPiece piece) (depth : Nat) :
    (∃ behind, Joins (level depth) piece (level behind)) ∨ piece = [','] ∧ depth = 0 := by
  cases hpiece with
  | @char c hc =>
    by_cases hopen : c = '('
    · subst hopen
      exact .inl ⟨depth + 1, joins_char rfl⟩
    by_cases hclose : c = ')'
    · subst hclose
      exact .inl ⟨depth - 1, joins_char rfl⟩
    by_cases hcomma : c = ',' ∧ depth = 0
    · exact .inr ⟨by rw [hcomma.1], hcomma.2⟩
    · refine .inl ⟨depth, joins_plain ?_ fun hc => ?_⟩
      swap
      · exact Nat.pos_of_ne_zero fun hzero => hcomma ⟨hc, hzero⟩
      simp only [List.mem_cons, List.not_mem_nil, or_false, not_or] at hc ⊢
      tauto
  | escape c => exact .inl ⟨depth, joins_escape rfl c⟩
  | string htext => exact .inl ⟨depth, joins_string depth htext⟩
  | condition hinner => exact .inl ⟨depth, joins_brackets depth hinner⟩

/-- How a list falls into parts up to a place in it: some parts are whole, and the
last one goes on behind the place. -/
structure SplitsAt (text : List Char) (parts : List (List Char)) (last : List Char)
    (depth : Nat) : Prop where
  splits : ∀ rest, split (text ++ rest) =
    parts ++ (splitFrom (level depth) rest).modifyHead (last ++ ·)
  lexed : Lexed last
  whole : parts = [] → text = last
  cut : parts ≠ [] → ∃ front, text = front ++ ',' :: last

namespace SplitsAt

variable {parts : List (List Char)} {last piece : List Char} {depth behind : Nat}

theorem nil : SplitsAt [] [] [] 0 := by
  refine ⟨fun rest => ?_, .nil, fun _ => rfl, fun hne => absurd rfl hne⟩
  obtain ⟨first, others, hsplit⟩ := List.exists_cons_of_ne_nil (splitFrom_ne_nil (level 0) rest)
  rw [hsplit]
  exact hsplit

theorem joins (hsplits : SplitsAt text parts last depth) (hpiece : Lexed piece)
    (hjoins : Joins (level depth) piece (level behind)) :
    SplitsAt (text ++ piece) parts (last ++ piece) behind := by
  refine ⟨fun rest => ?_, hsplits.lexed.append hpiece, ?_, ?_⟩
  · rw [List.append_assoc, hsplits.splits, hjoins, List.modifyHead_modifyHead]
    simp [Function.comp_def]
  · intro hparts
    rw [hsplits.whole hparts]
  · intro hparts
    obtain ⟨front, hfront⟩ := hsplits.cut hparts
    exact ⟨front, by simp [hfront]⟩

theorem comma (hsplits : SplitsAt text parts last 0) :
    SplitsAt (text ++ [',']) (parts ++ [last]) [] 0 := by
  refine ⟨fun rest => ?_, .nil, by simp, fun _ => ⟨text, rfl⟩⟩
  have hcomma : splitFrom (level 0) (',' :: rest) = [] :: splitFrom (level 0) rest := rfl
  obtain ⟨first, others, hsplit⟩ := List.exists_cons_of_ne_nil (splitFrom_ne_nil (level 0) rest)
  rw [List.append_assoc, hsplits.splits, List.singleton_append, hcomma, hsplit]
  simp

/-- Pieces are taken in one by one. -/
theorem exists_append (hsplits : SplitsAt text parts last depth) (hrest : Lexed rest) :
    ∃ parts last depth, SplitsAt (text ++ rest) parts last depth := by
  induction hrest generalizing text parts last depth with
  | nil => exact ⟨parts, last, depth, by rwa [List.append_nil]⟩
  | @cons piece rest hpiece _ ih =>
    rw [← List.append_assoc]
    rcases hpiece.joins depth with ⟨behind, hjoins⟩ | ⟨rfl, rfl⟩
    · exact ih (hsplits.joins (.singleton hpiece) hjoins)
    · exact ih hsplits.comma

/-- What is seen of the list, from the last comma on, ends open only if the list does. -/
theorem endsOpen (hsplits : SplitsAt text parts last depth) (hopen : EndsOpen last) :
    EndsOpen text := by
  by_cases hparts : parts = []
  · rwa [hsplits.whole hparts]
  · obtain ⟨front, rfl⟩ := hsplits.cut hparts
    rwa [EndsOpen, escapeAt_append_cons (by decide) (by decide)]

end SplitsAt

theorem Lexed.exists_splitsAt (hlexed : Lexed text) :
    ∃ parts last depth, SplitsAt text parts last depth :=
  SplitsAt.nil.exists_append hlexed

/-- The first part begins the text. -/
theorem exists_append_of_splitFrom {s : Depth} {first : List Char} {others : List (List Char)}
    (hsplit : splitFrom s text = first :: others) : ∃ behind, text = first ++ behind := by
  induction text generalizing s first others with
  | nil =>
    obtain ⟨rfl, -⟩ : [] = first ∧ [] = others := by simpa [splitFrom] using hsplit
    exact ⟨[], rfl⟩
  | cons c text ih =>
    rw [splitFrom] at hsplit
    split at hsplit
    · obtain ⟨rfl, -⟩ := List.cons.inj hsplit
      exact ⟨c :: text, rfl⟩
    · split at hsplit
      · rename_i hnil
        exact absurd hnil (splitFrom_ne_nil _ _)
      · rename_i part more hpart
        obtain ⟨rfl, -⟩ := List.cons.inj hsplit
        obtain ⟨behind, rfl⟩ := ih hpart
        exact ⟨behind, rfl⟩

theorem of_separator {test : Char → Bool} (htest : separators.all test = true)
    (hc : c ∈ separators) : test c = true :=
  List.all_eq_true.mp htest c hc

theorem lexed_of_separator (hc : c ∈ separators) : Lexed [c] := by
  refine .singleton (.char ?_)
  simpa using @of_separator c (fun c => c ∉ ['\\', '"', '\'', '[', ']', '=']) (by decide) hc

/-- A separator belongs to a selector, unless it is a comma that parts two. -/
theorem joins_separator (hc : c ∈ separators) {depth : Nat} (hcomma : ¬ (c = ',' ∧ depth = 0)) :
    Joins (level depth) [c] (level depth) := by
  refine joins_plain ?_ fun hc => Nat.pos_of_ne_zero fun hzero => hcomma ⟨hc, hzero⟩
  simpa using @of_separator c (fun c => c ∉ ['\\', '"', '\'', '[', ']', '(', ')']) (by decide) hc

/-- A seam of a list is one of the part in which it lies. What belongs to no other
part can be put there. -/
theorem Seam.exists_parts (hseam : Seam front back) (hfront : Lexed front) :
    ∃ depth before first second behind, Lexed first ∧ Seam first second ∧
      (∃ more, back = second ++ more) ∧
      ∀ inserted, Joins (level depth) inserted (level depth) →
        split (front ++ (inserted ++ back)) =
          before ++ (first ++ (inserted ++ second)) :: behind := by
  -- Only how the place lies in its part depends on the kind of the seam.
  have hparts : ∃ depth before first, SplitsAt front before first depth ∧ ∀ second behind,
      splitFrom (level depth) back = second :: behind → Seam first second := by
    cases hseam with
    | start => exact ⟨0, [], [], .nil, fun second _ _ => .start second⟩
    | stop =>
      obtain ⟨before, first, depth, hsplits⟩ := hfront.exists_splitsAt
      refine ⟨depth, before, first, hsplits, fun second behind hsplit => ?_⟩
      obtain ⟨rfl, -⟩ : [] = second ∧ [] = behind := by simpa [splitFrom] using hsplit
      exact .stop first
    | @before _ c back hc hopen =>
      obtain ⟨before, first, depth, hsplits⟩ := hfront.exists_splitsAt
      refine ⟨depth, before, first, hsplits, fun second behind hsplit => ?_⟩
      by_cases hcomma : c = ',' ∧ depth = 0
      · obtain ⟨rfl, rfl⟩ := hcomma
        obtain ⟨rfl, -⟩ := List.cons.inj hsplit
        exact .stop first
      · obtain ⟨inner, others, hinner⟩ :=
          List.exists_cons_of_ne_nil (splitFrom_ne_nil (level depth) back)
        have hjoins := joins_separator hc hcomma back
        rw [List.singleton_append, hsplit, hinner] at hjoins
        obtain ⟨rfl, -⟩ := List.cons.inj hjoins
        exact .before inner hc fun hblank => mt hsplits.endsOpen (hopen hblank)
    | @behind front c _ hlexed hc hopen =>
      obtain ⟨before, first, depth, hsplits⟩ := hlexed.exists_splitsAt
      by_cases hcomma : c = ',' ∧ depth = 0
      · obtain ⟨rfl, rfl⟩ := hcomma
        exact ⟨0, _, [], hsplits.comma, fun second _ _ => .start second⟩
      · exact ⟨depth, before, first ++ [c],
          hsplits.joins (lexed_of_separator hc) (joins_separator hc hcomma),
          fun second _ _ => .behind second hsplits.lexed hc fun hblank =>
            mt hsplits.endsOpen (hopen hblank)⟩
  obtain ⟨depth, before, first, hsplits, hseams⟩ := hparts
  obtain ⟨second, behind, hsplit⟩ :=
    List.exists_cons_of_ne_nil (splitFrom_ne_nil (level depth) back)
  refine ⟨depth, before, first, second, behind, hsplits.lexed, hseams second behind hsplit,
    exists_append_of_splitFrom hsplit, fun inserted hjoins => ?_⟩
  rw [hsplits.splits, hjoins, hsplit]
  rfl

end Deadwood.Css
