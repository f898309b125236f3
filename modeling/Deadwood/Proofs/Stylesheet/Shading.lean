/-
# What is hidden in a selector

Reading a selector character by character, the brackets of conditions and the
parentheses of negations close where they should: behind every part of a selector
the reading is where it was before it. Inside of negations all is hidden; outside,
only what stands in the brackets of conditions is.
-/

import Deadwood.Proofs.Stylesheet.Syntax

namespace Deadwood.Css

open Deadwood.Text (isAsciiBlank isBlank isHexDigit)
open Deadwood.Selector (isPlain Nesting shade)

variable {c : Char} {rest : List Char} {s : Nesting}

/-! ## Ordinary characters -/

/-- Characters with a meaning of their own. -/
def marks : List Char :=
  ['\\', '"', '\'', '[', ']', '(', ')', ':', '.', ',', '=']

def isOrdinary (c : Char) : Bool :=
  !marks.contains c

theorem isOrdinary_iff : isOrdinary c = true ↔ c ∉ marks := by
  simp [isOrdinary]

theorem isOrdinary_of {test : Char → Bool} (hmarks : marks.any test = false)
    (hc : test c = true) : isOrdinary c = true := by
  rw [isOrdinary_iff]
  intro hmem
  rw [List.any_eq_true.mpr ⟨c, hmem, hc⟩] at hmarks
  simp at hmarks

theorem isOrdinary_of_isPlain (hc : isPlain c = true) : isOrdinary c = true :=
  isOrdinary_of (by decide) hc

theorem isOrdinary_of_isHexDigit (hc : isHexDigit c = true) : isOrdinary c = true :=
  isOrdinary_of (by decide) hc

theorem isOrdinary_of_isAsciiBlank (hc : isAsciiBlank c = true) : isOrdinary c = true :=
  isOrdinary_of (by decide) hc

theorem mem_of_isAsciiBlank (hc : isAsciiBlank c = true) :
    c ∈ [' ', '\t', '\n', '\x0c', '\r'] := by
  simp only [isAsciiBlank, Bool.or_eq_true, beq_iff_eq] at hc
  rcases hc with (((rfl | rfl) | rfl) | hc) | rfl
  · simp
  · simp
  · simp
  · rw [← Char.ofNat_toNat c, hc]
    simp
  · simp

theorem isBlank_of_isAsciiBlank (hc : isAsciiBlank c = true) : isBlank c = true := by
  have hall : [' ', '\t', '\n', '\x0c', '\r'].all isBlank = true := by decide
  exact List.all_eq_true.mp hall c (mem_of_isAsciiBlank hc)

theorem not_isAsciiBlank_of_isPlain (hc : isPlain c = true) : isAsciiBlank c = false := by
  have hnone : [' ', '\t', '\n', '\x0c', '\r'].any isPlain = false := by decide
  rw [← Bool.not_eq_true]
  intro hblank
  exact List.any_eq_false.mp hnone c (mem_of_isAsciiBlank hblank) hc

theorem Gap.isOrdinary (gap : Gap) (hc : c ∈ gap.text) : isOrdinary c = true :=
  isOrdinary_of_isAsciiBlank (List.all_eq_true.mp gap.blank c hc)

/-- The words of selectors have no marks, in any case. -/
theorem Word.isOrdinary {words : List String}
    (hwords : words.all (fun word => word.toList.all Char.isLower) = true) (word : Word words)
    (hc : c ∈ word.text) : isOrdinary c = true := by
  obtain ⟨spelled, hmem, hsame⟩ := List.any_eq_true.mp word.known
  have hlower : c.toLower.isLower = true := by
    refine List.all_eq_true.mp (List.all_eq_true.mp hwords spelled hmem) c.toLower ?_
    rw [eq_of_beq hsame]
    exact List.mem_map_of_mem hc
  have hmarks : marks.any (fun c => c.toLower.isLower) = false := by decide
  exact isOrdinary_of hmarks hlower

theorem Combinator.isOrdinary (combinator : Combinator) (hc : c ∈ combinator.text) :
    isOrdinary c = true := by
  have hbetween : ∀ (before behind : Gap) (symbol : Char), Css.isOrdinary symbol = true →
      c ∈ before.text ++ symbol :: behind.text → Css.isOrdinary c = true := by
    intro before behind symbol hsymbol hc
    rcases List.mem_append.mp hc with hc | hc
    · exact before.isOrdinary hc
    · rcases List.mem_cons.mp hc with rfl | hc
      · exact hsymbol
      · exact behind.isOrdinary hc
  cases combinator with
  | descendant gap apart => exact gap.isOrdinary hc
  | child before behind => exact hbetween before behind '>' (by decide) hc
  | nextSibling before behind => exact hbetween before behind '+' (by decide) hc
  | laterSibling before behind => exact hbetween before behind '~' (by decide) hc

/-! ## Texts that are read piece by piece -/

/-- A property that a text has if its pieces have it. -/
structure Piecewise (P : List Char → Prop) : Prop where
  nil : P []
  append : ∀ {text rest : List Char}, P text → P rest → P (text ++ rest)

namespace Piecewise

variable {P : List Char → Prop} {text : List Char}

theorem of_forall (hP : Piecewise P) (htext : ∀ c ∈ text, P [c]) : P text := by
  induction text with
  | nil => exact hP.nil
  | cons c text ih =>
    exact hP.append (htext c List.mem_cons_self) (ih fun d hd => htext d (List.mem_cons_of_mem _ hd))

variable {asItself escapable : Char → Bool}

theorem letter (hP : Piecewise P) (hescape : ∀ c, P ['\\', c])
    (hplain : ∀ c, asItself c = true ∨ isHexDigit c = true ∨ isAsciiBlank c = true → P [c])
    {letter : Letter} (hvalid : letter.isValid asItself escapable = true) : P letter.text := by
  cases letter with
  | plain c => exact hplain c (.inl hvalid)
  | escaped c => exact hescape c
  | number digits blank =>
    simp only [Letter.isValid, Bool.and_eq_true, decide_eq_true_eq, List.all_eq_true] at hvalid
    obtain ⟨⟨⟨hpos, -⟩, hdigits⟩, hblank⟩ := hvalid
    obtain ⟨digit, digits, rfl⟩ := List.exists_cons_of_length_pos hpos
    -- The first digit is read as if it were escaped.
    refine hP.append (hescape digit) (hP.of_forall ?_)
    intro c hc
    rcases List.mem_append.mp hc with hc | hc
    · exact hplain c (.inr (.inl (hdigits c (List.mem_cons_of_mem _ hc))))
    · obtain rfl := Option.mem_toList.mp hc
      exact hplain c (.inr (.inr hblank))

theorem letters (hP : Piecewise P) (hescape : ∀ c, P ['\\', c])
    (hplain : ∀ c, asItself c = true ∨ isHexDigit c = true ∨ isAsciiBlank c = true → P [c])
    {letters : List Letter} (hspelled : areSpelled asItself escapable letters = true) :
    P (textOf letters) := by
  induction letters with
  | nil => exact hP.nil
  | cons letter letters ih =>
    simp only [areSpelled, Bool.and_eq_true] at hspelled
    rw [textOf_cons]
    exact hP.append (hP.letter hescape hplain hspelled.1.1) (ih hspelled.2)

variable (hP : Piecewise P) (hordinary : ∀ c, isOrdinary c = true → P [c])

include hP hordinary

theorem plainLetters (hescape : ∀ c, P ['\\', c]) {letters : List Letter}
    (hspelled : areSpelled isPlain escapable letters = true) : P (textOf letters) := by
  refine hP.letters hescape ?_ hspelled
  rintro c (hc | hc | hc)
  · exact hordinary c (isOrdinary_of_isPlain hc)
  · exact hordinary c (isOrdinary_of_isHexDigit hc)
  · exact hordinary c (isOrdinary_of_isAsciiBlank hc)

theorem name (hescape : ∀ c, P ['\\', c]) (name : Name) : P name.text :=
  hP.plainLetters hordinary hescape name.spelled

theorem gap (gap : Gap) : P gap.text :=
  hP.of_forall fun c hc => hordinary c (gap.isOrdinary hc)

theorem word {words : List String}
    (hwords : words.all (fun word => word.toList.all Char.isLower) = true) (word : Word words) :
    P word.text :=
  hP.of_forall fun c hc => hordinary c (word.isOrdinary hwords hc)

theorem combinator (combinator : Combinator) : P combinator.text :=
  hP.of_forall fun c hc => hordinary c (combinator.isOrdinary hc)

theorem tag (hescape : ∀ c, P ['\\', c]) (tag : Tag) : P tag.text := by
  cases tag with
  | unsaid => exact hP.nil
  | star => exact hordinary '*' (by decide)
  | named name => exact hP.name hordinary hescape name

/-- The parts of a condition are read one by one, up to the bracket that closes it. -/
theorem condition (hoperator : ∀ operator : Operator, P operator.text)
    (hvalue : ∀ value : Value, P value.text) (a : Attribute) :
    ∃ inner, a.body = inner ++ [']'] ∧ P inner := by
  have hgap := hP.gap hordinary
  have hflag : P a.flag.toList := by
    refine hP.of_forall fun c hc => ?_
    have hknown := a.isFlag
    rw [Option.mem_toList.mp hc, Option.all_some] at hknown
    exact hordinary c (isOrdinary_of (by decide) hknown)
  refine ⟨a.beforeWord.text ++ (a.word.text ++ (a.behindWord.text ++ (a.operator.text ++
    (a.beforeValue.text ++ (a.value.text ++ (a.behindValue.text ++ (a.flag.toList ++
      a.behindFlag.text))))))), ?_, ?_⟩
  · simp [Attribute.body, Attribute.comparison, Attribute.ending]
  · exact hP.append (hgap _) (hP.append (hP.word hordinary (by decide) _) (hP.append (hgap _)
      (hP.append (hoperator _) (hP.append (hgap _) (hP.append (hvalue _) (hP.append (hgap _)
        (hP.append hflag (hgap _))))))))

end Piecewise

variable {P : List Char → Prop} {text : List Char}

/-- A text that falls into pieces of some kind. -/
inductive MadeOf (P : List Char → Prop) : List Char → Prop
  | nil : MadeOf P []
  | cons {piece rest : List Char} (hpiece : P piece) (hrest : MadeOf P rest) :
      MadeOf P (piece ++ rest)

theorem MadeOf.append (htext : MadeOf P text) (hrest : MadeOf P rest) :
    MadeOf P (text ++ rest) := by
  induction htext with
  | nil => exact hrest
  | cons hpiece _ ih =>
    rw [List.append_assoc]
    exact .cons hpiece ih

theorem MadeOf.singleton (htext : P text) : MadeOf P text := by
  simpa using MadeOf.cons htext .nil

/-- What holds of the pieces holds of the text. -/
theorem MadeOf.piecewise {Q : List Char → Prop} (hQ : Piecewise Q)
    (hpieces : ∀ piece, P piece → Q piece) (htext : MadeOf P text) : Q text := by
  induction htext with
  | nil => exact hQ.nil
  | cons hpiece _ ih => exact hQ.append (hpieces _ hpiece) ih

theorem piecewise_madeOf (P : List Char → Prop) : Piecewise (MadeOf P) :=
  ⟨.nil, MadeOf.append⟩

/-- The pieces of a string. -/
inductive IsStringPiece (quote : Char) : List Char → Prop
  | char {c : Char} (hc : c ∉ [quote, '\\']) : IsStringPiece quote [c]
  | escape (c : Char) : IsStringPiece quote ['\\', c]

theorem madeOf_letters {quote : Char} (hquote : quote = '"' ∨ quote = '\'') {letters : List Letter}
    (hspelled : areSpelled (isPlainIn quote) (fun _ => true) letters = true) :
    MadeOf (IsStringPiece quote) (textOf letters) := by
  refine (piecewise_madeOf _).letters (fun c => .singleton (.escape c)) ?_ hspelled
  intro c hc
  refine .singleton (.char fun hmem => ?_)
  simp only [List.mem_cons, List.not_mem_nil, or_false] at hmem
  rcases hmem with rfl | rfl <;> rcases hquote with rfl | rfl <;> revert hc <;> decide

/-- Properties of texts at each depth of parentheses, such that a selector has them at
every depth. -/
structure Nested (P : Nat → List Char → Prop) : Prop where
  piecewise : ∀ depth, Piecewise (P depth)
  ordinary : ∀ depth c, isOrdinary c = true → P depth [c]
  escape : ∀ depth c, P depth ['\\', c]
  dot : ∀ depth, P depth ['.']
  colon : ∀ depth, P depth [':']
  condition : ∀ depth (a : Attribute), P depth a.text
  parentheses : ∀ {depth inner}, P (depth + 1) inner → P depth ('(' :: (inner ++ [')']))
  comma : ∀ depth, P (depth + 1) [',']

section Nested

variable {P : Nat → List Char → Prop} (hP : Nested P)

include hP

theorem Nested.function {depth : Nat} {inner : List Char} (hinner : P (depth + 1) inner)
    {words : List String} (hwords : words.all (fun word => word.toList.all Char.isLower) = true)
    (word : Word words) : P depth (':' :: (word.text ++ '(' :: (inner ++ [')']))) :=
  have hpieces := hP.piecewise depth
  hpieces.append (hP.colon depth)
    (hpieces.append (hpieces.word (hP.ordinary depth) hwords word) (hP.parentheses hinner))

mutual

theorem Nested.selector (depth : Nat) (selector : Selector) : P depth selector.text := by
  have hpieces := hP.piecewise depth
  have hordinary := hP.ordinary depth
  have hescape := hP.escape depth
  match selector with
  | .first tag => exact hpieces.tag hordinary hescape tag
  | .next left combinator tag =>
    exact hpieces.append (Nested.selector depth left)
      (hpieces.append (hpieces.combinator hordinary combinator) (hpieces.tag hordinary hescape tag))
  | .withClass head name =>
    exact hpieces.append (Nested.selector depth head)
      (hpieces.append (hP.dot depth) (hpieces.name hordinary hescape name))
  | .withAttribute head condition =>
    exact hpieces.append (Nested.selector depth head) (hP.condition depth condition)
  | .withNegation head word list =>
    exact hpieces.append (Nested.selector depth head)
      (hP.function (Nested.alternatives (hP.comma depth) list) (by decide) word)
  | .withAny head word list =>
    exact hpieces.append (Nested.selector depth head)
      (hP.function (Nested.alternatives (hP.comma depth) list) (by decide) word)

/-- A list is read like one selector where commas are. -/
theorem Nested.alternatives {depth : Nat} (hcomma : P depth [',']) (list : Alternatives) :
    P depth list.text := by
  have hpieces := hP.piecewise depth
  have hgap := hpieces.gap (hP.ordinary depth)
  match list with
  | .last before selector behind =>
    exact hpieces.append (hgap before)
      (hpieces.append (Nested.selector depth selector) (hgap behind))
  | .more before selector behind others =>
    exact hpieces.append (hgap before)
      (hpieces.append (Nested.selector depth selector)
        (hpieces.append (hgap behind)
          (hpieces.append hcomma (Nested.alternatives hcomma others))))

end

end Nested

/-! ## Parts that change nothing -/

theorem shade_cons (s : Nesting) (c : Char) (rest : List Char) :
    shade true s (c :: rest) =
      (c, (s.step true c rest).1) :: shade true (s.step true c rest).2 rest := rfl

/-- What a reading is inside of behind a text. -/
def endOf (negations : Bool) : Nesting → List Char → Nesting
  | s, [] => s
  | s, c :: rest => endOf negations (s.step negations c rest).2 rest

variable {negations hidden : Bool} {t : Nesting}

/-- A text that leads a reading from one place to another, whatever follows, and that
is hidden or not. -/
structure Leads (negations : Bool) (s : Nesting) (text : List Char) (hidden : Bool) (t : Nesting) :
    Prop where
  shade : ∀ rest, shade negations s (text ++ rest) =
    text.map (·, hidden) ++ shade negations t rest
  endOf : ∀ rest, endOf negations s (text ++ rest) = endOf negations t rest

theorem Leads.append {between : Nesting} (htext : Leads negations s text hidden between)
    (hrest : Leads negations between rest hidden t) :
    Leads negations s (text ++ rest) hidden t := by
  constructor
  · intro more
    rw [List.append_assoc, htext.shade, hrest.shade, List.map_append, List.append_assoc]
  · intro more
    rw [List.append_assoc, htext.endOf, hrest.endOf]

theorem piecewise_leads (negations : Bool) (s : Nesting) (hidden : Bool) :
    Piecewise fun text => Leads negations s text hidden s :=
  ⟨⟨fun _ => rfl, fun _ => rfl⟩, Leads.append⟩

theorem leads_char (hstep : ∀ rest, s.step negations c rest = (hidden, t)) :
    Leads negations s [c] hidden t := by
  constructor
  · intro rest
    simp only [List.singleton_append, Selector.shade, hstep, List.map_cons, List.map_nil]
  · intro rest
    rw [List.singleton_append, Css.endOf, hstep]

theorem leads_escape (hliteral : s.literal = 0) (c : Char) :
    Leads negations s ['\\', c] s.hides s := by
  have hsame : ({ s with literal := 0 } : Nesting) = s := by rw [← hliteral]
  have hbackslash : Leads negations s ['\\'] s.hides { s with literal := 1 } :=
    leads_char fun rest => by simp [Nesting.step, hliteral]
  have hescaped : Leads negations { s with literal := 1 } [c] s.hides s :=
    leads_char fun rest => by simpa [Nesting.step, Nesting.hides] using hsame
  exact hbackslash.append hescaped

/-- A reading that is not inside of a string or an escape. -/
def AtRest (s : Nesting) : Prop :=
  s.literal = 0 ∧ s.quote = none

/-- A string is hidden, and behind it the reading is where it was before it. -/
theorem leads_quoted (hs : AtRest s) {quote : Char} (hquote : quote = '"' ∨ quote = '\'')
    (hcontent : MadeOf (IsStringPiece quote) text) :
    Leads negations s (quote :: (text ++ [quote])) true s := by
  have hopen : Leads negations s [quote] true { s with quote := some quote } := by
    refine leads_char fun rest => ?_
    rcases hquote with rfl | rfl <;> simp [Nesting.step, hs.1, hs.2]
  have hclose : Leads negations { s with quote := some quote } [quote] true s := by
    refine leads_char fun rest => ?_
    have hsame : ({ s with quote := none } : Nesting) = s := by rw [← hs.2]
    rcases hquote with rfl | rfl <;> simpa [Nesting.step, hs.1] using hsame
  have hinside : Leads negations { s with quote := some quote } text true
      { s with quote := some quote } := by
    refine hcontent.piecewise (piecewise_leads negations _ true) ?_
    rintro piece (@⟨c, hc⟩ | c)
    · simp only [List.mem_cons, List.not_mem_nil, or_false, not_or] at hc
      exact leads_char fun rest => by simp [Nesting.step, hs.1, hc]
    · have hhides : Nesting.hides { s with quote := some quote } = true := by simp [Nesting.hides]
      rw [← hhides]
      exact leads_escape (s := { s with quote := some quote }) hs.1 c
  exact hopen.append (hinside.append hclose)

/-- A text that leaves the reading where it is. -/
def Inert (s : Nesting) (text : List Char) : Prop :=
  ∀ rest, shade true s (text ++ rest) = text.map (·, s.hides) ++ shade true s rest

theorem piecewise_inert (s : Nesting) : Piecewise (Inert s) where
  nil := fun _ => rfl
  append := by
    intro text others htext hothers rest
    rw [List.append_assoc, htext, hothers, List.map_append, List.append_assoc]

theorem AtRest.inert (hs : AtRest s) (c : Char) (hc : isOrdinary c = true) : Inert s [c] := by
  refine (leads_char fun rest => ?_).shade
  simp only [isOrdinary_iff, marks, List.mem_cons, List.not_mem_nil, or_false, not_or] at hc
  simp [Nesting.step, hs.1, hs.2, hc]

theorem inert_escape (hliteral : s.literal = 0) (c : Char) : Inert s ['\\', c] :=
  (leads_escape hliteral c).shade

theorem AtRest.inert_name (hs : AtRest s) (name : Name) : Inert s name.text :=
  (piecewise_inert s).name hs.inert (inert_escape hs.1) name

theorem AtRest.inert_gap (hs : AtRest s) (gap : Gap) : Inert s gap.text :=
  (piecewise_inert s).gap hs.inert gap

theorem AtRest.inert_tag (hs : AtRest s) (tag : Tag) : Inert s tag.text :=
  (piecewise_inert s).tag hs.inert (inert_escape hs.1) tag

/-! ## Conditions -/

/-- Outside of everything but a number of parentheses in a negation. -/
def outside (negations : Nat) : Nesting :=
  { negations }

theorem atRest_outside (negations : Nat) : AtRest (outside negations) := ⟨rfl, rfl⟩

theorem hides_outside (negations : Nat) : (outside negations).hides = decide (0 < negations) := by
  simp [outside, Nesting.hides]

/-- Inside of the brackets of a condition. -/
def inBrackets (negations : Nat) : Nesting :=
  { negations, brackets := 1 }

theorem atRest_inBrackets (negations : Nat) : AtRest (inBrackets negations) := ⟨rfl, rfl⟩

theorem hides_inBrackets (negations : Nat) : (inBrackets negations).hides = true := by
  simp [inBrackets, Nesting.hides]

theorem inert_value (negations : Nat) (value : Value) :
    Inert (inBrackets negations) value.text := by
  have hs := atRest_inBrackets negations
  cases value with
  | bare name => exact hs.inert_name name
  | quoted quote isQuote letters spelled =>
    intro rest
    rw [hides_inBrackets]
    exact (leads_quoted hs isQuote (madeOf_letters isQuote spelled)).shade rest

/-- Behind the bracket that opens it, a condition is hidden. -/
theorem shade_condition (negations : Nat) (a : Attribute) (rest : List Char) :
    shade true (outside negations) (a.text ++ rest) =
      ('[', (outside negations).hides) :: a.body.map (·, true) ++
        shade true (outside negations) rest := by
  have hoperator : ∀ operator : Operator, Inert (inBrackets negations) operator.text := by
    rintro (_ | _ | _ | _ | _ | _) <;> exact fun rest => rfl
  obtain ⟨inner, hbody, hinner⟩ := (piecewise_inert (inBrackets negations)).condition
    (atRest_inBrackets negations).inert hoperator (inert_value negations) a
  have hopen : ∀ behind, shade true (outside negations) ('[' :: behind) =
      ('[', (outside negations).hides) :: shade true (inBrackets negations) behind :=
    fun behind => rfl
  have hclose : shade true (inBrackets negations) (']' :: rest) =
      (']', true) :: shade true (outside negations) rest := rfl
  rw [Attribute.text, hbody, List.cons_append, hopen, List.append_assoc, hinner, hides_inBrackets,
    List.singleton_append, hclose]
  simp

/-! ## Selectors -/

/-- Inside of a negation, all parts of a selector are hidden. -/
theorem nested_inert : Nested fun depth => Inert (outside (depth + 1)) where
  piecewise depth := piecewise_inert _
  ordinary depth := (atRest_outside (depth + 1)).inert
  escape depth := inert_escape rfl
  dot depth := fun rest => rfl
  colon depth := (leads_char fun rest => by simp [Nesting.step, outside, Nesting.hides]).shade
  condition depth a := by
    intro rest
    rw [shade_condition, hides_outside]
    simp [Attribute.text]
  parentheses := by
    intro depth inner hinner rest
    have hopen : ∀ behind, shade true (outside (depth + 1)) ('(' :: behind) =
        ('(', true) :: shade true (outside (depth + 2)) behind := fun behind => rfl
    have hclose : ∀ behind, shade true (outside (depth + 2)) (')' :: behind) =
        (')', true) :: shade true (outside (depth + 1)) behind := fun behind => rfl
    rw [List.cons_append, hopen, List.append_assoc, hinner, List.singleton_append, hclose,
      hides_outside, hides_outside]
    simp
  comma depth := fun rest => rfl

theorem Alternatives.shade_hidden (list : Alternatives) (rest : List Char) :
    shade true (outside 1) (list.text ++ rest) =
      list.text.map (·, true) ++ shade true (outside 1) rest :=
  nested_inert.alternatives (fun _ => rfl : Inert (outside 1) [',']) list rest

mutual

/-- A selector with what is hidden in it. -/
def Selector.shaded : Selector → List (Char × Bool)
  | .first tag => tag.text.map (·, false)
  | .next left combinator tag => left.shaded ++ (combinator.text ++ tag.text).map (·, false)
  | .withClass head name => head.shaded ++ ('.' :: name.text).map (·, false)
  | .withAttribute head condition => head.shaded ++ ('[', false) :: condition.body.map (·, true)
  | .withNegation head word list =>
    head.shaded ++ (':' :: (word.text ++ '(' :: (list.text ++ [')']))).map (·, true)
  | .withAny head word list =>
    head.shaded ++
      ((':' :: (word.text ++ ['('])).map (·, false) ++ (list.shaded ++ [(')', false)]))

def Alternatives.shaded : Alternatives → List (Char × Bool)
  | .last before selector behind =>
    before.text.map (·, false) ++ (selector.shaded ++ behind.text.map (·, false))
  | .more before selector behind others =>
    before.text.map (·, false) ++
      (selector.shaded ++ ((behind.text ++ [',']).map (·, false) ++ others.shaded))

end

theorem exists_of_not (word : Word ["not"]) :
    ∃ n o t, word.text = [n, o, t] ∧ n.toLower = 'n' ∧ o.toLower = 'o' ∧ t.toLower = 't' := by
  have hknown : ['n', 'o', 't'] = word.text.map Char.toLower := by simpa using word.known
  obtain ⟨n, rest, htext, hn, hrest⟩ := List.map_eq_cons_iff.mp hknown.symm
  obtain ⟨o, rest, rfl, ho, hrest⟩ := List.map_eq_cons_iff.mp hrest
  obtain ⟨t, rest, rfl, ht, hrest⟩ := List.map_eq_cons_iff.mp hrest
  obtain rfl := List.map_eq_nil_iff.mp hrest
  exact ⟨n, o, t, htext, hn, ho, ht⟩

/-- A negation is hidden, from its colon on. -/
theorem shade_negation (word : Word ["not"]) (list : Alternatives) (rest : List Char) :
    shade true (outside 0) (':' :: (word.text ++ '(' :: (list.text ++ [')'])) ++ rest) =
      (':' :: (word.text ++ '(' :: (list.text ++ [')']))).map (·, true) ++
        shade true (outside 0) rest := by
  obtain ⟨n, o, t, htext, hn, ho, ht⟩ := exists_of_not word
  have hopen : ∀ behind, shade true (outside 0) (':' :: n :: o :: t :: '(' :: behind) =
      [(':', true), (n, true), (o, true), (t, true), ('(', true)] ++
        shade true (outside 1) behind := by
    intro behind
    have hcontinues : Nesting.continuesNegation (n :: o :: t :: '(' :: behind) = true := by
      simp [Nesting.continuesNegation, hn, ho, ht]
    simp [shade_cons, Nesting.step, outside, Nesting.hides, hcontinues]
  have hclose : ∀ behind, shade true (outside 1) (')' :: behind) =
      (')', true) :: shade true (outside 0) behind := fun behind => rfl
  simp only [htext, List.cons_append, List.append_assoc, List.nil_append, hopen,
    list.shade_hidden, hclose, List.map_cons, List.map_append, List.map_nil]

/-- The parentheses of a function other than a negation can be seen. -/
theorem shade_opening (word : Word ["is", "where"]) (rest : List Char) :
    shade true (outside 0) (':' :: (word.text ++ '(' :: rest)) =
      (':' :: (word.text ++ ['('])).map (·, false) ++ shade true (outside 0) rest := by
  have hword : Inert (outside 0) word.text :=
    (piecewise_inert _).word (atRest_outside 0).inert (by decide) word
  have hcontinues : ∀ behind, Nesting.continuesNegation (word.text ++ behind) = false := by
    intro behind
    have hlower : ['i', 's'] = word.text.map Char.toLower ∨
        ['w', 'h', 'e', 'r', 'e'] = word.text.map Char.toLower := by
      simpa using word.known
    rcases hlower with hlower | hlower <;>
    · obtain ⟨first, others, htext, hfirst, -⟩ := List.map_eq_cons_iff.mp hlower.symm
      simp [Nesting.continuesNegation, htext, hfirst]
  have hcolon : shade true (outside 0) (':' :: (word.text ++ '(' :: rest)) =
      (':', false) :: shade true (outside 0) (word.text ++ '(' :: rest) := by
    simp [shade_cons, Nesting.step, outside, Nesting.hides, hcontinues]
  have hopen : shade true (outside 0) ('(' :: rest) = ('(', false) :: shade true (outside 0) rest :=
    rfl
  rw [hcolon, hword, hopen, hides_outside]
  simp

mutual

/-- Outside of negations, a selector is shaded as it says. -/
theorem Selector.shade_text (rest : List Char) (selector : Selector) :
    shade true (outside 0) (selector.text ++ rest) =
      selector.shaded ++ shade true (outside 0) rest := by
  have hs := atRest_outside 0
  have hhides : (outside 0).hides = false := rfl
  match selector with
  | .first tag => exact hs.inert_tag tag rest
  | .next left combinator tag =>
    rw [Selector.text, List.append_assoc, left.shade_text, List.append_assoc,
      (piecewise_inert _).combinator hs.inert, hs.inert_tag, hhides]
    simp [Selector.shaded]
  | .withClass head name =>
    have hdot : ∀ behind, shade true (outside 0) ('.' :: behind) =
        ('.', false) :: shade true (outside 0) behind := fun behind => rfl
    rw [Selector.text, List.append_assoc, head.shade_text, List.cons_append, hdot,
      hs.inert_name name, hhides]
    simp [Selector.shaded]
  | .withAttribute head condition =>
    rw [Selector.text, List.append_assoc, head.shade_text, shade_condition, hhides]
    simp [Selector.shaded]
  | .withNegation head word list =>
    rw [Selector.text, List.append_assoc, head.shade_text, shade_negation]
    simp [Selector.shaded]
  | .withAny head word list =>
    have hclose : ∀ behind, shade true (outside 0) (')' :: behind) =
        (')', false) :: shade true (outside 0) behind := fun behind => rfl
    simp only [Selector.text, List.append_assoc, List.cons_append, head.shade_text, shade_opening,
      list.shade_text, List.nil_append, hclose, Selector.shaded]

theorem Alternatives.shade_text (rest : List Char) (list : Alternatives) :
    shade true (outside 0) (list.text ++ rest) = list.shaded ++ shade true (outside 0) rest := by
  have hs := atRest_outside 0
  have hhides : (outside 0).hides = false := rfl
  match list with
  | .last before selector behind =>
    simp only [Alternatives.text, List.append_assoc, hs.inert_gap _ _, selector.shade_text, hhides,
      Alternatives.shaded]
  | .more before selector behind others =>
    have hcomma : ∀ more, shade true (outside 0) (',' :: more) =
        (',', false) :: shade true (outside 0) more := fun more => rfl
    simp only [Alternatives.text, List.append_assoc, hs.inert_gap _ _, selector.shade_text, hhides,
      List.cons_append, hcomma, others.shade_text, Alternatives.shaded, List.map_append,
      List.map_cons, List.map_nil, List.nil_append]

end

end Deadwood.Css
