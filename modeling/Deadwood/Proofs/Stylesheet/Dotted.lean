/-
# Classes found behind dots

With what is hidden blanked out, the names behind dots are read off a selector. A
clear name is read to its end, and stands for what it should. What is found in a
clear selector are the classes that it names by dots.
-/

import Deadwood.Proofs.Stylesheet.Matching
import Deadwood.Proofs.Stylesheet.Shading
import Mathlib.Data.List.Basic

namespace Deadwood.Css

open Deadwood.Text
open Deadwood.Selector (isPlain hexDigits escapeLength takeName dottedNames hexValue charOfNumber
  unescape)

variable {c : Char} {text rest : List Char}

/-! ## Reading in steps -/

theorem takeName_eq (escaped : Nat) (text : List Char) :
    takeName escaped text = text.take escaped ++ takeName 0 (text.drop escaped) := by
  induction text generalizing escaped with
  | nil => simp [takeName]
  | cons c text ih =>
    cases escaped with
    | zero => rfl
    | succ escaped => rw [takeName, ih]; rfl

theorem dottedNames_eq (read : Nat) (text : List Char) :
    dottedNames read text = dottedNames 0 (text.drop read) := by
  induction text generalizing read with
  | nil => simp [dottedNames]
  | cons c text ih =>
    cases read with
    | zero => rfl
    | succ read => rw [dottedNames, ih]; rfl

theorem unescape_eq (read : Nat) (text : List Char) :
    unescape read text = unescape 0 (text.drop read) := by
  induction text generalizing read with
  | nil => simp [unescape]
  | cons c text ih =>
    cases read with
    | zero => rfl
    | succ read => rw [unescape, ih]; rfl

/-! ## Numbers -/

theorem toNat_lt_of_isHexDigit (hc : isHexDigit c = true) : c.toNat < 128 := by
  simp only [isHexDigit, Char.isDigit, Bool.or_eq_true, Bool.and_eq_true, decide_eq_true_eq] at hc
  rcases hc with (⟨-, hto⟩ | ⟨-, hto⟩) | ⟨-, hto⟩
  · exact Nat.lt_of_le_of_lt (show c.toNat ≤ 57 from hto) (by decide)
  · exact Nat.lt_of_le_of_lt (show c.toNat ≤ 102 from hto) (by decide)
  · exact Nat.lt_of_le_of_lt (show c.toNat ≤ 70 from hto) (by decide)

/-- What holds of the digits among the characters of ASCII holds of all. -/
theorem of_isHexDigit {test : Char → Bool}
    (htest : (List.range 128).all (fun n =>
      !isHexDigit (Char.ofNat n) || test (Char.ofNat n)) = true)
    (hc : isHexDigit c = true) : test c = true := by
  have hthis := List.all_eq_true.mp htest c.toNat
    (List.mem_range.mpr (toNat_lt_of_isHexDigit hc))
  simpa [Char.ofNat_toNat, hc] using hthis

/-- A digit stands for its place among the sixteen. -/
theorem digit_eq (hc : isHexDigit c = true) :
    (if c.isDigit then c.toNat - '0'.toNat else c.toLower.toNat - 'a'.toNat + 10) =
      "0123456789abcdef".toList.idxOf c.toLower := by
  exact eq_of_beq (@of_isHexDigit c (fun d =>
    (if d.isDigit then d.toNat - '0'.toNat else d.toLower.toNat - 'a'.toNat + 10) ==
      "0123456789abcdef".toList.idxOf d.toLower) (by decide +kernel) hc)

theorem isPlain_of_isHexDigit (hc : isHexDigit c = true) : isPlain c = true :=
  of_isHexDigit (by decide +kernel) hc

theorem hexValue_eq {digits : List Char} (hdigits : ∀ c ∈ digits, isHexDigit c = true) :
    hexValue digits = numberOf digits := by
  rw [numberOf, Nat.ofDigits_eq_foldr, List.map_reverse, List.foldr_reverse, List.foldl_map, hexValue]
  apply List.foldl_ext
  intro value c hc
  rw [digit_eq (hdigits c hc), Nat.add_comm, Nat.mul_comm]
  rfl

/-- A number ends where no further digit follows, or with six digits. -/
theorem hexDigits_append {digits : List Char} (hlength : digits.length ≤ 6)
    (hdigits : ∀ c ∈ digits, isHexDigit c = true)
    (hrest : digits.length = 6 ∨ rest.head?.any isHexDigit = false) :
    hexDigits (digits ++ rest) = digits := by
  rw [hexDigits, List.take_append, List.take_of_length_le hlength,
    List.takeWhile_append_of_pos hdigits]
  rcases hrest with hsix | hrest
  · simp [hsix]
  · cases rest with
    | nil => simp
    | cons c rest =>
      rw [List.head?_cons, Option.any_some] at hrest
      cases hcount : 6 - digits.length with
      | zero => simp
      | succ count => simp [hrest]

theorem escapeLength_append {digits : List Char} (hpos : 0 < digits.length)
    (hread : hexDigits (digits ++ rest) = digits) :
    escapeLength (digits ++ rest) =
      if rest.head?.any isBlank then digits.length + 1 else digits.length := by
  rw [escapeLength, hread]
  simp [hpos]

/-- What an escape by number takes along behind its digits. -/
def takenBlank (text : List Char) : List Char :=
  if text.head?.any isBlank then text.take 1 else []

def behindBlank (text : List Char) : List Char :=
  if text.head?.any isBlank then text.drop 1 else text

theorem length_behindBlank_le (text : List Char) : (behindBlank text).length ≤ text.length := by
  rw [behindBlank]
  split <;> simp

theorem takeName_number {digits : List Char} (hpos : 0 < digits.length)
    (hread : hexDigits (digits ++ rest) = digits) :
    takeName 0 ('\\' :: (digits ++ rest)) =
      '\\' :: (digits ++ (takenBlank rest ++ takeName 0 (behindBlank rest))) := by
  have hlength := escapeLength_append hpos hread
  have hescape : 0 < escapeLength (digits ++ rest) := by
    rw [hlength]
    split <;> omega
  rw [takeName, if_neg (by decide), if_pos ⟨rfl, hescape⟩, takeName_eq, hlength, takenBlank,
    behindBlank]
  split
  · rw [List.take_length_add_append, List.drop_length_add_append, List.append_assoc]
  · rw [List.take_left, List.drop_left, List.nil_append]

theorem unescape_number {digits : List Char} (hpos : 0 < digits.length)
    (hread : hexDigits (digits ++ rest) = digits) :
    unescape 0 ('\\' :: (digits ++ rest)) =
      charOfNumber (hexValue digits) :: unescape 0 (behindBlank rest) := by
  have hlength := escapeLength_append hpos hread
  have hempty : digits.isEmpty = false := by
    rw [List.isEmpty_eq_false_iff]
    exact List.ne_nil_of_length_pos hpos
  rw [unescape, if_neg (by simp)]
  simp only [hread, hempty]
  rw [if_neg (by simp), unescape_eq, hlength, behindBlank]
  split
  · rw [List.drop_length_add_append]
  · rw [List.drop_left]

/-! ## Names -/

/-- A text that does not go on with a name. -/
def Stops (text : List Char) : Prop :=
  ∀ c ∈ text.head?, isPlain c = false ∧ c ≠ '\\'

theorem Stops.takeName (hstops : Stops rest) : takeName 0 rest = [] := by
  cases rest with
  | nil => rfl
  | cons c rest =>
    obtain ⟨hplain, hbackslash⟩ := hstops c rfl
    simp [Selector.takeName, hplain, hbackslash]

theorem Stops.not_isHexDigit (hstops : Stops rest) : rest.head?.any isHexDigit = false := by
  cases rest with
  | nil => rfl
  | cons c rest =>
    rw [List.head?_cons, Option.any_some, ← Bool.not_eq_true]
    intro hhex
    have hplain := (hstops c rfl).1
    rw [isPlain_of_isHexDigit hhex] at hplain
    exact Bool.false_ne_true hplain.symm

/-- A text that does not go on with a name, even behind a blank if that belongs to
the name. -/
def StopsBehind (isOpen : Bool) (text : List Char) : Prop :=
  Stops text ∧ (isOpen = true → Stops (behindBlank text))

/-- Letters before a text are read up to their end, and stand for what they should. A
blank may be taken along. -/
def ReadsAs (letters : List Letter) (rest : List Char) : Prop :=
  ∃ extra behind, rest = extra ++ behind ∧ (∀ c ∈ extra, isBlank c = true) ∧
    takeName 0 (textOf letters ++ rest) = textOf letters ++ extra ∧
    unescape 0 (textOf letters ++ extra) = valueOf letters

variable {letters : List Letter}

theorem ReadsAs.plain (hreads : ReadsAs letters rest) (hc : isPlain c = true) :
    ReadsAs (.plain c :: letters) rest := by
  obtain ⟨extra, behind, hrest, hblank, htaken, hvalue⟩ := hreads
  have hbackslash : c ≠ '\\' := by
    rintro rfl
    exact absurd hc (by decide)
  refine ⟨extra, behind, hrest, hblank, ?_, ?_⟩
  · simp [Letter.text, takeName, hc, htaken]
  · simp [Letter.text, Letter.value, unescape, hbackslash, hvalue]

theorem ReadsAs.escaped (hreads : ReadsAs letters rest) (hhex : isHexDigit c = false)
    (hend : isLineEnd c = false) : ReadsAs (.escaped c :: letters) rest := by
  obtain ⟨extra, behind, hrest, hblank, htaken, hvalue⟩ := hreads
  have hline : c ≠ '\n' := by
    rintro rfl
    exact absurd hend (by decide)
  have hdigits : ∀ behind, hexDigits (c :: behind) = [] := by
    intro behind
    simp [hexDigits, hhex]
  have hlength : ∀ behind, escapeLength (c :: behind) = 1 := by
    intro behind
    simp [escapeLength, hdigits, hline]
  refine ⟨extra, behind, hrest, hblank, ?_, ?_⟩
  · rw [textOf_cons, Letter.text]
    simp only [List.cons_append, List.nil_append]
    rw [takeName, if_neg (by decide), if_pos ⟨rfl, by rw [hlength]; decide⟩, hlength, takeName,
      htaken]
  · rw [textOf_cons, Letter.text]
    simp only [List.cons_append, List.nil_append]
    rw [unescape, if_neg (by simp)]
    simp only [hdigits, List.isEmpty_nil, if_true, List.head?_cons, Option.toList_some]
    rw [unescape, hvalue, valueOf_cons, Letter.value, hend]
    rfl

/-- A number stands for its character. -/
theorem charOfNumber_eq {digits : List Char} (hdigits : ∀ c ∈ digits, isHexDigit c = true)
    (hzero : numberOf digits ≠ 0) (blank : Option Char) :
    [charOfNumber (hexValue digits)] = (Letter.number digits blank).value := by
  rw [charOfNumber, hexValue_eq hdigits, Letter.value]
  split
  · rename_i hvalid
    simp [hzero, hvalid]
  · rename_i hvalid
    simp [hvalid]

/-- A number is read in front of what is read, if neither its digits nor the blank that ends
it go on there. -/
theorem ReadsAs.number (hreads : ReadsAs letters rest) {digits : List Char} {blank : Option Char}
    (hpos : 0 < digits.length) (hdigits : ∀ c ∈ digits, isHexDigit c = true)
    (hzero : numberOf digits ≠ 0)
    (hread : ∀ more, hexDigits (digits ++ (blank.toList ++ (textOf letters ++ more))) = digits)
    (htakes : ∀ more, takenBlank (blank.toList ++ (textOf letters ++ more)) = blank.toList)
    (hbehind : ∀ more, behindBlank (blank.toList ++ (textOf letters ++ more)) =
      textOf letters ++ more) : ReadsAs (.number digits blank :: letters) rest := by
  obtain ⟨extra, behind, hrest, hextra, htaken, hvalue⟩ := hreads
  refine ⟨extra, behind, hrest, hextra, ?_, ?_⟩
  · simp only [textOf_cons, Letter.text, List.cons_append, List.append_assoc,
      takeName_number hpos (hread _), htakes, hbehind, htaken]
  · simp only [textOf_cons, Letter.text, List.cons_append, List.append_assoc, List.nil_append,
      unescape_number hpos (hread _), hbehind, hvalue, valueOf_cons,
      ← charOfNumber_eq hdigits hzero blank]

theorem ReadsAs.closedNumber (hreads : ReadsAs letters rest) {digits : List Char} {blank : Char}
    (hpos : 0 < digits.length) (hmost : digits.length ≤ 6)
    (hdigits : ∀ c ∈ digits, isHexDigit c = true) (hzero : numberOf digits ≠ 0)
    (hblank : isBlank blank = true) (hhex : isHexDigit blank = false) :
    ReadsAs (.number digits (some blank) :: letters) rest := by
  refine hreads.number hpos hdigits hzero (fun more => ?_) (fun more => ?_) fun more => ?_
  · exact hexDigits_append hmost hdigits (.inr (by simpa using hhex))
  · simp [takenBlank, hblank]
  · simp [behindBlank, hblank]

theorem ReadsAs.openNumber (hreads : ReadsAs letters rest) {digits : List Char}
    (hpos : 0 < digits.length) (hmost : digits.length ≤ 6)
    (hdigits : ∀ c ∈ digits, isHexDigit c = true) (hzero : numberOf digits ≠ 0)
    (hne : textOf letters ≠ []) (hblank : (textOf letters).head?.any isBlank = false)
    (hhex : digits.length = 6 ∨ (textOf letters).head?.any isHexDigit = false) :
    ReadsAs (.number digits none :: letters) rest := by
  have hhead : ∀ more, (textOf letters ++ more).head? = (textOf letters).head? := fun more => by
    cases htext : textOf letters with
    | nil => exact absurd htext hne
    | cons c text => rfl
  refine hreads.number hpos hdigits hzero (fun more => ?_) (fun more => ?_) fun more => ?_
  · exact hexDigits_append hmost hdigits (by rwa [Option.toList_none, List.nil_append, hhead])
  · simp [takenBlank, hhead, hblank]
  · simp [behindBlank, hhead, hblank]

theorem takenBlank_append_behindBlank (text : List Char) :
    takenBlank text ++ behindBlank text = text := by
  rw [takenBlank, behindBlank]
  split
  · exact List.take_append_drop 1 text
  · rfl

theorem head?_takenBlank {test : Char → Bool} (htext : text.head?.any test = false) :
    (takenBlank text).head?.any test = false := by
  rw [takenBlank]
  split
  · cases text with
    | nil => rfl
    | cons c text => simpa using htext
  · rfl

theorem isBlank_of_mem_takenBlank (hc : c ∈ takenBlank text) : isBlank c = true := by
  cases text with
  | nil => simp [takenBlank] at hc
  | cons d text =>
    cases hblank : isBlank d with
    | true =>
      simp [takenBlank, hblank] at hc
      rwa [hc]
    | false => simp [takenBlank, hblank] at hc

theorem behindBlank_takenBlank (text : List Char) : behindBlank (takenBlank text) = [] := by
  cases text with
  | nil => rfl
  | cons d text => cases hblank : isBlank d <;> simp [takenBlank, behindBlank, hblank]

theorem readsAs_lastNumber {digits : List Char} (hstops : StopsBehind true rest)
    (hpos : 0 < digits.length) (hmost : digits.length ≤ 6)
    (hdigits : ∀ c ∈ digits, isHexDigit c = true) (hzero : numberOf digits ≠ 0) :
    ReadsAs [.number digits none] rest := by
  have hread : hexDigits (digits ++ rest) = digits :=
    hexDigits_append hmost hdigits (.inr hstops.1.not_isHexDigit)
  have hreadTaken : hexDigits (digits ++ takenBlank rest) = digits :=
    hexDigits_append hmost hdigits (.inr (head?_takenBlank hstops.1.not_isHexDigit))
  have htext : textOf [.number digits none] = '\\' :: digits := by simp [Letter.text]
  refine ⟨takenBlank rest, behindBlank rest, (takenBlank_append_behindBlank rest).symm,
    fun c => isBlank_of_mem_takenBlank, ?_, ?_⟩
  · rw [htext, List.cons_append, takeName_number hpos hread, (hstops.2 rfl).takeName,
      List.append_nil, List.cons_append]
  · rw [htext, List.cons_append, unescape_number hpos hreadTaken, behindBlank_takenBlank,
      valueOf_cons, ← charOfNumber_eq hdigits hzero none]
    rfl

/-- A clear name is read up to its end. -/
theorem readsAs_of_isClear (hspelled : areSpelled isPlain (!isLineEnd ·) letters = true)
    (hclear : areClear letters = true) (hstops : StopsBehind (endOpen letters) rest) :
    ReadsAs letters rest := by
  induction letters with
  | nil => exact ⟨[], rest, rfl, by simp, hstops.1.takeName, rfl⟩
  | cons letter letters ih =>
    simp only [areSpelled, Bool.and_eq_true, Bool.or_eq_true] at hspelled
    simp only [areClear, Bool.and_eq_true] at hclear
    obtain ⟨⟨hvalid, hends⟩, hspelled⟩ := hspelled
    have hopen : letters ≠ [] → endOpen (letter :: letters) = endOpen letters := by
      intro hne
      rw [endOpen, endOpen, List.getLast?_cons_of_ne_nil hne]
    have hreads : ReadsAs letters rest := by
      apply ih hspelled hclear.2
      refine ⟨hstops.1, fun hopened => hstops.2 ?_⟩
      by_cases hne : letters = []
      · simp [hne, endOpen] at hopened
      · rwa [hopen hne]
    cases letter with
    | plain c => exact hreads.plain hvalid
    | escaped c =>
      simp only [Letter.isValid, Bool.and_eq_true, Bool.not_eq_true'] at hvalid
      exact hreads.escaped hvalid.1 hvalid.2
    | number digits blank =>
      simp only [Letter.isValid, Bool.and_eq_true, decide_eq_true_eq, List.all_eq_true] at hvalid
      obtain ⟨⟨⟨hpos, hmost⟩, hdigits⟩, hblank⟩ := hvalid
      simp only [Letter.isClear, Bool.and_eq_true, bne_iff_ne, Bool.or_eq_true] at hclear
      cases blank with
      | some blank =>
        rw [Option.all_some] at hblank
        have hhex : isHexDigit blank = false := by
          rw [← Bool.not_eq_true]
          intro hhex
          rw [not_isAsciiBlank_of_isPlain (isPlain_of_isHexDigit hhex)] at hblank
          exact Bool.false_ne_true hblank
        exact hreads.closedNumber hpos hmost hdigits hclear.1.1 (isBlank_of_isAsciiBlank hblank) hhex
      | none =>
        by_cases hne : letters = []
        · subst hne
          exact readsAs_lastNumber hstops hpos hmost hdigits hclear.1.1
        · have hfollow : (textOf letters).head?.any isBlank = false := by simpa using hclear.1.2
          have hhex : digits.length = 6 ∨ (textOf letters).head?.any isHexDigit = false := by
            simp only [List.isEmpty_iff, hne, false_or, Letter.endsBefore, Bool.and_eq_true,
              Bool.or_eq_true, beq_iff_eq, Bool.not_eq_true'] at hends
            exact hends.2
          exact hreads.openNumber hpos hmost hdigits hclear.1.1 (textOf_ne_nil hne) hfollow hhex

/-! ## Selectors -/

/-- A shaded text with blanks for what is hidden. -/
def maskOf (shaded : List (Char × Bool)) : List Char :=
  shaded.flatMap fun entry => if entry.2 then List.replicate entry.1.utf8Size ' ' else [entry.1]

theorem maskOf_append (shaded others : List (Char × Bool)) :
    maskOf (shaded ++ others) = maskOf shaded ++ maskOf others :=
  List.flatMap_append

theorem maskOf_visible (text : List Char) : maskOf (text.map (·, false)) = text := by
  simp [maskOf, List.flatMap_map]

theorem mem_maskOf_hidden (hc : c ∈ maskOf (text.map (·, true))) : c = ' ' := by
  simp only [maskOf, List.mem_flatMap, List.mem_map] at hc
  obtain ⟨-, ⟨d, -, rfl⟩, hc⟩ := hc
  exact List.eq_of_mem_replicate (by simpa using hc)

/-- The classes found behind dots. -/
def dottedClasses (text : List Char) : List (List Char) :=
  (dottedNames 0 text).map (unescape 0)

theorem dottedClasses_append (htext : '.' ∉ text) (rest : List Char) :
    dottedClasses (text ++ rest) = dottedClasses rest := by
  induction text with
  | nil => rfl
  | cons c text ih =>
    rw [List.mem_cons, not_or] at htext
    have hstep : dottedClasses (c :: (text ++ rest)) = dottedClasses (text ++ rest) := by
      rw [dottedClasses, dottedNames, if_neg (Ne.symm htext.1)]
      rfl
    rw [List.cons_append, hstep, ih htext.2]

theorem dottedClasses_of_ordinary (htext : ∀ c ∈ text, isOrdinary c = true) (rest : List Char) :
    dottedClasses (text ++ rest) = dottedClasses rest := by
  apply dottedClasses_append
  intro hmem
  exact absurd (htext '.' hmem) (by decide)

theorem dottedClasses_hidden (text rest : List Char) :
    dottedClasses (maskOf (text.map (·, true)) ++ rest) = dottedClasses rest := by
  apply dottedClasses_append
  intro hmem
  exact absurd (mem_maskOf_hidden hmem) (by decide)

/-- A clear class is found, and what comes behind it is found as well. -/
theorem dottedClasses_name {name : Name} (hclear : name.isClear = true)
    (hstops : StopsBehind (endOpen name.letters) rest) :
    dottedClasses ('.' :: (name.text ++ rest)) = name.value :: dottedClasses rest := by
  obtain ⟨extra, behind, rfl, hblank, htaken, hvalue⟩ :=
    readsAs_of_isClear name.spelled hclear hstops
  have hextra : '.' ∉ extra := by
    intro hmem
    exact absurd (hblank '.' hmem) (by decide)
  have hne : (name.text ++ extra).isEmpty = false := by
    simp [Name.text, textOf_ne_nil name.nonempty]
  have htaken : takeName 0 (name.text ++ (extra ++ behind)) = name.text ++ extra := htaken
  rw [dottedClasses, dottedNames, if_pos rfl]
  simp only [htaken, hne]
  rw [if_neg (by simp), List.map_cons, show unescape 0 (name.text ++ extra) = name.value from hvalue,
    dottedNames_eq, ← List.append_assoc, List.drop_left]
  exact congrArg _ (dottedClasses_append hextra behind).symm

/-- The marks that may stand behind a name. -/
def isDelimiter (c : Char) : Bool :=
  ['.', '[', ':', ')', ',', '>', '+', '~'].contains c

theorem stopsBehind_delimiter {isOpen : Bool} (hc : isDelimiter c = true) (rest : List Char) :
    StopsBehind isOpen (c :: rest) := by
  have hall : ['.', '[', ':', ')', ',', '>', '+', '~'].all (fun d =>
      !isPlain d && d != '\\' && !isBlank d) = true := by decide
  have hmark := List.all_eq_true.mp hall c (List.contains_iff_mem.mp hc)
  simp only [Bool.and_eq_true, Bool.not_eq_true', bne_iff_ne] at hmark
  have hstops : Stops (c :: rest) := by
    rintro d hd
    obtain rfl := Option.some.inj hd
    exact hmark.1
  refine ⟨hstops, fun _ => ?_⟩
  rwa [behindBlank, List.head?_cons, Option.any_some, hmark.2, if_neg Bool.false_ne_true]

theorem stops_of_isAsciiBlank (hc : isAsciiBlank c = true) (rest : List Char) :
    Stops (c :: rest) := by
  rintro d hd
  obtain rfl := Option.some.inj hd
  constructor
  · rw [← Bool.not_eq_true]
    intro hplain
    rw [not_isAsciiBlank_of_isPlain hplain] at hc
    exact Bool.false_ne_true hc
  · rintro rfl
    exact absurd hc (by decide)

theorem stops_gap (gap : Gap) (hstops : Stops rest) : Stops (gap.text ++ rest) := by
  cases htext : gap.text with
  | nil => exact hstops
  | cons c text =>
    exact stops_of_isAsciiBlank (List.all_eq_true.mp gap.blank c (by simp [htext])) _

/-- Behind a name that would take a blank along, there is no gap. -/
theorem stopsBehind_gap {isOpen : Bool} {gap : Gap}
    (hgap : (!(isOpen && !gap.text.isEmpty)) = true) (hstops : StopsBehind true rest) :
    StopsBehind isOpen (gap.text ++ rest) := by
  cases isOpen with
  | false => exact ⟨stops_gap gap hstops.1, by simp⟩
  | true =>
    have hempty : gap.text = [] := by simpa using hgap
    rwa [hempty, List.nil_append]

theorem stopsBehind_combinator {isOpen : Bool} {combinator : Combinator}
    (hblank : (!(isOpen && combinator.text.head?.any isAsciiBlank)) = true) (rest : List Char) :
    StopsBehind isOpen (combinator.text ++ rest) := by
  have hsymbol : ∀ (before behind : Gap) (symbol : Char), isDelimiter symbol = true →
      (!(isOpen && (before.text ++ symbol :: behind.text).head?.any isAsciiBlank)) = true →
        StopsBehind isOpen (before.text ++ symbol :: behind.text ++ rest) := by
    intro before behind symbol hsymbol hhead
    rw [List.append_assoc]
    refine stopsBehind_gap ?_ (stopsBehind_delimiter hsymbol _)
    cases htext : before.text with
    | nil => simp
    | cons c text =>
      have hc := List.all_eq_true.mp before.blank c (by simp [htext])
      simpa [htext, hc] using hhead
  cases combinator with
  | descendant gap apart =>
    obtain ⟨c, text, htext⟩ := List.exists_cons_of_ne_nil apart
    have hc := List.all_eq_true.mp gap.blank c (by simp [htext])
    have hclosed : isOpen = false := by simpa [Combinator.text, htext, hc] using hblank
    refine ⟨?_, by simp [hclosed]⟩
    rw [Combinator.text, htext]
    exact stops_of_isAsciiBlank hc _
  | child before behind => exact hsymbol before behind '>' (by decide) hblank
  | nextSibling before behind => exact hsymbol before behind '+' (by decide) hblank
  | laterSibling before behind => exact hsymbol before behind '~' (by decide) hblank

theorem Tag.dot_not_mem {tag : Tag} (hclear : tag.isClear = true) : '.' ∉ tag.text := by
  cases tag with
  | unsaid => simp [Tag.text]
  | star => simp [Tag.text]
  | named name => simpa [Tag.isClear, Tag.text] using hclear

theorem dot_not_mem_opening (word : Word ["is", "where"]) :
    '.' ∉ ':' :: (word.text ++ ['(']) := by
  intro hmem
  rcases List.mem_cons.mp hmem with hmem | hmem
  · exact absurd hmem (by decide)
  · rcases List.mem_append.mp hmem with hmem | hmem
    · exact absurd (word.isOrdinary (by decide) hmem) (by decide)
    · exact absurd (List.mem_singleton.mp hmem) (by decide)

theorem stopsBehind_negation {isOpen : Bool} (word : Word ["not"]) (text rest : List Char) :
    StopsBehind isOpen (maskOf ((':' :: (word.text ++ text)).map (·, true)) ++ rest) := by
  obtain ⟨n, o, t, hword, -⟩ := exists_of_not word
  obtain ⟨more, hmore⟩ : ∃ more, maskOf ((':' :: (word.text ++ text)).map (·, true)) ++ rest =
      ' ' :: ' ' :: more := by
    obtain ⟨size, hsize⟩ := Nat.exists_eq_succ_of_ne_zero (Nat.ne_of_gt n.utf8Size_pos)
    have hcolon : ':'.utf8Size = 1 := rfl
    simp [maskOf, hword, hsize, hcolon, List.replicate_succ]
  rw [hmore]
  exact ⟨stops_of_isAsciiBlank (by decide) _, fun _ => stops_of_isAsciiBlank (by decide) more⟩

mutual

/-- The classes found behind the dots of a clear selector are named by it. -/
theorem Selector.mem_dottedClasses (selector : Selector) (hclear : selector.isClear = true)
    {rest : List Char} (hstops : StopsBehind selector.endsOpen rest) {name : List Char}
    (hname : name ∈ dottedClasses (maskOf selector.shaded ++ rest)) :
    name ∈ selector.named ∨ name ∈ dottedClasses rest := by
  match selector with
  | .first tag =>
    rw [Selector.shaded, maskOf_visible, dottedClasses_append (Tag.dot_not_mem hclear)] at hname
    exact .inr hname
  | .next left combinator tag =>
    simp only [Selector.isClear, Bool.and_eq_true] at hclear
    obtain ⟨⟨hleft, htag⟩, hblank⟩ := hclear
    rw [Selector.shaded, maskOf_append, maskOf_visible, List.append_assoc,
      List.append_assoc] at hname
    refine (left.mem_dottedClasses hleft (stopsBehind_combinator hblank _) hname).imp_right ?_
    intro hname
    rwa [dottedClasses_of_ordinary fun _ => combinator.isOrdinary,
      dottedClasses_append (Tag.dot_not_mem htag)] at hname
  | .withClass head own =>
    simp only [Selector.isClear, Bool.and_eq_true] at hclear
    rw [Selector.shaded, maskOf_append, maskOf_visible, List.append_assoc,
      List.cons_append] at hname
    rcases head.mem_dottedClasses hclear.1 (stopsBehind_delimiter (by decide) _) hname with hname | hname
    · exact .inl (List.mem_append_left _ hname)
    · rw [dottedClasses_name hclear.2 hstops] at hname
      rcases List.mem_cons.mp hname with rfl | hname
      · exact .inl (List.mem_append_right _ (List.mem_singleton_self _))
      · exact .inr hname
  | .withAttribute head condition =>
    simp only [Selector.isClear, Bool.and_eq_true] at hclear
    have hmask : maskOf (('[', false) :: condition.body.map (·, true)) =
        ['['] ++ maskOf (condition.body.map (·, true)) := rfl
    rw [Selector.shaded, maskOf_append, hmask, List.append_assoc, List.append_assoc] at hname
    have hopen : StopsBehind head.endsOpen
        (['['] ++ (maskOf (condition.body.map (·, true)) ++ rest)) :=
      stopsBehind_delimiter (by decide) _
    rcases head.mem_dottedClasses hclear.1 hopen hname with hname | hname
    · exact .inl (List.mem_append_left _ hname)
    · rw [dottedClasses_append (by simp), dottedClasses_hidden] at hname
      exact .inr hname
  | .withNegation head word list =>
    rw [Selector.shaded, maskOf_append, List.append_assoc] at hname
    rcases head.mem_dottedClasses hclear (stopsBehind_negation word _ rest) hname with hname | hname
    · exact .inl hname
    · rw [dottedClasses_hidden] at hname
      exact .inr hname
  | .withAny head word list =>
    simp only [Selector.isClear, Bool.and_eq_true] at hclear
    have hclosing : maskOf [(')', false)] = [')'] := rfl
    rw [Selector.shaded, maskOf_append, maskOf_append, maskOf_append, maskOf_visible, hclosing,
      List.append_assoc, List.append_assoc, List.append_assoc] at hname
    have hcolon : StopsBehind head.endsOpen
        (':' :: (word.text ++ ['(']) ++ (maskOf list.shaded ++ ([')'] ++ rest))) :=
      stopsBehind_delimiter (by decide) _
    have hclose : StopsBehind true ([')'] ++ rest) := stopsBehind_delimiter (by decide) _
    rcases head.mem_dottedClasses hclear.1.1 hcolon hname with hname | hname
    · exact .inl (List.mem_append_left _ hname)
    · rw [dottedClasses_append (dot_not_mem_opening word)] at hname
      rcases list.mem_dottedClasses hclear.1.2 hclose hname with hname | hname
      · exact .inl (List.mem_append_right _ hname)
      · rw [dottedClasses_append (by simp)] at hname
        exact .inr hname

theorem Alternatives.mem_dottedClasses (list : Alternatives) (hclear : list.isClear = true)
    {rest : List Char} (hstops : StopsBehind true rest) {name : List Char}
    (hname : name ∈ dottedClasses (maskOf list.shaded ++ rest)) :
    name ∈ list.named ∨ name ∈ dottedClasses rest := by
  match list with
  | .last before selector behind =>
    simp only [Alternatives.isClear, Bool.and_eq_true] at hclear
    rw [Alternatives.shaded, maskOf_append, maskOf_append, maskOf_visible, maskOf_visible,
      List.append_assoc, List.append_assoc, dottedClasses_of_ordinary fun _ => before.isOrdinary]
      at hname
    refine (selector.mem_dottedClasses hclear.1 (stopsBehind_gap hclear.2 hstops) hname).imp_right ?_
    intro hname
    rwa [dottedClasses_of_ordinary fun _ => behind.isOrdinary] at hname
  | .more before selector behind others =>
    simp only [Alternatives.isClear, Bool.and_eq_true] at hclear
    rw [Alternatives.shaded, maskOf_append, maskOf_append, maskOf_append, maskOf_visible,
      maskOf_visible, List.append_assoc, List.append_assoc, List.append_assoc, List.append_assoc,
      dottedClasses_of_ordinary fun _ => before.isOrdinary] at hname
    have hcomma : StopsBehind true ([','] ++ (maskOf others.shaded ++ rest)) :=
      stopsBehind_delimiter (by decide) _
    rcases selector.mem_dottedClasses hclear.1.1 (stopsBehind_gap hclear.1.2 hcomma) hname with
      hname | hname
    · exact .inl (List.mem_append_left _ hname)
    · rw [dottedClasses_of_ordinary fun _ => behind.isOrdinary,
        dottedClasses_append (by simp)] at hname
      refine (others.mem_dottedClasses hclear.2 hstops hname).imp_left ?_
      exact List.mem_append_right _

end

end Deadwood.Css
