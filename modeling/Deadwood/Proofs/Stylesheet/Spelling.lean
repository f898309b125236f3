/-
# Ways of writing a class

Every character of a class can be written by its number, most of them behind a
backslash, and some as themselves. Three readings of a selector say on their own how
far an escape goes: what hides other text, what a name is made of, and what the name
stands for. They agree on every way of writing a name, so that the one class found
behind its dot is the one that was written.
-/

import Deadwood.Proofs.Stylesheet.Trimming

namespace Deadwood.Css

open Deadwood.Text (isHexDigit)
open Deadwood.Selector (charOfNumber classAttribute? definedClasses hexDigits hexValue isPlain
  requiredClasses shade takeName unescape)

variable {c : Char} {letter : Letter} {letters : List Letter} {name rest : List Char}

/-- The letters that a character of a class can be written with. A number has one space
behind it. -/
inductive Letter.Writes : Letter → Char → Prop
  | plain {c : Char} (hc : c.isAlphanum = true ∨ c = '_' ∨ c = '-' ∨ 0x7F < c.toNat) :
      Writes (.plain c) c
  | escaped {c : Char} (hhex : isHexDigit c = false) (hline : c ≠ '\n') : Writes (.escaped c) c
  | number {digits : List Char} {c : Char} (hpos : 0 < digits.length) (hmost : digits.length ≤ 6)
      (hdigits : ∀ digit ∈ digits, isHexDigit digit = true) (hnumber : numberOf digits = c.toNat) :
      Writes (.number digits (some ' ')) c

namespace Letter.Writes

/-! ## One letter -/

theorem isValid (hwrites : letter.Writes c) : letter.isValid isPlain (· != '\n') = true := by
  cases hwrites with
  | plain hc => simpa [Letter.isValid, isPlain, or_assoc] using hc
  | escaped hhex hline => simp [Letter.isValid, hhex, hline]
  | number hpos hmost hdigits _ =>
    simp only [Letter.isValid, Bool.and_eq_true, decide_eq_true_eq, List.all_eq_true]
    exact ⟨⟨⟨hpos, hmost⟩, hdigits⟩, rfl⟩

theorem endsBefore (hwrites : letter.Writes c) (behind : List Char) :
    letter.endsBefore behind = true := by
  cases hwrites <;> rfl

/-- A number ends with its space. -/
private theorem hexDigits_space {digits : List Char} (hmost : digits.length ≤ 6)
    (hdigits : ∀ digit ∈ digits, isHexDigit digit = true) (rest : List Char) :
    hexDigits (digits ++ ' ' :: rest) = digits :=
  hexDigits_append hmost hdigits (.inr (show isHexDigit ' ' = false by decide))

/-- A name goes on behind a letter, whatever follows. -/
theorem takeName (hwrites : letter.Writes c) (rest : List Char) :
    Selector.takeName 0 (letter.text ++ rest) = letter.text ++ Selector.takeName 0 rest := by
  have hvalid := hwrites.isValid
  cases hwrites with
  | plain _ =>
    have hplain : isPlain c = true := hvalid
    rw [Letter.text, List.singleton_append, Selector.takeName, if_pos hplain]
    rfl
  | escaped hhex hline =>
    have htaken := takeName_escape hhex rest
    rwa [if_neg hline] at htaken
  | number hpos hmost hdigits _ =>
    simp only [Letter.text, Option.toList_some, List.cons_append, List.append_assoc,
      List.nil_append, takeName_number hpos (hexDigits_space hmost hdigits rest)]
    rfl

/-- A letter stands for the character that it writes, whatever follows. -/
theorem unescape (hwrites : letter.Writes c) (rest : List Char) :
    Selector.unescape 0 (letter.text ++ rest) = c :: Selector.unescape 0 rest := by
  have hvalid := hwrites.isValid
  cases hwrites with
  | plain _ =>
    have hbackslash : c ≠ '\\' := by
      rintro rfl
      exact absurd hvalid (by decide)
    rw [Letter.text, List.singleton_append, Selector.unescape, if_pos hbackslash]
  | escaped hhex _ => exact unescape_escape hhex rest
  | number hpos hmost hdigits hnumber =>
    have hchar : charOfNumber c.toNat = c := by
      rw [charOfNumber, if_pos (show c.toNat.isValidChar from c.valid), Char.ofNat_toNat]
    simp only [Letter.text, Option.toList_some, List.cons_append, List.append_assoc,
      List.nil_append, unescape_number hpos (hexDigits_space hmost hdigits rest),
      hexValue_eq hdigits, hnumber, hchar]
    rfl

/-- A letter has a bracket only where it escapes it. -/
theorem eq_nil_of_bracket (hwrites : letter.Writes c) {front behind : List Char}
    (hsplit : letter.text = front ++ '[' :: behind) : behind = [] := by
  have hvalid := hwrites.isValid
  have hmem : '[' ∈ letter.text := by simp [hsplit]
  cases hwrites with
  | escaped _ _ => exact eq_nil_of_escape hsplit
  | plain _ =>
    obtain rfl := List.mem_singleton.mp hmem
    exact absurd hvalid (by decide)
  | number _ _ hdigits _ =>
    rcases List.mem_append.mp (List.mem_of_ne_of_mem (by decide) hmem) with hmem | hmem
    · exact absurd (hdigits '[' hmem) (by decide)
    · exact absurd (List.mem_singleton.mp hmem) (by decide)

end Letter.Writes

/-! ## All letters of a class -/

section

variable (hwrites : List.Forall₂ Letter.Writes letters name)

include hwrites

theorem areSpelled_of_writes : areSpelled isPlain (· != '\n') letters = true := by
  induction hwrites with
  | nil => rfl
  | cons hletter _ ih => simp [areSpelled, hletter.isValid, hletter.endsBefore, ih]

theorem takeName_of_writes : takeName 0 (textOf letters) = textOf letters := by
  induction hwrites with
  | nil => rfl
  | cons hletter _ ih => rw [textOf_cons, hletter.takeName, ih]

theorem unescape_of_writes : unescape 0 (textOf letters) = name := by
  induction hwrites with
  | nil => rfl
  | cons hletter _ ih => rw [textOf_cons, hletter.unescape, ih]

theorem guarded_of_writes : Guarded (textOf letters) :=
  (nested_guarded.piecewise 0).plainLetters (nested_guarded.ordinary 0) (nested_guarded.escape 0)
    (areSpelled_of_writes hwrites)

/-- Behind an escaped bracket stand the letters that follow, and these are guarded. -/
theorem guarded_behind_bracket {front behind : List Char}
    (hsplit : textOf letters = front ++ '[' :: behind) : Guarded behind := by
  induction hwrites generalizing front with
  | nil => simp at hsplit
  | cons hletter hletters ih =>
    rw [textOf_cons] at hsplit
    rcases exists_of_append_eq hsplit with ⟨more, hmore, rfl⟩ | ⟨more, hmore⟩
    · rw [hletter.eq_nil_of_bracket hmore, List.nil_append]
      exact guarded_of_writes hletters
    · exact ih hmore

/-- Nothing of a class is hidden, also where it is written with quotes or brackets. -/
theorem shade_of_writes (negations : Bool) :
    shade negations {} ('.' :: textOf letters) = ('.' :: textOf letters).map (·, false) := by
  have hordinary : ∀ c, isOrdinary c = true → Leads negations (outside 0) [c] false (outside 0) := by
    intro c hc
    refine leads_mute 0 fun hmem => isOrdinary_iff.mp hc ?_
    simp only [marks, List.mem_cons, List.not_mem_nil, or_false] at hmem ⊢
    tauto
  have hletters : Leads negations (outside 0) (textOf letters) false (outside 0) :=
    (piecewise_leads negations (outside 0) false).plainLetters hordinary (leads_escape rfl)
      (areSpelled_of_writes hwrites)
  have hdot : Leads negations (outside 0) ['.'] false (outside 0) := leads_mute 0 (by decide)
  have hall := (hdot.append hletters).shade []
  rwa [shade, List.append_nil, List.append_nil] at hall

theorem dottedClasses_of_writes (hname : name ≠ []) :
    dottedClasses ('.' :: textOf letters) = [name] := by
  have hne : (textOf letters).isEmpty = false := by
    rw [List.isEmpty_eq_false_iff]
    refine textOf_ne_nil ?_
    rintro rfl
    exact hname (List.forall₂_nil_left_iff.mp hwrites)
  rw [dottedClasses, Selector.dottedNames, if_pos rfl]
  simp only [takeName_of_writes hwrites, hne]
  rw [if_neg (by simp), List.map_cons, unescape_of_writes hwrites, dottedNames_eq,
    List.drop_length]
  rfl

theorem classes_of_writes (hname : name ≠ []) (skips : Bool) :
    Selector.classes skips ('.' :: textOf letters) = [name] := by
  have hnone : conditionsIn skips 0 (shade true {} ('.' :: textOf letters)) = [] := by
    apply conditionsIn_of_none
    rw [map_fst_shade]
    intro front behind hsplit
    cases front with
    | nil => exact absurd (List.cons.inj hsplit).1 (by decide)
    | cons _ front =>
      exact classAttribute?_of_guarded (guarded_behind_bracket hwrites (List.cons.inj hsplit).2)
  rw [classes_eq, hnone, shade_of_writes hwrites, maskOf_visible,
    dottedClasses_of_writes hwrites hname]
  rfl

end

/-- However a class is written behind a dot, it is the one class that the selector
defines, and the one that it requires. -/
theorem spelled_class_found (hwrites : List.Forall₂ Letter.Writes letters name)
    (hname : name ≠ []) :
    definedClasses ('.' :: textOf letters) = [name] ∧
      requiredClasses ('.' :: textOf letters) = [name] :=
  ⟨classes_of_writes hwrites hname false, classes_of_writes hwrites hname true⟩

/-- A dot, a bracket, a quote and a space escaped, and a letter behind a short number. -/
def spelledLetters : List Letter :=
  [.plain 'a', .escaped '.', .escaped '[', .number ['6', '1'] (some ' '), .plain 'b', .escaped '"',
    .escaped ' ', .plain 'é', .number ['0', '0', '0', '0', '2', 'C'] (some ' ')]

theorem spelled_class_found_mixed :
    List.Forall₂ Letter.Writes spelledLetters "a.[ab\" é,".toList ∧ "a.[ab\" é,".toList ≠ [] ∧
      String.ofList (textOf spelledLetters) = "a\\.\\[\\61 b\\\"\\ é\\00002C " ∧
      definedClasses ('.' :: textOf spelledLetters) = ["a.[ab\" é,".toList] ∧
      requiredClasses ('.' :: textOf spelledLetters) = ["a.[ab\" é,".toList] := by
  have hwrites : List.Forall₂ Letter.Writes spelledLetters "a.[ab\" é,".toList := by
    refine .cons (.plain (by decide)) (.cons (.escaped (by decide) (by decide))
      (.cons (.escaped (by decide) (by decide)) (.cons (.number (by decide) (by decide)
        (List.all_eq_true.mp (by decide)) (by decide)) (.cons (.plain (by decide))
          (.cons (.escaped (by decide) (by decide)) (.cons (.escaped (by decide) (by decide))
            (.cons (.plain (by decide)) (.cons (.number (by decide) (by decide)
              (List.all_eq_true.mp (by decide)) (by decide)) .nil))))))))
  exact ⟨hwrites, by decide, by decide, spelled_class_found hwrites (by decide)⟩

end Deadwood.Css
