/-
# Names that are not cut

The names behind dots that are read off the front of a text do not depend on what
stands behind it, if no name is cut: no escape is under way, and what follows goes on
with no name. An escape under way in the mask of a text is one of the text itself, so
a place can be judged before anything is hidden.
-/

import Deadwood.Proofs.Stylesheet.Dotted
import Deadwood.Proofs.Stylesheet.Pieces

namespace Deadwood.Css

open Deadwood.Text
open Deadwood.Selector (Nesting dottedNames escapeLength hexDigits isPlain shade takeName)

variable {c : Char} {text rest : List Char}

/-! ## Escapes under way -/

theorem escapeAt_cons (hbackslash : c ≠ '\\') (text : List Char) :
    escapeAt (c :: text) = escapeAt text := by
  have hstep : escapeStep none c = none := by simp [escapeStep, hbackslash]
  rw [escapeAt, List.foldl_cons, hstep]
  rfl

theorem escapeAt_escape (hhex : isHexDigit c = false) (text : List Char) :
    escapeAt ('\\' :: c :: text) = escapeAt text := by
  have hstep : escapeStep (some 0) c = none := by simp [escapeStep, hhex]
  have hbackslash : escapeStep none '\\' = some 0 := by decide
  rw [escapeAt, List.foldl_cons, hbackslash, List.foldl_cons, hstep]
  rfl

theorem foldl_escapeStep_digits {digits : List Char} {count : Nat}
    (hdigits : ∀ c ∈ digits, isHexDigit c = true) (hmost : count + digits.length ≤ 6) :
    digits.foldl escapeStep (some count) = some (count + digits.length) := by
  induction digits generalizing count with
  | nil => rfl
  | cons c digits ih =>
    rw [List.length_cons] at hmost
    have hcount : count < 6 := by omega
    have hstep : escapeStep (some count) c = some (count + 1) := by
      simp [escapeStep, hdigits c List.mem_cons_self, hcount]
    rw [List.foldl_cons, hstep, ih (fun d hd => hdigits d (List.mem_cons_of_mem _ hd)) (by omega),
      List.length_cons]
    congr 1
    omega

/-- Behind all its digits, an escape by number is over with the next character. -/
theorem escapeAt_number {digits : List Char} (hpos : 0 < digits.length) (hmost : digits.length ≤ 6)
    (hdigits : ∀ c ∈ digits, isHexDigit c = true) (hne : text ≠ [])
    (hend : digits.length = 6 ∨ text.head?.any isHexDigit = false) :
    escapeAt ('\\' :: (digits ++ text)) = escapeAt text := by
  obtain ⟨c, text, rfl⟩ := List.exists_cons_of_ne_nil hne
  have hstep : escapeStep (some digits.length) c = escapeStep none c := by
    have hover : isHexDigit c = true → ¬ digits.length < 6 := by
      intro hhex
      rcases hend with hsix | hnone
      · omega
      · simp [hhex] at hnone
    by_cases hhex : isHexDigit c = true
    · simp [escapeStep, hhex, hover hhex, Nat.ne_of_gt hpos]
    · simp [escapeStep, hhex, Nat.ne_of_gt hpos]
  have hbackslash : escapeStep none '\\' = some 0 := by decide
  rw [escapeAt, List.foldl_cons, hbackslash, List.foldl_append,
    foldl_escapeStep_digits hdigits (by omega), Nat.zero_add, List.foldl_cons, hstep]
  rfl

theorem escapeAt_behindBlank (text : List Char) : escapeAt (behindBlank text) = escapeAt text := by
  cases text with
  | nil => rfl
  | cons c text =>
    cases hblank : isBlank c with
    | false => simp [behindBlank, hblank]
    | true =>
      have hbackslash : c ≠ '\\' := by
        rintro rfl
        exact absurd hblank (by decide)
      simp [behindBlank, hblank, escapeAt_cons hbackslash]

/-- No backslash at the end of a piece waits for what it escapes. -/
theorem Lexed.escapeAt_ne (hlexed : Lexed text) : escapeAt text ≠ some 0 := by
  let Rests (text : List Char) : Prop :=
    ∀ escape, escape ≠ some 0 → text.foldl escapeStep escape ≠ some 0
  have hpieces : Piecewise Rests := by
    refine ⟨fun _ hescape => hescape, fun htext hrest escape hescape => ?_⟩
    rw [List.foldl_append]
    exact hrest _ (htext escape hescape)
  have hclosed : ∀ front c, isHexDigit c = false → c ≠ '\\' → Rests (front ++ [c]) := by
    intro front c hhex hbackslash escape _
    rw [List.foldl_append]
    simp [escapeStep, hhex, hbackslash]
  refine hlexed.piecewise hpieces ?_ none (by simp)
  intro piece hpiece
  cases hpiece with
  | @char c hc =>
    intro escape _
    have hbackslash : c ≠ '\\' := by
      rintro rfl
      simp at hc
    cases escape <;> simp [escapeStep, hbackslash]
  | escape c =>
    intro escape hescape
    have hbackslash : escapeStep escape '\\' = some 0 := by
      simp [escapeStep, hescape, show isHexDigit '\\' = false by decide]
    rw [List.foldl_cons, hbackslash]
    simp [escapeStep]
  | string htext =>
    obtain ⟨rfl | rfl, -⟩ := htext <;> exact hclosed (_ :: _) _ (by decide) (by decide)
  | condition _ => exact hclosed (_ :: _) ']' (by decide) (by decide)

/-! ## Names -/

/-- A place where no name is cut: no escape is under way before it, and nothing behind
it goes on with a name. -/
structure Uncut (text rest : List Char) : Prop where
  stops : Stops rest
  escape : escapeAt text ≠ some 0
  blank : rest.head?.any isBlank = true → ¬ EndsOpen text

theorem Uncut.of_escapeAt_eq (huncut : Uncut text rest) {other : List Char}
    (hsame : escapeAt text = escapeAt other) : Uncut other rest := by
  obtain ⟨hstops, hescape, hblank⟩ := huncut
  rw [hsame] at hescape
  exact ⟨hstops, hescape, fun hhead hopen => hblank hhead (by rwa [EndsOpen, hsame])⟩

/-- The digits that a text begins with, as many as belong to a number. -/
theorem exists_digits (text : List Char) :
    ∃ digits more, text = digits ++ more ∧ digits.length ≤ 6 ∧
      (∀ c ∈ digits, isHexDigit c = true) ∧
      (digits.length = 6 ∨ more.head?.any isHexDigit = false) := by
  refine ⟨hexDigits text, (text.take 6).dropWhile isHexDigit ++ text.drop 6, ?_, ?_, ?_, ?_⟩
  · rw [hexDigits, ← List.append_assoc, List.takeWhile_append_dropWhile, List.take_append_drop]
  · exact Nat.le_trans (List.takeWhile_sublist _).length_le (List.length_take_le 6 text)
  · exact fun c hc => List.all_eq_true.mp List.all_takeWhile c hc
  · cases hdrop : (text.take 6).dropWhile isHexDigit with
    | nil =>
      have hall : hexDigits text = text.take 6 := by
        have hsplit := @List.takeWhile_append_dropWhile _ isHexDigit (text.take 6)
        rwa [hdrop, List.append_nil] at hsplit
      by_cases hlength : 6 ≤ text.length
      · exact .inl (by rw [hall, List.length_take, Nat.min_eq_left hlength])
      · exact .inr (by simp [List.drop_eq_nil_of_le (Nat.le_of_not_le hlength)])
    | cons c more =>
      have hhead := List.head?_dropWhile_not isHexDigit (text.take 6)
      rw [hdrop, List.head?_cons] at hhead
      exact .inr (by simpa using hhead)

theorem takeName_escape (hhex : isHexDigit c = false) (text : List Char) :
    takeName 0 ('\\' :: c :: text) = if c = '\n' then [] else '\\' :: c :: takeName 0 text := by
  have hdigits : hexDigits (c :: text) = [] := by simp [hexDigits, hhex]
  have hlength : escapeLength (c :: text) = if c = '\n' then 0 else 1 := by
    simp [escapeLength, hdigits]
  have hplain : isPlain '\\' = false := by decide
  by_cases hline : c = '\n'
  · subst hline
    simp [takeName, hlength, hplain]
  · simp [takeName, hlength, hplain, hline]

/-- Behind a number a name goes on, unless it ends there. -/
theorem Uncut.takeName_number {digits : List Char} (huncut : Uncut ('\\' :: (digits ++ text)) rest)
    (hpos : 0 < digits.length) (hmost : digits.length ≤ 6)
    (hdigits : ∀ c ∈ digits, isHexDigit c = true)
    (hend : digits.length = 6 ∨ text.head?.any isHexDigit = false)
    (hbehind : Uncut (behindBlank text) rest →
      takeName 0 (behindBlank text ++ rest) = takeName 0 (behindBlank text)) :
    takeName 0 ('\\' :: (digits ++ (text ++ rest))) = takeName 0 ('\\' :: (digits ++ text)) := by
  have hread := hexDigits_append hmost hdigits hend
  cases text with
  | nil =>
    have hblank : rest.head?.any isBlank = false := by
      rw [← Bool.not_eq_true]
      intro hblank
      refine huncut.blank hblank ⟨digits.length - 1, ?_⟩
      have hopen := @foldl_escapeStep_digits digits 0 hdigits (by omega)
      rw [Nat.zero_add] at hopen
      rw [List.append_nil, Nat.sub_add_cancel hpos]
      exact hopen
    have hreadRest := hexDigits_append hmost hdigits (.inr huncut.stops.not_isHexDigit)
    rw [List.nil_append, Css.takeName_number hpos hreadRest, Css.takeName_number hpos hread,
      takenBlank, behindBlank, hblank, if_neg Bool.false_ne_true, if_neg Bool.false_ne_true,
      huncut.stops.takeName]
    rfl
  | cons c text =>
    have hreadRest : hexDigits (digits ++ (c :: text ++ rest)) = digits :=
      hexDigits_append hmost hdigits hend
    have hsame := escapeAt_number hpos hmost hdigits (List.cons_ne_nil c text) hend
    have huncut := huncut.of_escapeAt_eq (hsame.trans (escapeAt_behindBlank (c :: text)).symm)
    have htaken : takenBlank (c :: text ++ rest) = takenBlank (c :: text) := rfl
    have hdropped : behindBlank (c :: text ++ rest) = behindBlank (c :: text) ++ rest := by
      cases hblank : isBlank c <;> simp [behindBlank, hblank]
    rw [Css.takeName_number hpos hreadRest, Css.takeName_number hpos hread, htaken, hdropped,
      hbehind huncut]

/-- A name is read alike, whatever follows where it is not cut. -/
theorem Uncut.takeName_append (huncut : Uncut text rest) :
    takeName 0 (text ++ rest) = takeName 0 text := by
  induction hlength : text.length using Nat.strong_induction_on generalizing text with
  | _ length ih =>
    cases text with
    | nil => rw [List.nil_append, huncut.stops.takeName, takeName]
    | cons c text =>
      rw [List.length_cons] at hlength
      by_cases hbackslash : c = '\\'
      · subst hbackslash
        obtain ⟨digits, more, rfl, hmost, hdigits, hend⟩ := exists_digits text
        by_cases hpos : 0 < digits.length
        · rw [List.cons_append, List.append_assoc]
          refine huncut.takeName_number hpos hmost hdigits hend fun hbehind => ?_
          refine ih _ ?_ hbehind rfl
          have hshorter := length_behindBlank_le more
          simp at hlength
          omega
        · obtain rfl := List.length_eq_zero_iff.mp (Nat.eq_zero_of_not_pos hpos)
          cases more with
          | nil => exact absurd rfl huncut.escape
          | cons d more =>
            have hhex : isHexDigit d = false := by simpa using hend
            have hbehind := huncut.of_escapeAt_eq (escapeAt_escape hhex more)
            have hagain := ih more.length (by simp at hlength; omega) hbehind rfl
            simp only [List.nil_append, List.cons_append, takeName_escape hhex, hagain]
      · have hbehind := huncut.of_escapeAt_eq (escapeAt_cons hbackslash text)
        have hagain := ih text.length (by omega) hbehind rfl
        simp [takeName, hbackslash, hagain]

theorem length_takeName_le (escaped : Nat) (text : List Char) :
    (takeName escaped text).length ≤ text.length := by
  induction text generalizing escaped with
  | nil => simp [takeName]
  | cons c text ih =>
    cases escaped with
    | succ escaped => simpa [takeName] using ih escaped
    | zero =>
      rw [takeName]
      split
      · simpa using ih 0
      · split
        · simpa using ih _
        · simp

/-- Where no name is cut, the names before a place are found, and those behind it. -/
theorem Uncut.dottedNames_append (huncut : Uncut text rest) {read : Nat}
    (hread : read ≤ text.length) :
    dottedNames read (text ++ rest) = dottedNames read text ++ dottedNames 0 rest := by
  -- Only what stands behind a dot matters, and there no escape is under way.
  have hnames : ∀ front behind, text = front ++ '.' :: behind →
      takeName 0 (behind ++ rest) = takeName 0 behind := by
    rintro front behind rfl
    exact (huncut.of_escapeAt_eq (escapeAt_append_cons (by decide) (by decide) _ _)).takeName_append
  clear huncut
  induction text generalizing read with
  | nil =>
    obtain rfl := Nat.le_zero.mp hread
    simp [dottedNames]
  | cons c text ih =>
    have hbehind : ∀ front behind, text = front ++ '.' :: behind →
        takeName 0 (behind ++ rest) = takeName 0 behind := by
      rintro front behind rfl
      exact hnames (c :: front) behind rfl
    cases read with
    | succ read =>
      rw [List.cons_append, dottedNames, ih (by simpa using hread) hbehind, dottedNames]
    | zero =>
      rw [List.cons_append, dottedNames, dottedNames]
      by_cases hdot : c = '.'
      · subst hdot
        have hname := hnames [] text rfl
        simp only [if_true, hname]
        split
        · exact ih (Nat.zero_le _) hbehind
        · rw [ih (length_takeName_le 0 text) hbehind, List.cons_append]
      · rw [if_neg hdot, if_neg hdot, ih (Nat.zero_le _) hbehind]

theorem Uncut.dottedClasses_append (huncut : Uncut text rest) :
    dottedClasses (text ++ rest) = dottedClasses text ++ dottedClasses rest := by
  rw [dottedClasses, huncut.dottedNames_append (Nat.zero_le _), List.map_append]
  rfl

/-! ## Escapes behind a mask -/

variable {negations : Bool} {s : Nesting}

/-- The escape under way at a place of a text, and in the mask of the text: where
nothing is hidden they are the same, and otherwise there is none in the mask. -/
structure Agrees (s : Nesting) (escape masked : Option Nat) : Prop where
  quote : s.quote ∈ [none, some '"', some '\'']
  visible : s.hides = false → masked = escape
  hidden : s.hides = true → masked = none

/-- Digits and backslashes are hidden where others are, and hide nothing. -/
theorem step_of_escaping (negations : Bool) (hquote : s.quote ∈ [none, some '"', some '\''])
    (hc : isHexDigit c = true ∨ c = '\\') (rest : List Char) :
    (s.step negations c rest).1 = s.hides ∧ (s.step negations c rest).2.hides = s.hides := by
  obtain ⟨brackets, n, quote, literal⟩ := s
  by_cases hliteral : 0 < literal
  · simp [Nesting.step, Nesting.hides, hliteral]
  rcases hc with hhex | rfl
  · have hordinary := isOrdinary_iff.mp (isOrdinary_of_isHexDigit hhex)
    simp only [marks, List.mem_cons, List.not_mem_nil, or_false, not_or] at hordinary
    simp only [List.mem_cons, List.not_mem_nil, or_false] at hquote
    rcases hquote with rfl | rfl | rfl <;>
      simp [Nesting.step, Nesting.hides, hliteral, hordinary]
  · simp [Nesting.step, Nesting.hides, hliteral]

theorem quote_step (negations : Bool) (hquote : s.quote ∈ [none, some '"', some '\''])
    (c : Char) (rest : List Char) :
    (s.step negations c rest).2.quote ∈ [none, some '"', some '\''] := by
  obtain ⟨brackets, n, quote, literal⟩ := s
  simp only [Nesting.step]
  split
  · exact hquote
  split
  · exact hquote
  cases quote with
  | some quote =>
    dsimp only
    split
    · simp
    · exact hquote
  | none =>
    dsimp only
    split
    · rename_i hc
      rcases hc with rfl | rfl <;> simp
    · repeat' split
      all_goals simp

/-- No escape goes on where something is hidden. -/
theorem foldl_escapeStep_hidden (c : Char) (masked : Option Nat) :
    (maskOf [(c, true)]).foldl escapeStep masked = none := by
  obtain ⟨size, hsize⟩ := Nat.exists_eq_succ_of_ne_zero (Nat.ne_of_gt c.utf8Size_pos)
  have hmask : maskOf [(c, true)] = List.replicate size ' ' ++ [' '] := by
    simp [maskOf, hsize, ← List.replicate_succ']
  have hblank : ∀ escape, escapeStep escape ' ' = none := fun escape => by
    simp [escapeStep, show isHexDigit ' ' = false by decide]
  rw [hmask, List.foldl_append, List.foldl_cons, hblank]
  rfl

theorem Agrees.step {escape masked : Option Nat} (hagrees : Agrees s escape masked) (c : Char)
    (rest : List Char) :
    Agrees (s.step negations c rest).2 (escapeStep escape c)
      ((maskOf [(c, (s.step negations c rest).1)]).foldl escapeStep masked) := by
  have hquote := quote_step negations hagrees.quote c rest
  have hshown : (maskOf [(c, false)]).foldl escapeStep masked = escapeStep masked c := rfl
  by_cases hc : isHexDigit c = true ∨ c = '\\'
  · obtain ⟨hfirst, hsecond⟩ := step_of_escaping negations hagrees.quote hc rest
    refine ⟨hquote, fun hvisible => ?_, fun hhidden => ?_⟩
    · rw [hsecond] at hvisible
      rw [hfirst, hvisible, hshown, hagrees.visible hvisible]
    · rw [hsecond] at hhidden
      rw [hfirst, hhidden, foldl_escapeStep_hidden]
  · -- Any other character ends an escape, whether it can be seen or not.
    rw [not_or, Bool.not_eq_true] at hc
    have hends : ∀ escape, escapeStep escape c = none := fun escape => by simp [escapeStep, hc]
    have hmasked : (maskOf [(c, (s.step negations c rest).1)]).foldl escapeStep masked = none := by
      cases (s.step negations c rest).1 with
      | false => rw [hshown, hends]
      | true => exact foldl_escapeStep_hidden c masked
    rw [hends, hmasked]
    exact ⟨hquote, fun _ => rfl, fun _ => rfl⟩

/-- What agrees at one place of a text agrees at its end. -/
theorem Agrees.run {escape masked : Option Nat} (hagrees : Agrees s escape masked)
    (text : List Char) :
    Agrees (endOf negations s text) (text.foldl escapeStep escape)
      ((maskOf (shade negations s text)).foldl escapeStep masked) := by
  induction text generalizing s escape masked with
  | nil => exact hagrees
  | cons c text ih =>
    have hsplit : maskOf (shade negations s (c :: text)) =
        maskOf [(c, (s.step negations c text).1)] ++
          maskOf (shade negations (s.step negations c text).2 text) :=
      maskOf_append [_] _
    rw [hsplit, List.foldl_append]
    exact ih (hagrees.step c text)

/-- An escape under way in a mask is one of the text, and is not in a negation. -/
theorem of_escapeAt_mask {n count : Nat} (hend : endOf negations {} text = outside n)
    (hcount : escapeAt (maskOf (shade negations {} text)) = some count) :
    n = 0 ∧ escapeAt text = some count := by
  have hstart : Agrees {} none none := ⟨by decide, fun _ => rfl, fun _ => rfl⟩
  have hagrees : Agrees (outside n) (escapeAt text) (escapeAt (maskOf (shade negations {} text))) :=
    hend ▸ hstart.run text
  cases n with
  | zero => exact ⟨rfl, (hagrees.visible rfl).symm.trans hcount⟩
  | succ n =>
    rw [hagrees.hidden (by simp [hides_outside])] at hcount
    simp at hcount

end Deadwood.Css
