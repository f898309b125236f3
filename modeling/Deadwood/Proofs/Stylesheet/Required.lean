/-
# What a selector requires it defines

The required classes of a selector are read with its negations hidden, the defined ones
without. Both readings go through the selector side by side, and at every place they differ
in the open parentheses of a negation alone. A negation begins with a colon and ends with a
parenthesis, and these end a name just as the blanks in their place do. So hiding a negation
takes the names in it away, and leaves all others as they are.
-/

import Deadwood.Proofs.Stylesheet.Trimming
import Deadwood.Verdict
import Mathlib.Data.List.Forall2

namespace Deadwood.Css

open Deadwood.Selector (Nesting classes definedClasses isPlain mask requiredClasses shade)
open Deadwood.Text
open Deadwood.Verdict (bytesOf)

variable {c : Char} {text rest seen : List Char} {s : Nesting} {escape masked : Option Nat}

/-! ## Two readings side by side -/

/-- A negation begins at a place. -/
structure Negates (s : Nesting) (c : Char) (rest : List Char) : Prop where
  atRest : AtRest s
  colon : c = ':'
  brackets : s.brackets = 0
  negations : s.negations = 0
  continues : Nesting.continuesNegation rest = true

/-- Both readings go on alike, except where a negation begins. -/
theorem step_true_eq (hnot : ¬ Negates s c rest) : s.step true c rest = s.step false c rest := by
  obtain ⟨brackets, n, quote, literal⟩ := s
  by_cases hliteral : 0 < literal
  · simp [Nesting.step, hliteral]
  by_cases hbackslash : c = '\\'
  · simp [Nesting.step, hliteral, hbackslash]
  cases quote with
  | some quote => simp [Nesting.step, hliteral, hbackslash]
  | none =>
    have hcolon : ¬ (c = ':' ∧ brackets = 0 ∧ n = 0 ∧ Nesting.continuesNegation rest = true) := by
      rintro ⟨hc, hbrackets, hn, hcontinues⟩
      exact hnot ⟨⟨Nat.eq_zero_of_not_pos hliteral, rfl⟩, hc, hbrackets, hn, hcontinues⟩
    simp [Nesting.step, hliteral, hbackslash, hcolon]

theorem step_of_hides (hs : s.hides = true) (negations : Bool) (c : Char) (rest : List Char) :
    (s.step negations c rest).1 = true := by
  obtain ⟨brackets, n, quote, literal⟩ := s
  simp only [Nesting.step, hs]
  split
  · rfl
  split
  · rfl
  cases quote with
  | some quote => rfl
  | none =>
    dsimp only
    repeat' split
    all_goals rfl

/-- A place as it is read without regard to negations. -/
def bare (s : Nesting) : Nesting :=
  { s with negations := 0 }

theorem bare_eq (hs : s.negations = 0) : bare s = s := by
  rw [bare, ← hs]

theorem counted_of_ne {n : Nat} (hopen : c ≠ '(') (hclose : c ≠ ')') : counted c n = n := by
  rw [counted, if_neg hopen, if_neg hclose]
  split
  · rename_i hn
    exact hn.symm
  · rfl

/-- The open parentheses of a negation are counted, and make no other difference. -/
theorem step_false_snd (s : Nesting) (c : Char) (rest : List Char) :
    (s.step false c rest).2 = { ((bare s).step false c rest).2 with
      negations :=
        if s.literal = 0 ∧ s.quote = none then counted c s.negations else s.negations } := by
  obtain ⟨brackets, n, quote, literal⟩ := s
  by_cases hliteral : 0 < literal
  · simp [Nesting.step, bare, hliteral, Nat.ne_of_gt hliteral]
  obtain rfl := Nat.eq_zero_of_not_pos hliteral
  cases quote with
  | some quote =>
    by_cases hbackslash : c = '\\'
    · simp [Nesting.step, bare, hbackslash]
    · by_cases hc : c = quote
      · subst hc
        simp [Nesting.step, bare, hbackslash]
      · simp [Nesting.step, bare, hbackslash, hc]
  | none =>
    by_cases hmark : c ∈ ['\\', '"', '\'', '[', ']']
    · simp only [List.mem_cons, List.not_mem_nil, or_false] at hmark
      rcases hmark with rfl | rfl | rfl | rfl | rfl
      · simp [Nesting.step, bare, counted_of_ne]
      · simp [Nesting.step, bare, counted_of_ne]
      · simp [Nesting.step, bare, counted_of_ne]
      · simp [Nesting.step, bare, counted_of_ne]
      · by_cases hbrackets : 0 < brackets <;>
          simp [Nesting.step, bare, counted_of_ne, hbrackets]
    · rw [step_char ⟨rfl, rfl⟩ hmark (by simp), step_char ⟨rfl, rfl⟩ hmark (by simp)]
      simp [bare]

theorem literal_step_false (s : Nesting) (c : Char) (rest : List Char) :
    (s.step false c rest).2.literal =
      if 0 < s.literal then s.literal - 1 else if c = '\\' then 1 else 0 := by
  obtain ⟨brackets, n, quote, literal⟩ := s
  by_cases hliteral : 0 < literal
  · simp [Nesting.step, hliteral]
  obtain rfl := Nat.eq_zero_of_not_pos hliteral
  by_cases hbackslash : c = '\\'
  · simp [Nesting.step, hbackslash]
  cases quote with
  | some quote =>
    by_cases hc : c = quote
    · subst hc
      simp [Nesting.step, hbackslash]
    · simp [Nesting.step, hbackslash, hc]
  | none =>
    simp only [Nesting.step, hbackslash, if_false, Bool.false_eq_true, false_and]
    repeat' split
    all_goals simp_all

theorem bare_step_false (s : Nesting) (c : Char) (rest : List Char) :
    ((bare s).step false c rest).2 = bare (s.step false c rest).2 := by
  have hown := step_false_snd (bare s) c rest
  have hzero : ((bare s).step false c rest).2.negations = 0 := by
    rw [hown]
    simp [bare, counted]
  rw [step_false_snd s, bare]
  exact (bare_eq hzero).symm

/-! ## Escapes on the way -/

/-- A reading that keeps step with the escapes of a text and of its mask. -/
structure InStep (s : Nesting) (escape masked : Option Nat) : Prop extends
    Agrees s escape masked where
  literal : s.literal = if escape = some 0 then 1 else 0

theorem inStep_start : InStep {} none none where
  quote := by decide
  visible _ := rfl
  hidden _ := rfl
  literal := rfl

theorem escapeStep_eq_zero_iff :
    escapeStep escape c = some 0 ↔ c = '\\' ∧ escape ≠ some 0 := by
  unfold escapeStep
  split
  · rename_i hdigit
    rw [Bool.and_eq_true] at hdigit
    have hbackslash : c ≠ '\\' := by
      rintro rfl
      exact absurd hdigit.1 (by decide)
    cases escape <;> simp [hbackslash]
  · split
    · simpa
    · simp_all

theorem InStep.step (hs : InStep s escape masked) (c : Char) (rest : List Char) :
    InStep (s.step false c rest).2 (escapeStep escape c)
      ((maskOf [(c, (s.step false c rest).1)]).foldl escapeStep masked) where
  toAgrees := hs.toAgrees.step c rest
  literal := by
    rw [literal_step_false, hs.literal]
    by_cases hescape : escape = some 0
    · simp [hescape, escapeStep_eq_zero_iff]
    · simp [hescape, escapeStep_eq_zero_iff]

/-- Where nothing is escaped, no backslash in the mask waits for what it escapes. -/
theorem InStep.masked_ne (hs : InStep s escape masked) (hliteral : s.literal = 0) :
    masked ≠ some 0 := by
  have hescape : escape ≠ some 0 := by
    intro hescape
    rw [hs.literal, if_pos hescape] at hliteral
    exact absurd hliteral (by decide)
  cases hhides : s.hides with
  | false => rwa [hs.visible hhides]
  | true => simp [hs.hidden hhides]

/-! ## Names before and behind -/

/-- A mark that goes on with no name parts the names before it from those behind it. -/
theorem dottedClasses_parted (hplain : isPlain c = false) (hbackslash : c ≠ '\\') (hdot : c ≠ '.')
    (hescape : escapeAt seen ≠ some 0) (hblank : isBlank c = true → ¬ EndsOpen seen)
    (rest : List Char) :
    dottedClasses (seen ++ c :: rest) = dottedClasses seen ++ dottedClasses rest := by
  have huncut : Uncut seen (c :: rest) := by
    refine ⟨?_, hescape, by simpa using hblank⟩
    rintro d hd
    obtain rfl := Option.some.inj hd
    exact ⟨hplain, hbackslash⟩
  have hmark : dottedClasses ([c] ++ rest) = dottedClasses rest :=
    dottedClasses_append (by simpa using Ne.symm hdot) rest
  rw [huncut.dottedClasses_append, ← hmark, List.singleton_append]

/-- Of two blanks the first may end a number, but not the second. -/
theorem dottedClasses_blanks (hescape : escapeAt seen ≠ some 0) (rest : List Char) :
    dottedClasses (seen ++ ' ' :: ' ' :: rest) = dottedClasses seen ++ dottedClasses rest := by
  have hclosed : escapeAt (seen ++ [' ']) = none :=
    escapeAt_append_cons (by decide) (by decide) seen []
  have hopen : ¬ EndsOpen (seen ++ [' ']) := by
    rintro ⟨count, hcount⟩
    rw [hclosed] at hcount
    exact absurd hcount (by simp)
  have hparted : dottedClasses (seen ++ [' '] ++ ' ' :: rest) =
      dottedClasses (seen ++ [' ']) ++ dottedClasses rest :=
    dottedClasses_parted (by decide) (by decide) (by decide) (by simp [hclosed]) (fun _ => hopen)
      rest
  rw [List.append_assoc, List.singleton_append] at hparted
  rw [hparted, dottedClasses_append_blank (by decide) hescape]

/-! ## Names in and around negations -/

theorem maskOf_shade_cons (negations : Bool) (s : Nesting) (c : Char) (rest : List Char) :
    maskOf (shade negations s (c :: rest)) = maskOf [(c, (s.step negations c rest).1)] ++
      maskOf (shade negations (s.step negations c rest).2 rest) :=
  maskOf_append [_] _

theorem maskOf_hidden (text : List Char) :
    maskOf (text.map (·, true)) = List.replicate (byteSize text) ' ' := by
  induction text with
  | nil => rfl
  | cons c text ih =>
    have hcons : maskOf ((c :: text).map (·, true)) =
        List.replicate c.utf8Size ' ' ++ maskOf (text.map (·, true)) := rfl
    rw [hcons, ih, byteSize, List.replicate_append_replicate]

/-- The word of a negation is hidden by one reading and passed over by the other. -/
theorem shade_negation_word (hcontinues : Nesting.continuesNegation rest = true) :
    ∃ word behind, ':' :: rest = ':' :: word ++ behind ∧ 0 < byteSize word ∧ '.' ∉ word ∧
      shade true {} (':' :: rest) = (':' :: word).map (·, true) ++ shade true (outside 1) behind ∧
      shade false {} (':' :: rest) = (':' :: word).map (·, false) ++ shade false {} behind := by
  have hknown : (rest.take 4).map Char.toLower = ['n', 'o', 't', '('] := eq_of_beq hcontinues
  obtain ⟨n, three, hfour, hn, hknown⟩ := List.map_eq_cons_iff.mp hknown
  obtain ⟨o, two, rfl, ho, hknown⟩ := List.map_eq_cons_iff.mp hknown
  obtain ⟨t, one, rfl, ht, hknown⟩ := List.map_eq_cons_iff.mp hknown
  obtain ⟨p, none, rfl, hp, hknown⟩ := List.map_eq_cons_iff.mp hknown
  obtain rfl := List.map_eq_nil_iff.mp hknown
  have hrest : rest = [n, o, t, p] ++ rest.drop 4 := by rw [← hfour, List.take_append_drop]
  -- None of the four characters has a meaning to the reading that passes over them.
  have hmute : ∀ c ∈ [n, o, t, p], c ∉ ['\\', '"', '\'', '[', ']', '.'] := by
    intro c hc hmem
    have hlower : c.toLower ∈ ['n', 'o', 't', '('] := by
      simp only [List.mem_cons, List.not_mem_nil, or_false] at hc ⊢
      rcases hc with rfl | rfl | rfl | rfl
      all_goals simp [hn, ho, ht, hp]
    have hnone : ['\\', '"', '\'', '[', ']', '.'].all
        (fun c => c.toLower ∉ ['n', 'o', 't', '(']) = true := by decide
    exact absurd hlower (by simpa using List.all_eq_true.mp hnone c hmem)
  refine ⟨[n, o, t, p], rest.drop 4, by rw [List.cons_append, ← hrest], ?_, fun hdot => ?_, ?_, ?_⟩
  · rw [byteSize]
    have := n.utf8Size_pos
    omega
  · exact hmute '.' hdot (by simp)
  · have hstep : Nesting.step true {} ':' rest = (true, { negations := 1, literal := 4 }) := by
      simp [Nesting.step, hcontinues]
    rw [shade_cons, hstep]
    nth_rewrite 1 [hrest]
    rfl
  · have hleads : Leads false {} (':' :: [n, o, t, p]) false {} := by
      refine (piecewise_leads false {} false).of_forall fun c hc => leads_char fun rest => ?_
      have hplain : c ∉ ['\\', '"', '\'', '[', ']', '.'] := by
        rcases List.mem_cons.mp hc with rfl | hc
        · decide
        · exact hmute c hc
      simp only [List.mem_cons, List.not_mem_nil, or_false, not_or] at hplain
      simp [Nesting.step, Nesting.hides, hplain]
    nth_rewrite 1 [hrest]
    exact hleads.shade _

theorem negations_step_false (s : Nesting) (c : Char) (rest : List Char) :
    (s.step false c rest).2.negations =
      if s.literal = 0 ∧ s.quote = none then counted c s.negations else s.negations := by
  rw [step_false_snd]

/-- A negation is left with the parenthesis that closes it. -/
theorem of_negations_step_eq_zero (hs : 0 < s.negations)
    (hleft : (s.step false c rest).2.negations = 0) : s.literal = 0 ∧ c = ')' := by
  rw [negations_step_false] at hleft
  split at hleft
  · rename_i hrest
    refine ⟨hrest.1, by_contra fun hclose => ?_⟩
    unfold counted at hleft
    rw [if_neg (Nat.ne_of_gt hs), if_neg hclose] at hleft
    split at hleft <;> omega
  · omega

/-- With negations hidden, nothing but names is lost of a text that is read outside of
them. What was seen before it may go on with a name. -/
def LosesNames (text : List Char) : Prop :=
  ∀ (s : Nesting) (seen : List Char) (escape : Option Nat), s.negations = 0 →
    InStep s escape (escapeAt seen) →
      dottedClasses (seen ++ maskOf (shade true s text)) ⊆
        dottedClasses (seen ++ maskOf (shade false s text))

/-- The same for a text that is read inside of a negation. What was seen before it of the
negation is hidden to one of the readings. -/
def HidesNames (text : List Char) : Prop :=
  ∀ (s : Nesting) (seen : List Char) (escape : Option Nat), 0 < s.negations →
    InStep (bare s) escape (escapeAt seen) →
      dottedClasses (maskOf (shade true s text)) ⊆
        dottedClasses (seen ++ maskOf (shade false (bare s) text))

theorem InStep.append_mask (hs : InStep s escape (escapeAt seen)) (c : Char) (rest : List Char) :
    InStep (s.step false c rest).2 (escapeStep escape c)
      (escapeAt (seen ++ maskOf [(c, (s.step false c rest).1)])) := by
  rw [escapeAt, List.foldl_append]
  exact hs.step c rest

/-- A parenthesis ends a name, and so does the blank in its place. -/
theorem InStep.parenthesis (hs : InStep s escape (escapeAt seen)) (hliteral : s.literal = 0)
    (behind rest : List Char) :
    dottedClasses (seen ++ maskOf [(')', (s.step false ')' rest).1)] ++ behind) =
        dottedClasses seen ++ dottedClasses behind ∧
      escapeAt (seen ++ maskOf [(')', (s.step false ')' rest).1)]) = none := by
  have hescape := hs.masked_ne hliteral
  cases hhides : s.hides with
  | true =>
    have hblank : maskOf [(')', (s.step false ')' rest).1)] = [' '] := by
      rw [step_of_hides hhides]
      rfl
    have hopen : ¬ EndsOpen seen := by
      rintro ⟨count, hcount⟩
      rw [hs.hidden hhides] at hcount
      exact absurd hcount (by simp)
    rw [hblank, List.append_assoc, List.singleton_append]
    exact ⟨dottedClasses_parted (by decide) (by decide) (by decide) hescape (fun _ => hopen) behind,
      escapeAt_append_cons (by decide) (by decide) seen []⟩
  | false =>
    have hmark : maskOf [(')', (s.step false ')' rest).1)] = [')'] := by
      obtain ⟨brackets, n, quote, literal⟩ := s
      obtain ⟨⟨rfl, rfl⟩, rfl⟩ : (brackets = 0 ∧ n = 0) ∧ quote = none := by
        simpa [Nesting.hides] using hhides
      obtain rfl : literal = 0 := hliteral
      simp [Nesting.step, Nesting.hides, maskOf]
    rw [hmark, List.append_assoc, List.singleton_append]
    exact ⟨dottedClasses_parted (by decide) (by decide) (by decide) hescape
        (fun hblank => absurd hblank (by decide)) behind,
      escapeAt_append_cons (by decide) (by decide) seen []⟩

theorem losesNames_cons (hloses : LosesNames rest)
    (hhides : ∀ word behind, rest = word ++ behind → HidesNames behind) (c : Char) :
    LosesNames (c :: rest) := by
  intro s seen escape hs hstep
  by_cases hnegates : Negates s c rest
  · obtain ⟨⟨hliteral, hquote⟩, rfl, hbrackets, -, hcontinues⟩ := hnegates
    obtain rfl : s = {} := by
      obtain ⟨brackets, n, quote, literal⟩ := s
      subst hliteral hquote hbrackets hs
      rfl
    obtain ⟨word, behind, hsplit, hsize, hdot, htrue, hfalse⟩ := shade_negation_word hcontinues
    have hescape := hstep.masked_ne rfl
    obtain ⟨size, hblanks⟩ : ∃ size, byteSize (':' :: word) = size + 2 :=
      ⟨byteSize word - 1, by rw [byteSize, show ':'.utf8Size = 1 from rfl]; omega⟩
    have hwithout : dottedClasses (seen ++ maskOf (shade true {} (':' :: rest))) =
        dottedClasses seen ++ dottedClasses (maskOf (shade true (outside 1) behind)) := by
      have hnone : '.' ∉ List.replicate size ' ' := fun hmem =>
        absurd (List.eq_of_mem_replicate hmem) (by decide)
      rw [htrue, maskOf_append, maskOf_hidden, hblanks, List.replicate_succ, List.replicate_succ,
        List.cons_append, List.cons_append, dottedClasses_blanks hescape,
        dottedClasses_append hnone]
    have hwith : dottedClasses (seen ++ maskOf (shade false {} (':' :: rest))) =
        dottedClasses seen ++ dottedClasses (maskOf (shade false {} behind)) := by
      rw [hfalse, maskOf_append, maskOf_visible, List.cons_append,
        dottedClasses_parted (by decide) (by decide) (by decide) hescape
          (fun hblank => absurd hblank (by decide)),
        dottedClasses_append hdot]
    rw [hwithout, hwith]
    have hinner := hhides word behind (List.cons.inj hsplit).2 (outside 1) [] none Nat.one_pos
      inStep_start
    exact List.append_subset.mpr ⟨List.subset_append_left _ _,
      List.subset_append_of_subset_right _ hinner⟩
  · rw [maskOf_shade_cons, maskOf_shade_cons, step_true_eq hnegates, ← List.append_assoc,
      ← List.append_assoc]
    refine hloses _ _ _ ?_ (hstep.append_mask c rest)
    rw [negations_step_false, hs]
    simp [counted]

theorem hidesNames_cons (hloses : LosesNames rest) (hhides : HidesNames rest) (c : Char) :
    HidesNames (c :: rest) := by
  intro s seen escape hs hstep
  have hnegates : ¬ Negates s c rest := fun hnegates => Nat.ne_of_gt hs hnegates.negations
  have hhidden : (s.step false c rest).1 = true :=
    step_of_hides (by simp [Nesting.hides, hs]) false c rest
  have hwithout : dottedClasses (maskOf (shade true s (c :: rest))) =
      dottedClasses (maskOf (shade true (s.step false c rest).2 rest)) := by
    rw [maskOf_shade_cons, step_true_eq hnegates, hhidden]
    exact dottedClasses_hidden [c] _
  have hafter := hstep.append_mask c rest
  rw [hwithout, maskOf_shade_cons, ← List.append_assoc]
  rw [bare_step_false] at hafter ⊢
  by_cases hleft : (s.step false c rest).2.negations = 0
  · obtain ⟨hliteral, rfl⟩ := of_negations_step_eq_zero hs hleft
    rw [bare_eq hleft] at hafter ⊢
    obtain ⟨hwith, hclosed⟩ := hstep.parenthesis hliteral
      (maskOf (shade false (s.step false ')' rest).2 rest)) rest
    rw [hclosed] at hafter
    rw [hwith]
    exact List.subset_append_of_subset_right _ (hloses _ [] _ hleft hafter)
  · exact hhides _ _ _ (Nat.pos_of_ne_zero hleft) hafter

theorem losesNames (text : List Char) : LosesNames text ∧ HidesNames text := by
  induction hlength : text.length using Nat.strong_induction_on generalizing text with
  | _ length ih =>
    cases text with
    | nil => exact ⟨fun _ _ _ _ _ => List.Subset.refl _, fun _ _ _ _ _ => List.nil_subset _⟩
    | cons c rest =>
      rw [List.length_cons] at hlength
      have hrest := ih rest.length (by omega) rest rfl
      refine ⟨losesNames_cons hrest.1 (fun word behind hsplit => ?_) c,
        hidesNames_cons hrest.1 hrest.2 c⟩
      refine (ih behind.length ?_ behind rfl).2
      rw [hsplit, List.length_append] at hlength
      omega

/-! ## Byte by byte -/

theorem bytesOf_ofList (text : List Char) :
    bytesOf (String.ofList text) = text.flatMap String.utf8EncodeChar := by
  simp [bytesOf, String.toUTF8, List.utf8Encode]

/-- A byte that is kept, or hidden by a blank. -/
def Hides (masked own : UInt8) : Prop :=
  masked = own ∨ masked = 0x20

theorem forall₂_hides_blanks (own : List UInt8) :
    List.Forall₂ Hides (List.replicate own.length 0x20) own := by
  induction own with
  | nil => exact .nil
  | cons byte own ih => exact .cons (.inr rfl) ih

/-- Every character that is hidden has as many blanks in its place as it has bytes. -/
theorem forall₂_hides_maskOf (shaded : List (Char × Bool)) :
    List.Forall₂ Hides (bytesOf (String.ofList (maskOf shaded)))
      (bytesOf (String.ofList (shaded.map (·.1)))) := by
  rw [bytesOf_ofList, bytesOf_ofList]
  induction shaded with
  | nil => exact .nil
  | cons entry shaded ih =>
    obtain ⟨c, hidden⟩ := entry
    have hcons : maskOf ((c, hidden) :: shaded) = maskOf [(c, hidden)] ++ maskOf shaded :=
      maskOf_append [_] _
    have hfirst : List.Forall₂ Hides ((maskOf [(c, hidden)]).flatMap String.utf8EncodeChar)
        (String.utf8EncodeChar c) := by
      cases hidden with
      | false => simp [maskOf, List.forall₂_same, Hides]
      | true =>
        have hblanks : (maskOf [(c, true)]).flatMap String.utf8EncodeChar =
            List.replicate (String.utf8EncodeChar c).length 0x20 := by
          simp [maskOf, List.flatMap_replicate, show String.utf8EncodeChar ' ' = [0x20] from rfl]
        rw [hblanks]
        exact forall₂_hides_blanks _
    rw [hcons, List.flatMap_append, List.map_cons, List.flatMap_cons]
    exact List.rel_append hfirst ih

/-- Whatever the selector, the classes it requires are among those it defines, and hiding a
part of it keeps every other byte at its place. -/
theorem required_subset_defined (selector : List Char) :
    requiredClasses selector ⊆ definedClasses selector ∧
    ∀ negations, List.Forall₂ Hides (bytesOf (String.ofList (mask negations selector)))
      (bytesOf (String.ofList selector)) := by
  constructor
  · intro name hname
    rw [requiredClasses, classes, mem_eraseReps, List.mem_append] at hname
    rw [definedClasses, classes, mem_eraseReps, List.mem_append]
    refine hname.imp (fun hnamed => ?_) (fun hdotted => ?_)
    · obtain ⟨entry, hentry, hword⟩ := List.mem_flatMap.mp hnamed
      refine List.mem_flatMap.mpr ⟨entry, ?_, hword⟩
      simpa using (List.mem_filter.mp hentry).1
    · exact (losesNames selector).1 {} [] none rfl inStep_start hdotted
  · intro negations
    have hbytes := forall₂_hides_maskOf (shade negations {} selector)
    rwa [map_fst_shade] at hbytes

end Deadwood.Css
