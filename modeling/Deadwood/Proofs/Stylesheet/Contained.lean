/-
# Conditions that are not cut

What is read of a condition does not depend on what stands behind its bracket. An
escaped bracket begins no condition, as long as what follows is guarded. So the
conditions of a list that falls into pieces are found whatever comes behind it.
-/

import Deadwood.Proofs.Stylesheet.Conditions
import Deadwood.Proofs.Stylesheet.Dotted
import Deadwood.Proofs.Stylesheet.Pieces

namespace Deadwood.Css

open Deadwood.Text
open Deadwood.Selector (Nesting afterAttributeEnd? afterClassWord? bareValue? classAttribute?
  classAttributes classes isValueChar quotedValue? shade skipOne smallForm)

variable {c : Char} {text rest : List Char}

/-! ## Inside of a condition -/

/-- A character of two texts stands in the first of them or in the second. -/
theorem exists_of_append_eq {others front behind : List Char}
    (hsplit : text ++ others = front ++ c :: behind) :
    (∃ more, text = front ++ c :: more ∧ behind = more ++ others) ∨
      ∃ more, others = more ++ c :: behind := by
  rcases List.append_eq_append_iff.mp hsplit with ⟨more, -, hmore⟩ | ⟨more, rfl, hmore⟩
  · exact .inr ⟨more, hmore⟩
  · cases more with
    | nil => exact .inr ⟨[], hmore.symm⟩
    | cons d more =>
      rw [List.cons_append] at hmore
      obtain ⟨rfl, rfl⟩ := List.cons.inj hmore
      exact .inl ⟨more, rfl, rfl⟩

/-- What is left out in front of a text, up to a character that stays, does not depend
on what stands behind that. -/
theorem takeWhile_append_of_mem {test : Char → Bool} (hc : test c = false) (hmem : c ∈ text)
    (rest : List Char) :
    c ∈ text.dropWhile test ∧ (text ++ rest).dropWhile test = text.dropWhile test ++ rest ∧
      (text ++ rest).takeWhile test = text.takeWhile test := by
  induction text with
  | nil => simp at hmem
  | cons d text ih =>
    cases hd : test d with
    | false => exact ⟨by simpa [hd] using hmem, by simp [hd], by simp [hd]⟩
    | true =>
      have hne : c ≠ d := by
        rintro rfl
        rw [hc] at hd
        exact Bool.false_ne_true hd
      obtain ⟨hdrop, hsame, htake⟩ := ih (List.mem_of_ne_of_mem hne hmem)
      exact ⟨by simpa [hd] using hdrop, by simpa [hd] using hsame, by simpa [hd] using htake⟩

theorem trimStart_append (hmem : ']' ∈ text) (rest : List Char) :
    ']' ∈ trimStart text ∧ trimStart (text ++ rest) = trimStart text ++ rest :=
  have hsplit := takeWhile_append_of_mem (show isBlank ']' = false by decide) hmem rest
  ⟨hsplit.1, hsplit.2.1⟩

theorem skipOne_append {characters : List Char} (hc : characters.contains ']' = false)
    (hmem : ']' ∈ text) (rest : List Char) :
    ']' ∈ skipOne characters text ∧
      skipOne characters (text ++ rest) = skipOne characters text ++ rest := by
  cases text with
  | nil => simp at hmem
  | cons d text =>
    rw [List.cons_append, skipOne, skipOne]
    split
    · rename_i hd
      refine ⟨List.mem_of_ne_of_mem ?_ hmem, rfl⟩
      rintro rfl
      rw [hc] at hd
      exact Bool.false_ne_true hd
    · exact ⟨hmem, rfl⟩

theorem after?_append (hne : text ≠ []) (rest : List Char) :
    after? c (text ++ rest) = (after? c text).map (· ++ rest) := by
  obtain ⟨d, text, rfl⟩ := List.exists_cons_of_ne_nil hne
  rw [List.cons_append, after?, after?]
  split <;> rfl

theorem afterAttributeEnd?_append (hmem : ']' ∈ text) (rest : List Char) :
    afterAttributeEnd? (text ++ rest) = (afterAttributeEnd? text).map (· ++ rest) := by
  obtain ⟨hfirst, hfirstSame⟩ := trimStart_append hmem rest
  obtain ⟨hflag, hflagSame⟩ :=
    @skipOne_append _ ['i', 'I', 's', 'S'] (by decide) hfirst rest
  obtain ⟨hlast, hlastSame⟩ := trimStart_append hflag rest
  rw [afterAttributeEnd?, hfirstSame, hflagSame, hlastSame,
    after?_append (List.ne_nil_of_mem hlast)]
  rfl

theorem bareValue?_append (hmem : ']' ∈ text) (rest : List Char) :
    bareValue? (text ++ rest) =
      (bareValue? text).map fun found => (found.1, found.2 ++ rest) := by
  obtain ⟨hbehind, hdrop, htake⟩ :=
    takeWhile_append_of_mem (show isValueChar ']' = false by decide) hmem rest
  simp only [bareValue?, hdrop, htake, afterAttributeEnd?_append hbehind]
  split
  · rfl
  · simp only [Option.map_map, Function.comp_def]

theorem afterClassWord?_append (hmem : ']' ∈ text) (rest : List Char) :
    afterClassWord? (text ++ rest) = (afterClassWord? text).map (· ++ rest) := by
  rw [afterClassWord?, afterClassWord?]
  by_cases hlength : 5 ≤ text.length
  · rw [List.take_append_of_le_length hlength, List.drop_append_of_le_length hlength]
    split <;> rfl
  · -- A shorter text ends with a bracket that is not in the word.
    have hall : text.take 5 = text := List.take_of_length_le (by omega)
    have hnone : ∀ more, (((text ++ more).take 5).map smallForm == "class".toList) = false := by
      intro more
      rw [beq_eq_false_iff_ne]
      intro hsame
      have hin : ']' ∈ (text ++ more).take 5 := by
        rw [List.take_append, hall]
        exact List.mem_append_left _ hmem
      have hletter := List.mem_map_of_mem (f := smallForm) hin
      rw [hsame] at hletter
      exact absurd hletter (by decide)
    have hshort := hnone []
    rw [List.append_nil] at hshort
    rw [hnone rest, hshort]
    rfl

/-- A text that goes on inside of a condition, to its end. -/
def InCondition (text : List Char) : Prop :=
  ∃ inner, MadeOf IsInnerPiece inner ∧ text = inner ++ [']']

theorem InCondition.mem (htext : InCondition text) : ']' ∈ text := by
  obtain ⟨inner, -, rfl⟩ := htext
  simp

/-- A condition goes on behind a character that stands for itself. -/
theorem InCondition.tail (htext : InCondition (c :: text)) (hc : c ∉ ['\\', '"', '\'', ']']) :
    InCondition text := by
  obtain ⟨inner, hinner, hsplit⟩ := htext
  cases hinner with
  | nil =>
    obtain ⟨rfl, -⟩ := List.cons.inj hsplit
    simp at hc
  | cons hpiece hrest =>
    cases hpiece with
    | char _ =>
      obtain ⟨-, rfl⟩ := List.cons.inj hsplit
      exact ⟨_, hrest, rfl⟩
    | escape _ =>
      obtain ⟨rfl, -⟩ := List.cons.inj hsplit
      simp at hc
    | string hstring =>
      obtain ⟨hquote, -⟩ := hstring
      obtain ⟨rfl, -⟩ := List.cons.inj hsplit
      rcases hquote with rfl | rfl <;> simp at hc

theorem InCondition.of_append (htext : InCondition (text ++ rest))
    (hfront : ∀ c ∈ text, c ∉ ['\\', '"', '\'', ']']) : InCondition rest := by
  induction text with
  | nil => exact htext
  | cons c text ih =>
    exact ih (htext.tail (hfront c List.mem_cons_self)) fun d hd =>
      hfront d (List.mem_cons_of_mem _ hd)

theorem not_special_of {test : Char → Bool} (htest : ['\\', '"', '\'', ']'].any test = false)
    (hc : test c = true) : c ∉ ['\\', '"', '\'', ']'] := by
  intro hmem
  rw [List.any_eq_true.mpr ⟨c, hmem, hc⟩] at htest
  simp at htest

theorem InCondition.trim (htext : InCondition text) : InCondition (trimStart text) := by
  have hsplit : text = text.takeWhile isBlank ++ trimStart text :=
    List.takeWhile_append_dropWhile.symm
  rw [hsplit] at htext
  exact htext.of_append fun c hc =>
    not_special_of (by decide) (List.all_eq_true.mp List.all_takeWhile c hc)

theorem InCondition.skip {characters : List Char}
    (hcharacters : ['\\', '"', '\'', ']'].any (characters.contains ·) = false)
    (htext : InCondition text) : InCondition (skipOne characters text) := by
  cases text with
  | nil => exact htext
  | cons c text =>
    rw [skipOne]
    split
    · rename_i hc
      exact htext.tail (not_special_of hcharacters hc)
    · exact htext

theorem InCondition.afterClassWord {behind : List Char} (htext : InCondition text)
    (hafter : afterClassWord? text = some behind) : InCondition behind := by
  unfold afterClassWord? at hafter
  split at hafter
  · rename_i hword
    obtain rfl := Option.some.inj hafter
    rw [← List.take_append_drop 5 text] at htext
    refine htext.of_append fun c hc =>
      @not_special_of c (fun c => "class".toList.contains (smallForm c)) (by decide) ?_
    rw [List.contains_iff_mem, ← eq_of_beq hword]
    exact List.mem_map_of_mem hc
  · simp at hafter

theorem InCondition.after_equals {behind : List Char} (htext : InCondition text)
    (hafter : after? '=' text = some behind) : InCondition behind := by
  cases text with
  | nil => simp [after?] at hafter
  | cons c text =>
    rw [after?] at hafter
    split at hafter
    · rename_i hc
      obtain rfl := Option.some.inj hafter
      subst hc
      exact htext.tail (by decide)
    · simp at hafter

/-- A string in a condition ends before the condition does. -/
theorem InCondition.exists_quote {quote : Char} (hquote : quote = '"' ∨ quote = '\'')
    (htext : InCondition (quote :: text)) :
    ∃ content behind, text = content ++ quote :: behind ∧ ']' ∈ behind := by
  obtain ⟨inner, hinner, hsplit⟩ := htext
  cases hinner with
  | nil =>
    obtain ⟨rfl, -⟩ := List.cons.inj hsplit
    simp at hquote
  | @cons piece rest hpiece hrest =>
    cases hpiece with
    | char hc =>
      obtain ⟨rfl, -⟩ := List.cons.inj hsplit
      rcases hquote with rfl | rfl <;> simp at hc
    | escape _ =>
      obtain ⟨rfl, -⟩ := List.cons.inj hsplit
      simp at hquote
    | string hstring =>
      cases hstring with
      | @quoted _ content _ _ =>
        obtain ⟨rfl, rfl⟩ := List.cons.inj hsplit
        exact ⟨content, rest ++ [']'], by simp, by simp⟩

theorem quotedValue?_quoted {quote : Char} {value : List Char} (hvalue : quote ∉ value)
    (rest : List Char) : quotedValue? quote (quote :: (value ++ quote :: rest)) =
      (afterAttributeEnd? rest).map fun behind => (value, behind) := by
  simp only [quotedValue?, readQuoted?, after?, if_true, Option.bind_some,
    readUntil?_append hvalue, Option.bind_eq_bind]
  cases afterAttributeEnd? rest <;> rfl

theorem InCondition.quotedValue?_append {quote : Char} (hquote : quote = '"' ∨ quote = '\'')
    (htext : InCondition text) (rest : List Char) :
    quotedValue? quote (text ++ rest) =
      (quotedValue? quote text).map fun found => (found.1, found.2 ++ rest) := by
  obtain ⟨c, text, rfl⟩ := List.exists_cons_of_ne_nil (List.ne_nil_of_mem htext.mem)
  by_cases hc : quote = c
  · subst hc
    obtain ⟨content, behind, hsplit, hmem⟩ := htext.exists_quote hquote
    -- The value is read to the first quote, which may be an escaped one.
    obtain ⟨value, later, rfl, hvalue⟩ :=
      List.eq_append_cons_of_mem (show quote ∈ text by simp [hsplit])
    have hlater : ']' ∈ later := by
      have hne : ']' ≠ quote := by rcases hquote with rfl | rfl <;> decide
      rcases exists_of_append_eq hsplit with ⟨more, rfl, -⟩ | ⟨more, hmore⟩
      · simp at hvalue
      · refine List.mem_of_ne_of_mem hne ?_
        rw [hmore]
        simp [hmem]
    rw [List.cons_append, List.append_assoc, List.cons_append, quotedValue?_quoted hvalue,
      quotedValue?_quoted hvalue, afterAttributeEnd?_append hlater, Option.map_map, Option.map_map]
    rfl
  · rw [List.cons_append, quotedValue?_of_ne hc, quotedValue?_of_ne hc]
    rfl

/-- A property that texts keep while a condition is read in them, up to its value. -/
structure KeptInside (P : List Char → Prop) : Prop where
  mem : ∀ {text}, P text → ']' ∈ text
  trim : ∀ {text}, P text → P (trimStart text)
  skip : ∀ {text}, P text → P (skipOne ['~', '|', '^', '$', '*'] text)
  afterClassWord : ∀ {text behind}, P text → afterClassWord? text = some behind → P behind
  afterEquals : ∀ {text behind}, P text → after? '=' text = some behind → P behind

/-- A condition is read alike with more behind it, if its value is. -/
theorem KeptInside.classAttribute?_append {P : List Char → Prop} (hP : KeptInside P)
    (hquoted : ∀ {quote}, quote = '"' ∨ quote = '\'' → ∀ {text}, P text →
      quotedValue? quote (text ++ rest) =
        (quotedValue? quote text).map fun found => (found.1, found.2 ++ rest))
    (htext : P text) :
    classAttribute? ('[' :: (text ++ rest)) =
      (classAttribute? ('[' :: text)).map fun found => (found.1, found.2 ++ rest) := by
  have hopen : ∀ text, after? '[' ('[' :: text) = some text := fun _ => rfl
  have hword := hP.trim htext
  rw [classAttribute?, classAttribute?]
  simp only [hopen, Option.bind_eq_bind, Option.bind_some, (trimStart_append (hP.mem htext) rest).2,
    afterClassWord?_append (hP.mem hword)]
  cases hafter : afterClassWord? (trimStart text) with
  | none => rfl
  | some behind =>
    have hinner := hP.afterClassWord hword hafter
    have hbehind := hP.trim hinner
    have hequals := hP.skip hbehind
    have hskip := (skipOne_append (show ['~', '|', '^', '$', '*'].contains ']' = false by decide)
      (hP.mem hbehind) rest).2
    simp only [Option.map_some, Option.bind_some, (trimStart_append (hP.mem hinner) rest).2, hskip,
      after?_append (List.ne_nil_of_mem (hP.mem hequals))]
    cases hvalue : after? '=' (skipOne ['~', '|', '^', '$', '*'] (trimStart behind)) with
    | none => rfl
    | some value =>
      have hrest := hP.afterEquals hequals hvalue
      have htrim := hP.trim hrest
      simp only [Option.map_some, Option.bind_some, (trimStart_append (hP.mem hrest) rest).2,
        hquoted (.inl rfl) htrim, hquoted (.inr rfl) htrim, bareValue?_append (hP.mem htrim)]
      cases quotedValue? '"' (trimStart value) <;> cases quotedValue? '\'' (trimStart value) <;>
        cases bareValue? (trimStart value) <;> rfl

/-- What is read of a condition does not depend on what stands behind its bracket. -/
theorem InCondition.classAttribute?_append (htext : InCondition text) (rest : List Char) :
    classAttribute? ('[' :: (text ++ rest)) =
      (classAttribute? ('[' :: text)).map fun found => (found.1, found.2 ++ rest) := by
  have hkept : KeptInside InCondition :=
    ⟨InCondition.mem, InCondition.trim, InCondition.skip (by decide), InCondition.afterClassWord,
      InCondition.after_equals⟩
  exact hkept.classAttribute?_append (fun hquote _ htext => htext.quotedValue?_append hquote rest)
    htext

/-! ## Conditions that are not cut -/

/-- No condition that begins in a text reaches over its end. -/
def Contained (text rest : List Char) : Prop :=
  ∀ front behind, text = front ++ '[' :: behind →
    classAttribute? ('[' :: (behind ++ rest)) =
      (classAttribute? ('[' :: behind)).map fun found => (found.1, found.2 ++ rest)

/-- No condition begins in a text. -/
def Conditionless (text : List Char) : Prop :=
  ∀ front behind, text = front ++ '[' :: behind → ∀ rest,
    classAttribute? ('[' :: (behind ++ rest)) = none

theorem conditionless_of_not_mem (htext : '[' ∉ text) : Conditionless text := by
  rintro front behind rfl
  simp at htext

theorem Conditionless.contained (htext : Conditionless text) : Contained text rest := by
  intro front behind hsplit
  have hnone := htext front behind hsplit []
  rw [List.append_nil] at hnone
  rw [htext front behind hsplit, hnone]
  rfl

theorem Conditionless.append {others : List Char} (htext : Conditionless text)
    (hothers : Conditionless others) : Conditionless (text ++ others) := by
  intro front behind hsplit rest
  rcases exists_of_append_eq hsplit with ⟨more, hmore, rfl⟩ | ⟨more, hmore⟩
  · rw [List.append_assoc]
    exact htext front more hmore _
  · exact hothers more behind hmore rest

/-- A condition that begins in the first of two texts may reach into the second. -/
theorem contained_append {others : List Char}
    (htext : ∀ front behind, text = front ++ '[' :: behind →
      classAttribute? ('[' :: (behind ++ (others ++ rest))) =
        (classAttribute? ('[' :: (behind ++ others))).map fun found => (found.1, found.2 ++ rest))
    (hothers : Contained others rest) : Contained (text ++ others) rest := by
  intro front behind hsplit
  rcases exists_of_append_eq hsplit with ⟨more, hmore, rfl⟩ | ⟨more, hmore⟩
  · rw [List.append_assoc]
    exact htext front more hmore
  · exact hothers more behind hmore

theorem IsString.conditionless (htext : IsString text) : Conditionless text := by
  intro front behind hsplit rest
  obtain ⟨hquote, -, hopen⟩ := htext
  rename_i quote content
  have hne : '[' ≠ quote := by rcases hquote with rfl | rfl <;> decide
  have hguard : isGuard quote = true := by rcases hquote with rfl | rfl <;> decide
  -- The bracket is neither of the quotes, so it stands between them.
  cases front with
  | nil => exact absurd (List.cons.inj hsplit).1.symm hne
  | cons d front =>
    obtain ⟨-, hsplit⟩ := List.cons.inj hsplit
    rcases exists_of_append_eq hsplit with ⟨more, hmore, rfl⟩ | ⟨more, hmore⟩
    · exact classAttribute?_of_guarded
        ((hopen front more hmore).append_of_mem (by simp) hguard rest)
    · have hmem : '[' ∈ [quote] := by simp [hmore]
      exact absurd (List.mem_singleton.mp hmem) hne

theorem eq_nil_of_escape {front behind : List Char} (hsplit : ['\\', c] = front ++ '[' :: behind) :
    behind = [] := by
  have hlengths := congrArg List.length hsplit
  cases front with
  | nil => simp at hsplit
  | cons d front =>
    rw [← List.length_eq_zero_iff]
    simp at hlengths
    omega

/-- Inside of a condition an escaped bracket may be taken for that of another, which
ends with it. -/
theorem contained_inner {inner : List Char} (hinner : MadeOf IsInnerPiece inner)
    (rest : List Char) : Contained (inner ++ [']']) rest := by
  induction hinner with
  | nil => exact (conditionless_of_not_mem (by decide)).contained
  | @cons piece inner hpiece hinner ih =>
    rw [List.append_assoc]
    refine contained_append ?_ ih
    intro front behind hsplit
    cases hpiece with
    | char hc =>
      have hmem : '[' ∈ front ++ '[' :: behind := by simp
      rw [← hsplit] at hmem
      obtain rfl := List.mem_singleton.mp hmem
      simp at hc
    | escape c =>
      obtain rfl := eq_nil_of_escape hsplit
      exact InCondition.classAttribute?_append ⟨inner, hinner, rfl⟩ rest
    | string hstring =>
      rw [hstring.conditionless _ _ hsplit, hstring.conditionless _ _ hsplit]
      rfl

theorem IsPiece.contained {piece : List Char} (hpiece : IsPiece piece) (hrest : Guarded rest) :
    Contained piece rest := by
  cases hpiece with
  | char hc =>
    refine (conditionless_of_not_mem fun hmem => hc ?_).contained
    rw [← List.mem_singleton.mp hmem]
    decide
  | escape c =>
    intro front behind hsplit
    obtain rfl := eq_nil_of_escape hsplit
    rw [List.nil_append, classAttribute?_of_guarded hrest,
      classAttribute?_of_guarded (guarded_of_not_mem List.not_mem_nil)]
    rfl
  | string hstring => exact hstring.conditionless.contained
  | @condition inner hinner =>
    intro front behind hsplit
    cases front with
    | nil =>
      obtain ⟨-, rfl⟩ := List.cons.inj hsplit
      exact InCondition.classAttribute?_append ⟨inner, hinner, rfl⟩ rest
    | cons d front =>
      exact contained_inner hinner rest front behind (List.cons.inj hsplit).2

theorem Lexed.guarded (hlexed : Lexed text) : Guarded text := by
  refine hlexed.piecewise (nested_guarded.piecewise 0) ?_
  intro piece hpiece
  cases hpiece with
  | char hc =>
    refine guarded_char ?_
    rintro rfl
    simp at hc
  | escape c => exact guarded_cons (by decide) (by decide) _
  | string hstring =>
    obtain ⟨rfl | rfl, -⟩ := hstring <;> exact guarded_cons (by decide) (by decide) _
  | condition _ => exact guarded_cons (by decide) (by decide) _

theorem Lexed.contained (hlexed : Lexed text) (hrest : Guarded rest) : Contained text rest := by
  induction hlexed with
  | nil => exact (conditionless_of_not_mem List.not_mem_nil).contained
  | @cons piece text hpiece htext ih =>
    have hguarded : Guarded text := Lexed.guarded htext
    refine contained_append ?_ ih
    intro front behind hsplit
    rw [hpiece.contained (hguarded.append hrest) front behind hsplit,
      hpiece.contained hguarded front behind hsplit, Option.map_map]
    simp [Function.comp_def]

/-! ## Classes -/

/-- The conditions that are found in a shaded text, without those that are hidden if
these are to be skipped. -/
def conditionsIn (skips : Bool) : Nat → List (Char × Bool) → List (List Char)
  | _, [] => []
  | read + 1, _ :: rest => conditionsIn skips read rest
  | 0, entry :: rest =>
    match classAttribute? (entry.1 :: rest.map (·.1)) with
    | some (value, behind) =>
      (if skips && entry.2 then [] else [value]) ++
        conditionsIn skips (rest.length - behind.length) rest
    | none => conditionsIn skips 0 rest

variable {skips : Bool} {shaded others : List (Char × Bool)} {read : Nat}

/-- Where no condition is cut, those before a place are found, and those behind it. -/
theorem conditionsIn_append (hcontained : Contained (shaded.map (·.1)) (others.map (·.1)))
    (hread : read ≤ shaded.length) :
    conditionsIn skips read (shaded ++ others) =
      conditionsIn skips read shaded ++ conditionsIn skips 0 others := by
  induction shaded generalizing read with
  | nil =>
    obtain rfl := Nat.le_zero.mp hread
    simp [conditionsIn]
  | cons entry shaded ih =>
    have hbehind : Contained (shaded.map (·.1)) (others.map (·.1)) := fun front behind hsplit =>
      hcontained (entry.1 :: front) behind (by rw [List.map_cons, hsplit, List.cons_append])
    cases read with
    | succ read =>
      rw [List.cons_append, conditionsIn, ih hbehind (by simpa using hread), conditionsIn]
    | zero =>
      have hsame : classAttribute? (entry.1 :: (shaded ++ others).map (·.1)) =
          (classAttribute? (entry.1 :: shaded.map (·.1))).map fun found =>
            (found.1, found.2 ++ others.map (·.1)) := by
        by_cases hopen : entry.1 = '['
        · have hfirst := hcontained [] (shaded.map (·.1)) (by rw [List.map_cons, hopen]; rfl)
          rw [hopen, List.map_append, hfirst]
        · rw [classAttribute?_of_ne hopen, classAttribute?_of_ne hopen]
          rfl
      rw [List.cons_append, conditionsIn, conditionsIn, hsame]
      cases classAttribute? (entry.1 :: shaded.map (·.1)) with
      | none => exact ih hbehind (Nat.zero_le _)
      | some found =>
        have hlength : (shaded ++ others).length - (found.2 ++ others.map (·.1)).length =
            shaded.length - found.2.length := by
          simp only [List.length_append, List.length_map]
          omega
        simp only [Option.map_some, hlength, ih hbehind (Nat.sub_le _ _), List.append_assoc]

/-- Where no bracket begins a condition, none is found. -/
theorem conditionsIn_of_none (hnone : ∀ front behind, shaded.map (·.1) = front ++ '[' :: behind →
      classAttribute? ('[' :: behind) = none) :
    conditionsIn skips 0 shaded = [] := by
  induction shaded with
  | nil => rfl
  | cons entry shaded ih =>
    have hfirst : classAttribute? (entry.1 :: shaded.map (·.1)) = none := by
      by_cases hopen : entry.1 = '['
      · rw [hopen]
        exact hnone [] (shaded.map (·.1)) (by rw [List.map_cons, hopen]; rfl)
      · exact classAttribute?_of_ne hopen _
    rw [conditionsIn, hfirst]
    exact ih fun front behind hsplit => hnone (entry.1 :: front) behind (by
      rw [List.map_cons, hsplit, List.cons_append])

theorem conditionsIn_of_conditionless (hshaded : Conditionless (shaded.map (·.1))) :
    conditionsIn skips 0 shaded = [] := by
  apply conditionsIn_of_none
  intro front behind hsplit
  simpa only [List.append_nil] using hshaded front behind hsplit []

/-- Conditions can be told by what is hidden as well as by their place. -/
theorem conditionsIn_eq (skips : Bool) (before : List (Char × Bool)) :
    ((classAttributes before.length read (shaded.map (·.1))).filter fun found =>
        !(skips && ((before ++ shaded)[found.1]?).any (·.2))).map (·.2) =
      conditionsIn skips read shaded := by
  induction shaded generalizing before read with
  | nil => rfl
  | cons entry shaded ih =>
    have hlater : ∀ read, ((classAttributes (before.length + 1) read (shaded.map (·.1))).filter
        fun found => !(skips && ((before ++ entry :: shaded)[found.1]?).any (·.2))).map (·.2) =
          conditionsIn skips read shaded := by
      intro read
      have hagain := @ih read (before ++ [entry])
      rwa [List.length_append, List.length_singleton, List.append_assoc,
        List.singleton_append] at hagain
    cases read with
    | succ read => exact hlater read
    | zero =>
      rw [List.map_cons, classAttributes, conditionsIn]
      cases classAttribute? (entry.1 :: shaded.map (·.1)) with
      | none => exact hlater 0
      | some found =>
        have hplace : (before ++ entry :: shaded)[before.length]? = some entry := by simp
        have hcount : (shaded.map (·.1)).length - found.2.length =
            shaded.length - found.2.length := by rw [List.length_map]
        simp only [hcount, List.filter_cons, hplace, Option.any_some]
        cases skips && entry.2 with
        | false => exact congrArg (found.1 :: ·) (hlater _)
        | true => exact hlater _

theorem map_fst_shade (negations : Bool) (s : Nesting) (text : List Char) :
    (shade negations s text).map (·.1) = text := by
  induction text generalizing s with
  | nil => rfl
  | cons c text ih => exact congrArg (c :: ·) (ih _)

/-- The classes of a selector, by conditions that are not skipped and by dots. -/
theorem classes_eq (skips : Bool) (text : List Char) :
    classes skips text = ((conditionsIn skips 0 (shade true {} text)).flatMap words ++
      dottedClasses (maskOf (shade skips {} text))).eraseReps := by
  have hconditions := @conditionsIn_eq (shade true {} text) 0 skips []
  rw [map_fst_shade] at hconditions
  rw [← hconditions, List.flatMap_map]
  rfl

end Deadwood.Css
