/-
# Selectors without the blanks around them

Blanks in front of a selector name no class and hide nothing. Behind it they do neither
as long as they are no part of what stands there: a blank beyond ASCII goes on with a
name, and a blank behind a backslash is escaped. One that ends an escape by number is
taken along with the name but does not count, so it can go.
-/

import Deadwood.Proofs.Stylesheet.Contained
import Deadwood.Proofs.Stylesheet.Stripping
import Deadwood.Proofs.Stylesheet.Uncut

namespace Deadwood.Css

open Deadwood.Text
open Deadwood.Selector (Nesting afterAttributeEnd? afterClassWord? bareValue? classAttribute?
  classes dottedNames hexDigits isPlain quotedValue? shade skipOne smallForm takeName unescape)

variable {c : Char} {text rest blanks : List Char}

theorem ne_of_isBlank {mark : Char} (hmark : isBlank mark = false) (hc : isBlank c = true) :
    c ≠ mark := by
  rintro rfl
  rw [hmark] at hc
  exact Bool.false_ne_true hc

theorem not_mem_of_isBlank {mark : Char} (hmark : isBlank mark = false)
    (hblanks : ∀ c ∈ blanks, isBlank c = true) : mark ∉ blanks :=
  fun hmem => ne_of_isBlank hmark (hblanks mark hmem) rfl

/-! ## Conditions before blanks -/

theorem after?_of_not_mem (htext : c ∉ text) : after? c text = none := by
  cases text with
  | nil => rfl
  | cons d text =>
    rw [List.mem_cons, not_or] at htext
    rw [after?, if_neg htext.1]

theorem mem_of_mem_skipOne {characters : List Char} (hc : c ∈ skipOne characters text) :
    c ∈ text := by
  cases text with
  | nil => exact hc
  | cons d text =>
    rw [skipOne] at hc
    split at hc
    · exact List.mem_cons_of_mem _ hc
    · exact hc

theorem mem_of_mem_trimStart (hc : c ∈ trimStart text) : c ∈ text :=
  (List.dropWhile_sublist _).subset hc

theorem mem_of_mem_after? {mark : Char} {behind : List Char} (hafter : after? mark text = some behind)
    (hc : c ∈ behind) : c ∈ text := by
  cases text with
  | nil => simp [after?] at hafter
  | cons d text =>
    rw [after?] at hafter
    split at hafter
    · obtain rfl := Option.some.inj hafter
      exact List.mem_cons_of_mem _ hc
    · simp at hafter

theorem mem_of_mem_afterClassWord? {behind : List Char} (hafter : afterClassWord? text = some behind)
    (hc : c ∈ behind) : c ∈ text := by
  unfold afterClassWord? at hafter
  split at hafter
  · obtain rfl := Option.some.inj hafter
    exact List.mem_of_mem_drop hc
  · simp at hafter

/-- A text between quotes is read to the second of them. Without it nothing is read,
whatever follows that has no such quote. -/
theorem quoted_or_unread (quote : Char) (text : List Char) :
    (∃ value later, quote ∉ value ∧ text = quote :: (value ++ quote :: later)) ∨
      ∀ rest, quote ∉ rest → quotedValue? quote (text ++ rest) = none := by
  have hother : ∀ text, quote ∉ text → quotedValue? quote text = none := by
    intro text htext
    simp [quotedValue?, readQuoted?, after?_of_not_mem htext]
  cases text with
  | nil => exact .inr fun rest hrest => hother rest hrest
  | cons c text =>
    by_cases hc : quote = c
    · subst hc
      by_cases hmem : quote ∈ text
      · obtain ⟨value, later, rfl, hvalue⟩ := List.eq_append_cons_of_mem hmem
        exact .inl ⟨value, later, hvalue, rfl⟩
      · refine .inr fun rest hrest => ?_
        have hunread : ∀ text, quote ∉ text → readUntil? (· == quote) text = none := by
          intro text htext
          induction text with
          | nil => rfl
          | cons d text ih =>
            rw [List.mem_cons, not_or] at htext
            simp [readUntil?, Ne.symm htext.1, ih htext.2]
        have hnone : quote ∉ text ++ rest := by simp [hmem, hrest]
        simp [quotedValue?, readQuoted?, after?, hunread _ hnone]
    · exact .inr fun rest _ => quotedValue?_of_ne hc _

theorem afterAttributeEnd?_of_not_mem (htext : ']' ∉ text) : afterAttributeEnd? text = none := by
  refine after?_of_not_mem fun hmem => htext ?_
  exact mem_of_mem_trimStart (mem_of_mem_skipOne (mem_of_mem_trimStart hmem))

/-- A condition ends with a bracket. -/
theorem classAttribute?_of_not_mem (htext : ']' ∉ text) : classAttribute? ('[' :: text) = none := by
  have hquoted : ∀ quote text, ']' ∉ text → quotedValue? quote text = none := by
    intro quote text htext
    rcases quoted_or_unread quote text with ⟨value, later, hvalue, rfl⟩ | hunread
    · have hlater : ']' ∉ later := fun hmem => htext (by simp [hmem])
      rw [quotedValue?_quoted hvalue, afterAttributeEnd?_of_not_mem hlater]
      rfl
    · simpa using hunread [] List.not_mem_nil
  have hbare : ∀ text, ']' ∉ text → bareValue? text = none := by
    intro text htext
    have hbehind : ']' ∉ text.dropWhile Selector.isValueChar := fun hmem =>
      htext ((List.dropWhile_sublist _).subset hmem)
    simp [bareValue?, afterAttributeEnd?_of_not_mem hbehind]
  have hopen : after? '[' ('[' :: text) = some text := rfl
  rw [classAttribute?]
  simp only [hopen, Option.bind_eq_bind, Option.bind_some]
  rw [Option.bind_eq_none_iff]
  intro behind hbehind
  rw [Option.bind_eq_none_iff]
  intro value hvalue
  have hmem : ']' ∉ trimStart value := by
    intro hmem
    have hmem := mem_of_mem_after? hvalue (mem_of_mem_trimStart hmem)
    have hmem := mem_of_mem_trimStart (mem_of_mem_skipOne hmem)
    exact htext (mem_of_mem_trimStart (mem_of_mem_afterClassWord? hbehind hmem))
  rw [hquoted _ _ hmem, hquoted _ _ hmem, hbare _ hmem]
  rfl

theorem keptInside_mem : KeptInside (']' ∈ ·) where
  mem htext := htext
  trim htext := (trimStart_append htext []).1
  skip htext := (skipOne_append (by decide) htext []).1
  afterClassWord := by
    intro text behind htext hafter
    unfold afterClassWord? at hafter
    split at hafter
    · rename_i hword
      obtain rfl := Option.some.inj hafter
      rw [← List.take_append_drop 5 text] at htext
      refine (List.mem_append.mp htext).resolve_left fun hmem => ?_
      have hletter := List.mem_map_of_mem (f := smallForm) hmem
      rw [eq_of_beq hword] at hletter
      exact absurd hletter (by decide)
    · simp at hafter
  afterEquals := by
    intro text behind htext hafter
    cases text with
    | nil => simp at htext
    | cons d text =>
      rw [after?] at hafter
      split at hafter
      · rename_i hd
        obtain rfl := Option.some.inj hafter
        exact List.mem_of_ne_of_mem (by rw [← hd]; decide) htext
      · simp at hafter

/-- Blanks behind a text belong to none of its conditions. -/
theorem contained_blanks (hblanks : ∀ c ∈ blanks, isBlank c = true) (text : List Char) :
    Contained text blanks := by
  have hbracket : ']' ∉ blanks := not_mem_of_isBlank (by decide) hblanks
  have hend : ∀ text, afterAttributeEnd? (text ++ blanks) =
      (afterAttributeEnd? text).map (· ++ blanks) := by
    intro text
    by_cases hmem : ']' ∈ text
    · exact afterAttributeEnd?_append hmem blanks
    · rw [afterAttributeEnd?_of_not_mem hmem, afterAttributeEnd?_of_not_mem (by simp [hmem, hbracket])]
      rfl
  have hquoted : ∀ {quote}, quote = '"' ∨ quote = '\'' → ∀ {text : List Char}, ']' ∈ text →
      quotedValue? quote (text ++ blanks) =
        (quotedValue? quote text).map fun found => (found.1, found.2 ++ blanks) := by
    intro quote hquote text _
    have hnone : quote ∉ blanks := by
      rcases hquote with rfl | rfl <;> exact not_mem_of_isBlank (by decide) hblanks
    rcases quoted_or_unread quote text with ⟨value, later, hvalue, rfl⟩ | hunread
    · rw [List.cons_append, List.append_assoc, List.cons_append, quotedValue?_quoted hvalue,
        quotedValue?_quoted hvalue, hend, Option.map_map, Option.map_map]
      rfl
    · have hplain := hunread [] List.not_mem_nil
      rw [List.append_nil] at hplain
      rw [hunread blanks hnone, hplain]
      rfl
  intro front behind _
  by_cases hmem : ']' ∈ behind
  · exact keptInside_mem.classAttribute?_append hquoted hmem
  · rw [classAttribute?_of_not_mem hmem, classAttribute?_of_not_mem (by simp [hmem, hbracket])]
    rfl

/-! ## Names before blanks -/

/-- Blanks that are no part of a name. -/
def isBareBlank (c : Char) : Bool :=
  isBlank c && !isPlain c

theorem stops_of_isBareBlank (hc : isBareBlank c = true) (rest : List Char) : Stops (c :: rest) := by
  simp only [isBareBlank, Bool.and_eq_true, Bool.not_eq_true'] at hc
  rintro d hd
  obtain rfl := Option.some.inj hd
  exact ⟨hc.2, ne_of_isBlank (by decide) hc.1⟩

theorem isBlank_of_isBareBlank (hc : isBareBlank c = true) : isBlank c = true :=
  (Bool.and_eq_true _ _ ▸ hc).1

theorem unescape_escape (hhex : isHexDigit c = false) (text : List Char) :
    unescape 0 ('\\' :: c :: text) = c :: unescape 0 text := by
  have hdigits : hexDigits (c :: text) = [] := by simp [hexDigits, hhex]
  simp [unescape, hdigits]

/-- A blank ends the name that stands before it, or it belongs to the escape by number
with which all of the text before it ends as a name. -/
def EndsName (text : List Char) (blank : Char) : Prop :=
  takeName 0 (text ++ [blank]) = takeName 0 text ∨
    takeName 0 text = text ∧ takeName 0 (text ++ [blank]) = text ++ [blank] ∧
      unescape 0 (text ++ [blank]) = unescape 0 text

variable {blank : Char}

theorem EndsName.cons (hends : EndsName text blank) (hc : c ≠ '\\') :
    EndsName (c :: text) blank := by
  cases hplain : isPlain c with
  | false => exact .inl (by simp [takeName, hplain, hc])
  | true =>
    rcases hends with hsame | ⟨hwhole, htaken, hvalue⟩
    · exact .inl (by simp [takeName, hplain, hsame])
    · exact .inr ⟨by simp [takeName, hplain, hwhole], by simp [takeName, hplain, htaken],
        by simp [unescape, hc, hvalue]⟩

theorem EndsName.escape (hends : EndsName text blank) (hhex : isHexDigit c = false) :
    EndsName ('\\' :: c :: text) blank := by
  have htake := takeName_escape hhex
  by_cases hline : c = '\n'
  · refine .inl ?_
    rw [List.cons_append, List.cons_append, htake, htake, if_pos hline, if_pos hline]
  · rcases hends with hsame | ⟨hwhole, htaken, hvalue⟩
    · exact .inl (by simp [htake, hline, hsame])
    · exact .inr ⟨by simp [htake, hline, hwhole], by simp [htake, hline, htaken],
        by simp [unescape_escape hhex, hvalue]⟩

theorem EndsName.number (hends : EndsName (behindBlank text) blank) {digits : List Char}
    (hpos : 0 < digits.length) (hmost : digits.length ≤ 6)
    (hdigits : ∀ c ∈ digits, isHexDigit c = true) (hne : text ≠ [])
    (hend : digits.length = 6 ∨ text.head?.any isHexDigit = false) :
    EndsName ('\\' :: (digits ++ text)) blank := by
  obtain ⟨c, text, rfl⟩ := List.exists_cons_of_ne_nil hne
  have hread : hexDigits (digits ++ (c :: text)) = digits := hexDigits_append hmost hdigits hend
  have hreadMore : hexDigits (digits ++ (c :: text ++ [blank])) = digits :=
    hexDigits_append hmost hdigits hend
  have htakes : takenBlank (c :: text ++ [blank]) = takenBlank (c :: text) := rfl
  have hbehind : behindBlank (c :: text ++ [blank]) = behindBlank (c :: text) ++ [blank] := by
    cases hblank : isBlank c <;> simp [behindBlank, hblank]
  have hwhole : takenBlank (c :: text) ++ behindBlank (c :: text) = c :: text :=
    takenBlank_append_behindBlank _
  rw [EndsName, List.cons_append, List.append_assoc, takeName_number hpos hread,
    takeName_number hpos hreadMore, unescape_number hpos hread, unescape_number hpos hreadMore,
    htakes, hbehind]
  rcases hends with hsame | ⟨hall, htaken, hvalue⟩
  · exact .inl (by rw [hsame])
  · refine .inr ⟨by rw [hall, hwhole], ?_, by rw [hvalue]⟩
    rw [htaken, ← List.append_assoc (takenBlank _), hwhole]

theorem endsName_lastNumber (hblank : isBareBlank blank = true) {digits : List Char}
    (hpos : 0 < digits.length) (hmost : digits.length ≤ 6)
    (hdigits : ∀ c ∈ digits, isHexDigit c = true) : EndsName ('\\' :: digits) blank := by
  have hread : hexDigits (digits ++ []) = digits := hexDigits_append hmost hdigits (.inr rfl)
  have hreadMore : hexDigits (digits ++ [blank]) = digits :=
    hexDigits_append hmost hdigits (.inr (stops_of_isBareBlank hblank []).not_isHexDigit)
  have htaken : takenBlank [blank] = [blank] := by
    simp [takenBlank, isBlank_of_isBareBlank hblank]
  have hbehind : behindBlank [blank] = [] := by
    simp [behindBlank, isBlank_of_isBareBlank hblank]
  have htake := takeName_number hpos hread
  have hvalue := unescape_number hpos hread
  rw [List.append_nil] at htake hvalue
  refine .inr ⟨?_, ?_, ?_⟩
  · rw [htake]
    simp [takenBlank, behindBlank, takeName]
  · rw [List.cons_append, takeName_number hpos hreadMore, htaken, hbehind]
    simp [takeName]
  · rw [List.cons_append, unescape_number hpos hreadMore, hvalue, hbehind]
    rfl

theorem endsName (hblank : isBareBlank blank = true) (hescape : escapeAt text ≠ some 0) :
    EndsName text blank := by
  induction hlength : text.length using Nat.strong_induction_on generalizing text with
  | _ length ih =>
    cases text with
    | nil => exact .inl (stops_of_isBareBlank hblank []).takeName
    | cons c text =>
      by_cases hbackslash : c = '\\'
      · subst hbackslash
        obtain ⟨digits, more, rfl, hmost, hdigits, hend⟩ := exists_digits text
        by_cases hpos : 0 < digits.length
        · by_cases hne : more = []
          · subst hne
            rw [List.append_nil]
            exact endsName_lastNumber hblank hpos hmost hdigits
          · rw [escapeAt_number hpos hmost hdigits hne hend, ← escapeAt_behindBlank] at hescape
            refine (ih _ ?_ hescape rfl).number hpos hmost hdigits hne hend
            have hshorter := length_behindBlank_le more
            simp at hlength
            omega
        · obtain rfl := List.length_eq_zero_iff.mp (Nat.eq_zero_of_not_pos hpos)
          cases more with
          | nil => exact absurd rfl hescape
          | cons d more =>
            have hhex : isHexDigit d = false := by simpa using hend
            rw [List.nil_append, escapeAt_escape hhex] at hescape
            exact (ih more.length (by simp at hlength; omega) hescape rfl).escape hhex
      · rw [escapeAt_cons hbackslash] at hescape
        exact (ih text.length (by simp [← hlength]) hescape rfl).cons hbackslash

/-- A blank behind a text adds no class by a dot and takes none away. -/
theorem dottedClasses_append_blank (hblank : isBareBlank blank = true)
    (hescape : escapeAt text ≠ some 0) :
    dottedClasses (text ++ [blank]) = dottedClasses text := by
  have hdot : blank ≠ '.' := ne_of_isBlank (by decide) (isBlank_of_isBareBlank hblank)
  have hstops := (stops_of_isBareBlank hblank []).takeName
  -- Only what stands behind a dot matters, and there no escape is under way.
  have hnames : ∀ front behind, text = front ++ '.' :: behind → EndsName behind blank := by
    rintro front behind rfl
    rw [escapeAt_append_cons (by decide) (by decide)] at hescape
    exact endsName hblank hescape
  clear hescape
  suffices hread : ∀ read ≤ text.length, (dottedNames read (text ++ [blank])).map (unescape 0) =
      (dottedNames read text).map (unescape 0) from hread 0 (Nat.zero_le _)
  induction text with
  | nil =>
    intro read hread
    obtain rfl := Nat.le_zero.mp hread
    simp [dottedNames, hdot]
  | cons c text ih =>
    have hagain := ih fun front behind hsplit => hnames (c :: front) behind (by rw [hsplit]; rfl)
    intro read hread
    cases read with
    | succ read => exact hagain read (by simpa using hread)
    | zero =>
      rw [List.cons_append, dottedNames, dottedNames]
      by_cases hc : c = '.'
      · subst hc
        rw [if_pos rfl, if_pos rfl]
        rcases hnames [] text rfl with hsame | ⟨hwhole, htaken, hvalue⟩
        · simp only [hsame]
          split
          · exact hagain 0 (Nat.zero_le _)
          · rw [List.map_cons, List.map_cons, hagain _ (length_takeName_le 0 text)]
        · have hne : text ≠ [] := by
            rintro rfl
            rw [List.nil_append, hstops] at htaken
            simp at htaken
          simp only [hwhole, htaken]
          rw [if_neg (by simp), if_neg (by simpa using hne), dottedNames_eq, dottedNames_eq text.length]
          simp [hvalue, dottedNames]
      · rw [if_neg hc, if_neg hc]
        exact hagain 0 (Nat.zero_le _)

theorem dottedClasses_append_blanks (hblanks : ∀ c ∈ blanks, isBareBlank c = true)
    (hescape : escapeAt text ≠ some 0) :
    dottedClasses (text ++ blanks) = dottedClasses text := by
  induction blanks generalizing text with
  | nil => rw [List.append_nil]
  | cons blank blanks ih =>
    have hblank := hblanks blank List.mem_cons_self
    have hstops := stops_of_isBareBlank hblank []
    have hhex : isHexDigit blank = false := by simpa using hstops.not_isHexDigit
    have hclosed : escapeAt (text ++ [blank]) ≠ some 0 := by
      rw [escapeAt_append_cons hhex (hstops blank rfl).2]
      simp [escapeAt]
    have hagain := ih (fun c hc => hblanks c (List.mem_cons_of_mem _ hc)) hclosed
    rw [List.append_assoc, List.singleton_append] at hagain
    rw [hagain, dottedClasses_append_blank hblank hescape]

/-! ## Classes and blanks -/

theorem mem_maskOf {shaded : List (Char × Bool)} (hc : c ∈ maskOf shaded) :
    c = ' ' ∨ c ∈ shaded.map (·.1) := by
  obtain ⟨⟨d, hidden⟩, hentry, hc⟩ := List.mem_flatMap.mp hc
  cases hidden with
  | true => exact .inl (List.eq_of_mem_replicate (by simpa using hc))
  | false =>
    obtain rfl : c = d := by simpa using hc
    exact .inr (List.mem_map_of_mem hentry)

/-- No escape is under way behind a mask if there is none behind the text. -/
theorem escapeAt_mask_ne (negations : Bool) (hescape : escapeAt text ≠ some 0) :
    escapeAt (maskOf (shade negations {} text)) ≠ some 0 := by
  have hstart : Agrees {} none none := ⟨by decide, fun _ => rfl, fun _ => rfl⟩
  have hagrees : Agrees (endOf negations {} text) (escapeAt text)
      (escapeAt (maskOf (shade negations {} text))) := hstart.run text
  cases hhides : (endOf negations {} text).hides with
  | false => rwa [hagrees.visible hhides]
  | true => simp [hagrees.hidden hhides]

theorem classes_append_blanks (hblanks : ∀ c ∈ blanks, isBareBlank c = true)
    (hescape : escapeAt text ≠ some 0) (skips : Bool) :
    classes skips (text ++ blanks) = classes skips text := by
  have hall : ∀ c ∈ blanks, isBlank c = true := fun c hc => isBlank_of_isBareBlank (hblanks c hc)
  have hshade : ∀ negations, shade negations {} (text ++ blanks) =
      shade negations {} text ++ shade negations (endOf negations {} text) blanks := by
    intro negations
    refine shade_append fun c hc => ?_
    have hblank := hall c (List.mem_of_mem_head? hc)
    rw [toLower_of_isBlank hblank]
    intro hmem
    have hnone : ['n', 'o', 't', '('].all (!isBlank ·) = true := by decide
    simpa [hblank] using List.all_eq_true.mp hnone c hmem
  have hconditions : conditionsIn skips 0 (shade true {} (text ++ blanks)) =
      conditionsIn skips 0 (shade true {} text) := by
    have hnone : conditionsIn skips 0 (shade true (endOf true {} text) blanks) = [] := by
      apply conditionsIn_of_conditionless
      rw [map_fst_shade]
      exact conditionless_of_not_mem (not_mem_of_isBlank (by decide) hall)
    rw [hshade, conditionsIn_append ?_ (Nat.zero_le _), hnone, List.append_nil]
    rw [map_fst_shade, map_fst_shade]
    exact contained_blanks hall text
  have hdotted : dottedClasses (maskOf (shade skips {} (text ++ blanks))) =
      dottedClasses (maskOf (shade skips {} text)) := by
    rw [hshade, maskOf_append]
    refine dottedClasses_append_blanks (fun c hc => ?_) (escapeAt_mask_ne skips hescape)
    rcases mem_maskOf hc with rfl | hc
    · decide
    · rw [map_fst_shade] at hc
      exact hblanks c hc
  rw [classes_eq, classes_eq, hconditions, hdotted]

theorem classes_blanks_append (hblanks : ∀ c ∈ blanks, isBlank c = true) (text : List Char)
    (skips : Bool) : classes skips (blanks ++ text) = classes skips text := by
  have hshade : ∀ negations, shade negations {} (blanks ++ text) =
      blanks.map (·, false) ++ shade negations {} text := by
    intro negations
    refine ((piecewise_leads negations {} false).of_forall fun c hc => ?_).shade text
    refine leads_mute 0 fun hmem => ?_
    have hnone : ['\\', '"', '\'', '[', ']', '(', ')', ':'].all (!isBlank ·) = true := by decide
    simpa [hblanks c hc] using List.all_eq_true.mp hnone c hmem
  have hconditions : conditionsIn skips 0 (shade true {} (blanks ++ text)) =
      conditionsIn skips 0 (shade true {} text) := by
    have hnone : Conditionless ((blanks.map (·, false)).map (·.1)) := by
      rw [map_fst_shaded]
      exact conditionless_of_not_mem (not_mem_of_isBlank (by decide) hblanks)
    rw [hshade, conditionsIn_append hnone.contained (Nat.zero_le _),
      conditionsIn_of_conditionless hnone, List.nil_append]
  rw [classes_eq, classes_eq, hconditions, hshade, maskOf_append, maskOf_visible,
    dottedClasses_append (not_mem_of_isBlank (by decide) hblanks)]

/-! ## Trimming -/

/-- The blanks at the end of a text. -/
def endBlanks (text : List Char) : List Char :=
  (text.reverse.takeWhile isBlank).reverse

theorem isBlank_of_mem_endBlanks (hc : c ∈ endBlanks text) : isBlank c = true :=
  List.all_eq_true.mp List.all_takeWhile c (List.mem_reverse.mp hc)

theorem trimEnd_append_endBlanks (text : List Char) : trimEnd text ++ endBlanks text = text := by
  rw [trimEnd, endBlanks, ← List.reverse_append, List.takeWhile_append_dropWhile,
    List.reverse_reverse]

/-- A text is its trimmed form with blanks around it. -/
theorem exists_trim (text : List Char) :
    ∃ front, (∀ c ∈ front, isBlank c = true) ∧
      text = front ++ (trim text ++ endBlanks (trimStart text)) := by
  refine ⟨text.takeWhile isBlank, List.all_eq_true.mp List.all_takeWhile, ?_⟩
  rw [trim, trimEnd_append_endBlanks]
  exact List.takeWhile_append_dropWhile.symm

theorem trim_blanks_append (hblanks : ∀ c ∈ blanks, isBlank c = true) (text : List Char) :
    trim (blanks ++ text) = trim text := by
  rw [trim, trimStart, List.dropWhile_append_of_pos hblanks]
  rfl

theorem trim_trim (text : List Char) : trim (trim text) = trim text := by
  have hhead : (trim text).head?.any isBlank = false := by
    have hwhole := trimEnd_append_endBlanks (trimStart text)
    have hfirst := List.head?_dropWhile_not isBlank text
    cases htrim : trim text with
    | nil => rfl
    | cons c more =>
      rw [← trim, htrim] at hwhole
      rw [← trimStart, ← hwhole] at hfirst
      simpa using hfirst
  have hlast : (trim text).getLast?.any isBlank = false := by
    have hfirst := List.head?_dropWhile_not isBlank (trimStart text).reverse
    rw [trim, trimEnd, List.getLast?_reverse]
    cases hdrop : (trimStart text).reverse.dropWhile isBlank with
    | nil => rfl
    | cons c more =>
      rw [hdrop] at hfirst
      simpa using hfirst
  rw [trim, trimStart_of_head hhead, trimEnd_of_getLast hlast]

/-- The blanks at the end of a selector are no part of what stands before them. -/
def isTrimmable (selector : List Char) : Bool :=
  let behind := endBlanks (trimStart selector)
  behind.all isBareBlank && (behind.isEmpty || escapeAt (trim selector) != some 0)

/-- A selector without such blanks names the same classes. -/
theorem classes_trim {selector : List Char} (htrimmable : isTrimmable selector = true)
    (skips : Bool) : classes skips (trim selector) = classes skips selector := by
  simp only [isTrimmable, Bool.and_eq_true, Bool.or_eq_true, List.all_eq_true, bne_iff_ne,
    List.isEmpty_iff] at htrimmable
  obtain ⟨front, hfront, hwhole⟩ := exists_trim selector
  have hbehind : classes skips (trim selector ++ endBlanks (trimStart selector)) =
      classes skips (trim selector) := by
    rcases htrimmable.2 with hnone | hescape
    · rw [hnone, List.append_nil]
    · exact classes_append_blanks htrimmable.1 hescape skips
  rw [← hbehind, ← classes_blanks_append hfront, ← hwhole]

end Deadwood.Css
