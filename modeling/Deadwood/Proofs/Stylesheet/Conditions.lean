/-
# Conditions found in a selector

Conditions on the class attribute are searched for in the text of a selector, and
those that begin where something is hidden are passed over. What is found of a clear
selector is the value of one of its own conditions.

An escaped bracket can be seen as well. It is taken for no condition, because what
follows it has no equals sign where a condition has its own.
-/

import Deadwood.Proofs.Stylesheet.Matching
import Deadwood.Proofs.Stylesheet.Shading

namespace Deadwood.Css

open Deadwood.Text
open Deadwood.Selector (isPlain classAttribute? afterClassWord? afterAttributeEnd? quotedValue?
  bareValue? classAttributes skipOne
  smallForm isValueChar)

variable {c : Char} {text rest : List Char}

/-- Conditions begin with a bracket. -/
theorem classAttribute?_of_ne (hc : c ≠ '[') (text : List Char) :
    classAttribute? (c :: text) = none := by
  simp [classAttribute?, after?, Ne.symm hc]

theorem exists_cons_of_classAttribute? {value behind : List Char}
    (hfound : classAttribute? text = some (value, behind)) : ∃ more, text = '[' :: more := by
  cases text with
  | nil => simp [classAttribute?, after?] at hfound
  | cons c more =>
    refine ⟨more, ?_⟩
    by_contra hne
    rw [classAttribute?_of_ne fun hc => hne (by rw [hc])] at hfound
    simp at hfound

/-! ## Guarded texts -/

/-- Characters that no condition has before its equals sign. -/
def isGuard (c : Char) : Bool :=
  !(isBlank c || "class".toList.contains (smallForm c) || ['~', '|', '^', '$', '*'].contains c)

/-- The first of these characters in a text, if there is one, is no equals sign. -/
def Guarded (text : List Char) : Prop :=
  text.find? isGuard ≠ some '='

theorem Guarded.append (htext : Guarded text) (hrest : Guarded rest) : Guarded (text ++ rest) := by
  rw [Guarded, List.find?_append]
  cases hfound : text.find? isGuard with
  | none => exact hrest
  | some c => rwa [Guarded, hfound] at htext

theorem Guarded.left (hguarded : Guarded (text ++ rest)) : Guarded text := by
  intro hfound
  rw [Guarded, List.find?_append, hfound] at hguarded
  exact hguarded rfl

/-- Behind one of these characters anything may stand. -/
theorem Guarded.append_of_mem (hguarded : Guarded text) (hmem : c ∈ text) (hc : isGuard c = true)
    (rest : List Char) : Guarded (text ++ rest) := by
  obtain ⟨d, hd⟩ := Option.isSome_iff_exists.mp (List.find?_isSome.mpr ⟨c, hmem, hc⟩)
  rw [Guarded, List.find?_append, hd]
  rwa [Guarded, hd] at hguarded

theorem guarded_of_not_mem (htext : '=' ∉ text) : Guarded text :=
  fun hfound => htext (List.mem_of_find?_eq_some hfound)

theorem guarded_of_ordinary (htext : ∀ c ∈ text, isOrdinary c = true) : Guarded text := by
  apply guarded_of_not_mem
  intro hmem
  exact absurd (htext '=' hmem) (by decide)

theorem guarded_cons (hc : isGuard c = true) (hne : c ≠ '=') (rest : List Char) :
    Guarded (c :: rest) := by
  rw [Guarded, List.find?_cons_of_pos hc]
  exact fun hsame => hne (Option.some.inj hsame)

/-- What comes before the first of these characters can be left out. -/
theorem Guarded.of_append (hguarded : Guarded (text ++ rest))
    (htext : ∀ c ∈ text, isGuard c = false) : Guarded rest := by
  rw [Guarded, List.find?_append, List.find?_eq_none.mpr] at hguarded
  · exact hguarded
  · intro c hc
    rw [htext c hc]
    exact Bool.false_ne_true

theorem Guarded.trimStart (hguarded : Guarded text) : Guarded (trimStart text) := by
  have hsplit : text = text.takeWhile isBlank ++ Text.trimStart text :=
    List.takeWhile_append_dropWhile.symm
  rw [hsplit] at hguarded
  apply hguarded.of_append
  intro c hc
  simp [isGuard, List.all_eq_true.mp List.all_takeWhile c hc]

theorem guarded_skipOne {characters : List Char}
    (hcharacters : characters.any isGuard = false)
    (hguarded : Guarded text) : Guarded (skipOne characters text) := by
  cases text with
  | nil => exact hguarded
  | cons c rest =>
    rw [skipOne]
    split
    · rename_i hmem
      have hsplit : Guarded ([c] ++ rest) := hguarded
      apply hsplit.of_append
      intro d hd
      rw [List.mem_singleton.mp hd]
      simpa using List.any_eq_false.mp hcharacters c (List.contains_iff_mem.mp hmem)
    · exact hguarded

theorem guarded_afterClassWord (hguarded : Guarded text)
    (hafter : afterClassWord? text = some rest) : Guarded rest := by
  unfold afterClassWord? at hafter
  split at hafter
  · rename_i hword
    obtain rfl := Option.some.inj hafter
    rw [← List.take_append_drop 5 text] at hguarded
    apply hguarded.of_append
    intro c hc
    have hletter : "class".toList.contains (smallForm c) = true := by
      rw [List.contains_iff_mem, ← eq_of_beq hword]
      exact List.mem_map_of_mem hc
    rw [isGuard, hletter, Bool.or_true, Bool.true_or, Bool.not_true]
  · simp at hafter

/-- No condition begins before a guarded text. -/
theorem classAttribute?_of_guarded (hguarded : Guarded text) :
    classAttribute? ('[' :: text) = none := by
  have hequals : ∀ behind, Guarded behind → after? '=' behind = none := by
    intro behind hbehind
    cases behind with
    | nil => rfl
    | cons d more =>
      rw [after?, if_neg]
      rintro rfl
      exact hbehind (List.find?_cons_of_pos (by decide))
  have hopen : after? '[' ('[' :: text) = some text := rfl
  rw [classAttribute?]
  simp only [hopen, Option.bind_eq_bind, Option.bind_some]
  rw [Option.bind_eq_none_iff]
  intro behind hbehind
  have hbehind := (guarded_afterClassWord hguarded.trimStart hbehind).trimStart
  rw [hequals _ (guarded_skipOne (by decide) hbehind)]
  rfl

/-! ## Reading a clear condition -/

theorem trimStart_gap (gap : Gap) (rest : List Char) :
    trimStart (gap.text ++ rest) = trimStart rest := by
  refine List.dropWhile_append_of_pos fun c hc => ?_
  exact isBlank_of_isAsciiBlank (List.all_eq_true.mp gap.blank c hc)

theorem trimStart_cons (hc : isBlank c = false) (rest : List Char) :
    trimStart (c :: rest) = c :: rest := by
  rw [trimStart, List.dropWhile_cons_of_neg]
  simp [hc]

/-- The end of a condition is read, with or without a flag. -/
theorem Attribute.afterAttributeEnd? (a : Attribute) (rest : List Char) :
    afterAttributeEnd? (a.ending ++ rest) = some rest := by
  have hclose : trimStart (a.behindFlag.text ++ ']' :: rest) = ']' :: rest := by
    rw [trimStart_gap, trimStart_cons (by decide)]
  cases hflag : a.flag with
  | none =>
    have hskip : skipOne ['i', 'I', 's', 'S'] (']' :: rest) = ']' :: rest := rfl
    simp only [Attribute.ending, hflag, Option.toList_none, List.nil_append, List.append_assoc,
      List.singleton_append, Selector.afterAttributeEnd?, trimStart_gap, hclose, hskip,
      trimStart_cons (show isBlank ']' = false by decide)]
    rfl
  | some c =>
    have hknown := a.isFlag
    rw [hflag, Option.all_some] at hknown
    have hskip : ∀ behind, skipOne ['i', 'I', 's', 'S'] (c :: behind) = behind := by
      intro behind
      rw [skipOne, if_pos hknown]
    have hflags : ['i', 'I', 's', 'S'].any isBlank = false := by decide
    have hblank : isBlank c = false := by
      simpa using List.any_eq_false.mp hflags c (List.contains_iff_mem.mp hknown)
    simp only [Attribute.ending, hflag, Option.toList_some, List.append_assoc,
      List.cons_append, List.nil_append, Selector.afterAttributeEnd?, trimStart_gap,
      trimStart_cons hblank, hskip, hclose]
    rfl

theorem readUntil?_append {quote : Char} (htext : quote ∉ text) (rest : List Char) :
    readUntil? (· == quote) (text ++ quote :: rest) = some (text, rest) := by
  induction text with
  | nil => simp [readUntil?]
  | cons c text ih =>
    rw [List.mem_cons, not_or] at htext
    simp [readUntil?, Ne.symm htext.1, ih htext.2]

/-- Letters without escapes are written as what they stand for. -/
theorem textOf_of_plain {letters : List Letter} {test : Char → Bool}
    (hplain : letters.all (fun letter => match letter with
      | .plain c => test c
      | _ => false) = true) :
    textOf letters = valueOf letters ∧ ∀ c ∈ valueOf letters, test c = true ∧
      .plain c ∈ letters := by
  induction letters with
  | nil => simp [textOf, valueOf]
  | cons letter letters ih =>
    rw [List.all_cons, Bool.and_eq_true] at hplain
    obtain ⟨hsame, hmem⟩ := ih hplain.2
    cases letter with
    | plain c =>
      refine ⟨congrArg (c :: ·) hsame, ?_⟩
      intro d hd
      rcases List.mem_cons.mp hd with rfl | hd
      · exact ⟨hplain.1, List.mem_cons_self⟩
      · exact ⟨(hmem d hd).1, List.mem_cons_of_mem _ (hmem d hd).2⟩
    | escaped c => simp at hplain
    | number digits blank => simp at hplain

theorem isValid_of_mem {asItself escapable : Char → Bool} {letters : List Letter}
    (hspelled : areSpelled asItself escapable letters = true) {letter : Letter}
    (hletter : letter ∈ letters) : letter.isValid asItself escapable = true := by
  induction letters with
  | nil => simp at hletter
  | cons first letters ih =>
    simp only [areSpelled, Bool.and_eq_true] at hspelled
    rcases List.mem_cons.mp hletter with rfl | hletter
    · exact hspelled.1.1
    · exact ih hspelled.2 hletter

theorem quotedValue?_of_ne {quote : Char} (hne : quote ≠ c) (rest : List Char) :
    quotedValue? quote (c :: rest) = none := by
  simp [quotedValue?, readQuoted?, after?, hne]

theorem Attribute.quotedValue? (a : Attribute) {quote : Char} (htext : quote ∉ text)
    (rest : List Char) :
    quotedValue? quote (quote :: (text ++ quote :: (a.ending ++ rest))) = some (text, rest) := by
  simp [Selector.quotedValue?, readQuoted?, after?, readUntil?_append htext, a.afterAttributeEnd?]

theorem Gap.not_isValueChar (gap : Gap) (hc : c ∈ gap.text) : isValueChar c = false := by
  simp [isValueChar, isBlank_of_isAsciiBlank (List.all_eq_true.mp gap.blank c hc)]

/-- Either a blank or the bracket ends a value without quotes: a flag stands behind a
blank. -/
theorem Attribute.exists_ending (a : Attribute) (hbare : a.value.isBare = true) :
    ∃ c more, a.ending = c :: more ∧ isValueChar c = false := by
  have hvalue : ∀ c ∈ a.behindValue.text, isValueChar c = false := fun c =>
    a.behindValue.not_isValueChar
  have hlast : ∀ c ∈ a.behindFlag.text, isValueChar c = false := fun c =>
    a.behindFlag.not_isValueChar
  rw [Attribute.ending]
  cases hgap : a.behindValue.text with
  | cons c more => exact ⟨c, _, rfl, hvalue c (by simp [hgap])⟩
  | nil =>
    have hflag : a.flag = none := by
      cases hflag : a.flag with
      | none => rfl
      | some flag => exact absurd hgap (a.apart hbare (by simp [hflag]))
    rw [hflag]
    cases hbracket : a.behindFlag.text with
    | nil => exact ⟨']', [], rfl, by decide⟩
    | cons c more => exact ⟨c, _, rfl, hlast c (by simp [hbracket])⟩

theorem Attribute.bareValue? (a : Attribute) (hbare : a.value.isBare = true) (hne : text ≠ [])
    (htext : ∀ c ∈ text, isPlain c = true ∧ isBlank c = false) (rest : List Char) :
    bareValue? (text ++ (a.ending ++ rest)) = some (text, rest) := by
  have hvalue : ∀ c ∈ text, isValueChar c = true := by
    intro c hc
    obtain ⟨hplain, hblank⟩ := htext c hc
    have hbracket : c ≠ ']' := by
      rintro rfl
      exact absurd hplain (by decide)
    simp [isValueChar, hblank, hbracket]
  obtain ⟨c, more, hending, hc⟩ := a.exists_ending hbare
  have htake : (text ++ (a.ending ++ rest)).takeWhile isValueChar = text := by
    rw [List.takeWhile_append_of_pos hvalue, hending, List.cons_append,
      List.takeWhile_cons_of_neg (by simp [hc]), List.append_nil]
  have hdrop : (text ++ (a.ending ++ rest)).dropWhile isValueChar = a.ending ++ rest := by
    rw [List.dropWhile_append_of_pos hvalue, hending, List.cons_append,
      List.dropWhile_cons_of_neg (by simp [hc])]
  simp [Selector.bareValue?, htake, hdrop, a.afterAttributeEnd?, hne]

/-- A clear value without quotes is written as it is, and has no blanks. -/
theorem bare_of_isClear {name : Name} (hclear : (Value.bare name).isClear = true) :
    name.text = name.value ∧ ∀ c ∈ name.value, isPlain c = true ∧ isBlank c = false := by
  obtain ⟨hsame, hmem⟩ := textOf_of_plain hclear
  refine ⟨hsame, ?_⟩
  intro c hc
  have hplain : isPlain c = true := isValid_of_mem name.spelled (hmem c hc).2
  have hblank := (hmem c hc).1
  rw [not_isAsciiBlank_of_isPlain hplain, Bool.or_false, Bool.not_eq_true'] at hblank
  exact ⟨hplain, hblank⟩

theorem exists_of_isClear {name : Name} (hclear : (Value.bare name).isClear = true) :
    ∃ c more, name.value = c :: more ∧ isPlain c = true ∧ isBlank c = false := by
  obtain ⟨hsame, hplain⟩ := bare_of_isClear hclear
  have hne : name.value ≠ [] := by
    rw [← hsame]
    exact textOf_ne_nil name.nonempty
  obtain ⟨c, more, hmore⟩ := List.exists_cons_of_ne_nil hne
  exact ⟨c, more, hmore, hplain c (by rw [hmore]; exact List.mem_cons_self)⟩

/-- A clear value is read as it is, up to the end of its condition. -/
theorem Attribute.readValue (a : Attribute) (hclear : a.value.isClear = true) (rest : List Char) :
    (Selector.quotedValue? '"' (a.value.text ++ (a.ending ++ rest)) <|>
      Selector.quotedValue? '\'' (a.value.text ++ (a.ending ++ rest)) <|>
        Selector.bareValue? (a.value.text ++ (a.ending ++ rest))) = some (a.value.value, rest) := by
  cases hvalue : a.value with
  | bare name =>
    rw [hvalue] at hclear
    obtain ⟨hsame, hplain⟩ := bare_of_isClear hclear
    obtain ⟨c, more, hmore, hc, -⟩ := exists_of_isClear hclear
    have hne : name.value ≠ [] := by simp [hmore]
    have hread := a.bareValue? (by rw [hvalue]; rfl) hne hplain rest
    have hquote : ∀ quote, isPlain quote = false → quote ≠ c := by
      rintro quote hquote rfl
      rw [hquote] at hc
      exact Bool.false_ne_true hc
    rw [Value.text, hsame]
    rw [hmore] at hread ⊢
    rw [List.cons_append, quotedValue?_of_ne (hquote '"' (by decide)),
      quotedValue?_of_ne (hquote '\'' (by decide)), ← List.cons_append, hread]
    exact congrArg (fun value => some (value, rest)) hmore.symm
  | quoted quote isQuote letters spelled =>
    rw [hvalue] at hclear
    obtain ⟨hsame, hmem⟩ := textOf_of_plain hclear
    have hquote : quote ∉ valueOf letters := by
      intro hquote
      have hplain := isValid_of_mem spelled (hmem quote hquote).2
      simp [Letter.isValid, isPlainIn] at hplain
    have htext : (Value.quoted quote isQuote letters spelled).text ++ (a.ending ++ rest) =
        quote :: (valueOf letters ++ quote :: (a.ending ++ rest)) := by
      rw [Value.text, show textOf letters = valueOf letters from hsame]
      simp
    have hread := a.quotedValue? hquote rest
    rw [htext]
    rcases isQuote with rfl | rfl
    · rw [hread]
      rfl
    · rw [quotedValue?_of_ne (by decide), hread]
      rfl

/-- Blanks are not letters. -/
theorem toLower_of_isBlank (hc : isBlank c = true) : c.toLower = c := by
  refine dif_neg ?_
  rintro ⟨hfrom, hto⟩
  have hfrom : 65 ≤ c.toNat := hfrom
  have hto : c.toNat ≤ 90 := hto
  simp only [isBlank, Bool.or_eq_true, Bool.and_eq_true, decide_eq_true_eq, beq_iff_eq] at hc
  omega

/-- The word is found in any case. -/
theorem afterClassWord?_word (word : Word ["class"]) (rest : List Char) :
    trimStart (word.text ++ rest) = word.text ++ rest ∧
      afterClassWord? (word.text ++ rest) = some rest := by
  have hknown : "class".toList = word.text.map Char.toLower := by simpa using word.known
  have hlength : word.text.length = 5 := by
    rw [← List.length_map, ← hknown]
    rfl
  have hsmall : word.text.map smallForm = "class".toList := by
    rw [hknown]
    apply List.map_congr_left
    intro c hc
    rw [smallForm, if_neg]
    intro hlong
    have hlower : c.toLower ∈ "class".toList := by
      rw [hknown]
      exact List.mem_map_of_mem hc
    rw [← Char.ofNat_toNat c, hlong] at hlower
    exact absurd hlower (by decide)
  constructor
  · obtain ⟨c, more, hmore, hc, -⟩ := List.map_eq_cons_iff.mp hknown.symm
    have hblank : isBlank c = false := by
      rw [← Bool.not_eq_true]
      intro hblank
      rw [toLower_of_isBlank hblank] at hc
      subst hc
      exact absurd hblank (by decide)
    rw [hmore, List.cons_append, trimStart_cons hblank]
  · rw [afterClassWord?, ← hlength, List.take_left, List.drop_left, hsmall, if_pos (beq_self_eq_true _)]

/-- A clear condition is found with its value. -/
theorem Attribute.classAttribute? (a : Attribute) (hclear : a.isClear = true) (rest : List Char) :
    classAttribute? (a.text ++ rest) = some (a.value.value, rest) := by
  simp only [Attribute.isClear, Bool.and_eq_true] at hclear
  have hopen : after? '[' (a.text ++ rest) = some (a.body ++ rest) := rfl
  have hbody : afterClassWord? (trimStart (a.body ++ rest)) = some (a.comparison ++ rest) := by
    obtain ⟨htrim, hword⟩ := afterClassWord?_word a.word (a.comparison ++ rest)
    rw [Attribute.body, List.append_assoc, trimStart_gap, List.append_assoc, htrim, hword]
  have hcomparison : after? '=' (skipOne ['~', '|', '^', '$', '*']
      (trimStart (a.comparison ++ rest))) =
        some (a.beforeValue.text ++ (a.value.text ++ (a.ending ++ rest))) := by
    rw [Attribute.comparison, List.append_assoc, trimStart_gap, List.append_assoc]
    simp only [List.append_assoc]
    cases a.operator <;> rfl
  have hvalue : trimStart (a.beforeValue.text ++ (a.value.text ++ (a.ending ++ rest))) =
      a.value.text ++ (a.ending ++ rest) := by
    rw [trimStart_gap]
    have hclear := hclear.2
    cases hvalue : a.value with
    | bare name =>
      rw [hvalue] at hclear
      obtain ⟨c, more, hmore, -, hblank⟩ := exists_of_isClear hclear
      rw [Value.text, (bare_of_isClear hclear).1, hmore, List.cons_append, trimStart_cons hblank]
    | quoted quote isQuote letters spelled =>
      rcases isQuote with rfl | rfl <;> rfl
  rw [Selector.classAttribute?]
  simp only [hopen, hbody, hcomparison, hvalue, Option.bind_eq_bind, Option.bind_some]
  exact a.readValue hclear.2 rest

/-! ## Conditions of a selector -/

theorem guarded_char (hc : c ≠ '=') : Guarded [c] :=
  guarded_of_not_mem (by simpa using Ne.symm hc)

theorem nested_guarded : Nested fun _ => Guarded where
  piecewise _ := ⟨guarded_of_not_mem List.not_mem_nil, Guarded.append⟩
  ordinary _ c hc := guarded_char (by rintro rfl; exact absurd hc (by decide))
  escape _ _ := guarded_cons (by decide) (by decide) _
  dot _ := guarded_char (by decide)
  colon _ := guarded_char (by decide)
  condition _ _ := guarded_cons (by decide) (by decide) _
  parentheses hinner := (guarded_char (by decide)).append
    (hinner.append (guarded_char (by decide)))
  comma _ := guarded_char (by decide)

theorem Gap.guarded (gap : Gap) : Guarded gap.text :=
  (nested_guarded.piecewise 0).gap (nested_guarded.ordinary 0) gap

theorem Tag.guarded (tag : Tag) : Guarded tag.text :=
  (nested_guarded.piecewise 0).tag (nested_guarded.ordinary 0) (nested_guarded.escape 0) tag

theorem Alternatives.guarded (list : Alternatives) : Guarded list.text :=
  @Nested.alternatives _ nested_guarded 0 (nested_guarded.comma 0) list

/-- What conditions are found in the open is among the given names. -/
def FindsAmong (names : List (List Char)) : List (Char × Bool) → List Char → Prop
  | [], _ => True
  | (c, hidden) :: shaded, rest =>
    (c = '[' → hidden = false → ∀ value behind,
      classAttribute? ('[' :: (shaded.map (·.1) ++ rest)) = some (value, behind) →
        ∀ name ∈ words value, name ∈ names) ∧
    FindsAmong names shaded rest

variable {names : List (List Char)} {shaded others : List (Char × Bool)}

theorem FindsAmong.append (hshaded : FindsAmong names shaded (others.map (·.1) ++ rest))
    (hothers : FindsAmong names others rest) : FindsAmong names (shaded ++ others) rest := by
  induction shaded with
  | nil => exact hothers
  | cons entry shaded ih =>
    refine ⟨?_, ih hshaded.2⟩
    have hfirst := hshaded.1
    rwa [← List.append_assoc, ← List.map_append] at hfirst

theorem FindsAmong.mono {more : List (List Char)} (hshaded : FindsAmong names shaded rest)
    (hmore : ∀ name ∈ names, name ∈ more) : FindsAmong more shaded rest := by
  induction shaded with
  | nil => trivial
  | cons entry shaded ih =>
    refine ⟨?_, ih hshaded.2⟩
    intro hopen hvisible value behind hfound name hname
    exact hmore name (hshaded.1 hopen hvisible value behind hfound name hname)

theorem findsAmong_hidden (text : List Char) : FindsAmong names (text.map (·, true)) rest := by
  induction text with
  | nil => trivial
  | cons c text ih => exact ⟨by simp, ih⟩

theorem findsAmong_of_not_mem (htext : '[' ∉ text) :
    FindsAmong names (text.map (·, false)) rest := by
  induction text with
  | nil => trivial
  | cons c text ih =>
    rw [List.mem_cons, not_or] at htext
    exact ⟨fun hopen => absurd hopen.symm htext.1, ih htext.2⟩

theorem findsAmong_of_ordinary (htext : ∀ c ∈ text, isOrdinary c = true) :
    FindsAmong names (text.map (·, false)) rest := by
  apply findsAmong_of_not_mem
  intro hmem
  exact absurd (htext '[' hmem) (by decide)

theorem map_fst_shaded (text : List Char) (hidden : Bool) :
    (text.map (·, hidden)).map (·.1) = text := by
  rw [List.map_map]
  exact List.map_id text

/-- An escaped bracket is taken for no condition. -/
theorem findsAmong_letters {letters : List Letter} {escapable : Char → Bool}
    (hspelled : areSpelled isPlain escapable letters = true) (hrest : Guarded rest) :
    FindsAmong names ((textOf letters).map (·, false)) rest := by
  induction letters with
  | nil => trivial
  | cons letter letters ih =>
    simp only [areSpelled, Bool.and_eq_true] at hspelled
    have hletters : Guarded (textOf letters) := (nested_guarded.piecewise 0).plainLetters
      (nested_guarded.ordinary 0) (nested_guarded.escape 0) hspelled.2
    have hbehind := hletters.append hrest
    rw [textOf_cons, List.map_append]
    refine FindsAmong.append ?_ (ih hspelled.2)
    rw [map_fst_shaded]
    cases letter with
    | plain c =>
      refine findsAmong_of_ordinary fun d hd => ?_
      rw [List.mem_singleton.mp hd]
      exact isOrdinary_of_isPlain hspelled.1.1
    | escaped c =>
      refine ⟨by simp, ?_, trivial⟩
      intro hopen _ value behind hfound
      have hnone := (classAttribute?_of_guarded hbehind).symm.trans hfound
      simp at hnone
    | number digits blank =>
      have hvalid := hspelled.1.1
      simp only [Letter.isValid, Bool.and_eq_true, List.all_eq_true] at hvalid
      apply findsAmong_of_not_mem
      intro hmem
      rcases List.mem_cons.mp hmem with hmem | hmem
      · exact absurd hmem (by decide)
      · rcases List.mem_append.mp hmem with hmem | hmem
        · exact absurd (hvalid.1.2 '[' hmem) (by decide)
        · have hblank := hvalid.2
          rw [Option.mem_toList.mp hmem] at hblank
          exact absurd hblank (by decide)

theorem words_of_isClear {value : Value} (hclear : value.isClear = true) :
    words value.value = tokens value.value := by
  have hblank : ∀ c ∈ value.value, isBlank c = isAsciiBlank c := by
    intro c hc
    have hclear := ((textOf_of_plain hclear).2 c hc).1
    cases hascii : isAsciiBlank c with
    | true => exact isBlank_of_isAsciiBlank hascii
    | false => simpa [hascii] using hclear
  rw [words_eq, tokens, splitOnP_congr hblank]

mutual

theorem Selector.map_fst_shaded (selector : Selector) :
    selector.shaded.map (·.1) = selector.text := by
  match selector with
  | .first tag => exact Css.map_fst_shaded tag.text false
  | .next left combinator tag =>
    rw [Selector.shaded, List.map_append, left.map_fst_shaded, Css.map_fst_shaded, Selector.text]
  | .withClass head name =>
    rw [Selector.shaded, List.map_append, head.map_fst_shaded, Css.map_fst_shaded, Selector.text]
  | .withAttribute head condition =>
    rw [Selector.shaded, List.map_append, List.map_cons, head.map_fst_shaded, Css.map_fst_shaded,
      Selector.text, Attribute.text]
  | .withNegation head word list =>
    rw [Selector.shaded, List.map_append, head.map_fst_shaded, Css.map_fst_shaded, Selector.text]
  | .withAny head word list =>
    rw [Selector.shaded, List.map_append, List.map_append, List.map_append, head.map_fst_shaded,
      list.map_fst_shaded, Css.map_fst_shaded, Selector.text]
    simp

theorem Alternatives.map_fst_shaded (list : Alternatives) :
    list.shaded.map (·.1) = list.text := by
  match list with
  | .last before selector behind =>
    simp only [Alternatives.shaded, List.map_append, Css.map_fst_shaded, selector.map_fst_shaded,
      Alternatives.text]
  | .more before selector behind others =>
    simp only [Alternatives.shaded, List.map_append, Css.map_fst_shaded, selector.map_fst_shaded,
      others.map_fst_shaded, Alternatives.text, List.map_cons, List.map_nil, List.append_assoc,
      List.singleton_append]

end

theorem Tag.findsAmong (tag : Tag) (hrest : Guarded rest) :
    FindsAmong names (tag.text.map (·, false)) rest := by
  cases tag with
  | unsaid => trivial
  | star => exact findsAmong_of_not_mem (by simp [Tag.text])
  | named name => exact findsAmong_letters name.spelled hrest

theorem Word.findsAmong {words : List String}
    (hwords : words.all (fun word => word.toList.all Char.isLower) = true) (word : Word words) :
    FindsAmong names ((':' :: (word.text ++ ['('])).map (·, false)) rest := by
  apply findsAmong_of_not_mem
  intro hmem
  rcases List.mem_cons.mp hmem with hmem | hmem
  · exact absurd hmem (by decide)
  · rcases List.mem_append.mp hmem with hmem | hmem
    · exact absurd (word.isOrdinary hwords hmem) (by decide)
    · exact absurd (List.mem_singleton.mp hmem) (by decide)

mutual

/-- All conditions that are found in a clear selector are its own. -/
theorem Selector.findsAmong (selector : Selector) (hclear : selector.isClear = true)
    {rest : List Char} (hrest : Guarded rest) :
    FindsAmong selector.named selector.shaded rest := by
  match selector with
  | .first tag => exact tag.findsAmong hrest
  | .next left combinator tag =>
    simp only [Selector.isClear, Bool.and_eq_true] at hclear
    have hcombinator : Guarded combinator.text := guarded_of_ordinary fun _ => combinator.isOrdinary
    have hbehind := (hcombinator.append tag.guarded).append hrest
    refine FindsAmong.append ?_ ?_
    · rw [Css.map_fst_shaded]
      exact left.findsAmong hclear.1.1 hbehind
    · rw [List.map_append]
      exact FindsAmong.append (findsAmong_of_ordinary fun _ => combinator.isOrdinary)
        (tag.findsAmong hrest)
  | .withClass head name =>
    simp only [Selector.isClear, Bool.and_eq_true] at hclear
    have hname : Guarded name.text :=
      (nested_guarded.piecewise 0).name (nested_guarded.ordinary 0) (nested_guarded.escape 0) name
    have hbehind := ((nested_guarded.dot 0).append hname).append hrest
    refine FindsAmong.append ?_ ⟨by simp, findsAmong_letters name.spelled hrest⟩
    rw [Css.map_fst_shaded]
    exact (head.findsAmong hclear.1 hbehind).mono fun _ => List.mem_append_left _
  | .withAttribute head condition =>
    simp only [Selector.isClear, Bool.and_eq_true] at hclear
    have hbehind : Guarded (condition.text ++ rest) :=
      guarded_cons (by decide) (by decide) _
    refine FindsAmong.append ?_ ⟨?_, findsAmong_hidden condition.body⟩
    · rw [List.map_cons, Css.map_fst_shaded]
      exact (head.findsAmong hclear.1 hbehind).mono fun _ => List.mem_append_left _
    · intro _ _ value behind hfound name hname
      rw [Css.map_fst_shaded] at hfound
      have hown := condition.classAttribute? hclear.2 rest
      obtain ⟨rfl, -⟩ := Prod.mk.inj (Option.some.inj (hown.symm.trans hfound))
      have hvalue : condition.value.isClear = true := by
        have hcondition := hclear.2
        simp only [Attribute.isClear, Bool.and_eq_true] at hcondition
        exact hcondition.2
      rw [words_of_isClear hvalue] at hname
      exact List.mem_append_right _ hname
  | .withNegation head word list =>
    have hfunction := @Nested.function _ nested_guarded 0 _ list.guarded _ (by decide) word
    have hbehind := hfunction.append hrest
    refine FindsAmong.append ?_ (findsAmong_hidden _)
    rw [Css.map_fst_shaded]
    exact head.findsAmong hclear hbehind
  | .withAny head word list =>
    simp only [Selector.isClear, Bool.and_eq_true] at hclear
    have hfunction := @Nested.function _ nested_guarded 0 _ list.guarded _ (by decide) word
    have hbehind := hfunction.append hrest
    have hclose : Guarded ([')'] ++ rest) := (guarded_char (by decide)).append hrest
    refine FindsAmong.append ?_ (FindsAmong.append (word.findsAmong (by decide))
      (FindsAmong.append ?_ ⟨by simp, trivial⟩))
    · rw [List.map_append, List.map_append, Css.map_fst_shaded, list.map_fst_shaded]
      simp only [List.cons_append, List.append_assoc, List.map_cons, List.map_nil,
        List.nil_append] at hbehind ⊢
      exact (head.findsAmong hclear.1.1 hbehind).mono fun _ => List.mem_append_left _
    · exact (list.findsAmong hclear.1.2 hclose).mono fun _ => List.mem_append_right _

theorem Alternatives.findsAmong (list : Alternatives) (hclear : list.isClear = true)
    {rest : List Char} (hrest : Guarded rest) : FindsAmong list.named list.shaded rest := by
  match list with
  | .last before selector behind =>
    simp only [Alternatives.isClear, Bool.and_eq_true] at hclear
    refine FindsAmong.append (findsAmong_of_ordinary fun _ => before.isOrdinary)
      (FindsAmong.append ?_ (findsAmong_of_ordinary fun _ => behind.isOrdinary))
    rw [Css.map_fst_shaded]
    exact selector.findsAmong hclear.1 (behind.guarded.append hrest)
  | .more before selector behind others =>
    simp only [Alternatives.isClear, Bool.and_eq_true] at hclear
    have hbehind := (behind.guarded.append (nested_guarded.comma 0)).append
      (others.guarded.append hrest)
    refine FindsAmong.append (findsAmong_of_ordinary fun _ => before.isOrdinary)
      (FindsAmong.append ?_ (FindsAmong.append ?_ ?_))
    · rw [List.map_append, Css.map_fst_shaded, others.map_fst_shaded, List.append_assoc]
      exact (selector.findsAmong hclear.1.1 hbehind).mono fun _ => List.mem_append_left _
    · apply findsAmong_of_not_mem
      intro hmem
      rcases List.mem_append.mp hmem with hmem | hmem
      · exact absurd (behind.isOrdinary hmem) (by decide)
      · exact absurd (List.mem_singleton.mp hmem) (by decide)
    · exact (others.findsAmong hclear.2 hrest).mono fun _ => List.mem_append_right _

end

end Deadwood.Css
